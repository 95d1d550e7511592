import Mathlib
import JarRename.Proofs.Mapping.Descriptors
import JarRename.Proofs.Renaming.Members
import JarRename.Proofs.Signature.Reading
import JarRename.Remapper

/-!
# Descriptors as signatures

A descriptor is also a signature, of a type that is not generic. Renaming it as a signature replaces
the same classes as mapping its type does, if no name of a class has a `<`, which would begin type
arguments.
-/
namespace JarRename

/-- A name that can also be written into a signature. -/
def BinaryName.IsPlain (name : BinaryName) : Prop := '<' ∉ name.text.toList

theorem BinaryName.IsPlain.exists_part {name : BinaryName} (h : name.IsPlain) :
    ∃ part : Signature.Part, part.spelling = name.spell ∧ part.text = name.text := by
  have hclean : ∀ c ∈ name.text.toList, Signature.endsClassName c = false := by
    intro c hc
    have hlt : c ≠ '<' := fun heq => h (heq ▸ hc)
    obtain hmark | rfl := Name.isMark_of_mem name.valid hc
    · simp_all [Name.isMark, Signature.endsClassName]
    · rfl
  exact ⟨⟨name.spell, (Name.binaryError?_eq_none_iff.1 name.valid).1, hclean⟩, rfl,
    String.ofList_toList⟩

namespace Signature

open Walk

theorem javaType_letter {m : Type → Type} [Monad m] (step : Step m) (type : BaseType)
    (written left : List Char) :
    javaType step ⟨written, type.letter :: left⟩ = pure ⟨type.letter :: written, left⟩ := by
  cases type <;> rfl

/-- A reference type `cs` becomes `out`, wherever it stands in a type nested less deep. -/
def Writes (f : String → String) (least : Nat) (cs out : List Char) : Prop :=
  ∀ (depth : Nat) (written left : List Char), least ≤ depth →
    reference (m := Id) f depth ⟨written, cs ++ left⟩ = pure ⟨out.reverse ++ written, left⟩

section Types

variable {f : String → String}

/-- The first character of a reference type is no primitive type. -/
theorem javaType_refType {m : Type → Type} [Monad m] (step : Step m) (type : RefType BinaryName)
    (written left : List Char) :
    javaType step ⟨written, type.render BinaryName.spell ++ left⟩ =
      step ⟨written, type.render BinaryName.spell ++ left⟩ := by
  cases type with
  | object dims name => cases dims <;> rfl
  | primitiveArray extra element => rfl

theorem Writes.array {least : Nat} {type : RefType BinaryName} {out : List Char}
    (h : Writes f least (type.render BinaryName.spell) out) :
    Writes f (least + 1) ('[' :: type.render BinaryName.spell) ('[' :: out) := by
  intro depth written left hd
  obtain ⟨depth, rfl⟩ : ∃ k, depth = k + 1 := ⟨depth - 1, by omega⟩
  change javaType (reference (m := Id) f depth)
    ⟨'[' :: written, type.render BinaryName.spell ++ left⟩ = _
  rw [javaType_refType, h depth ('[' :: written) left (by omega)]
  simp

theorem writes_primitiveArray (extra : Nat) (element : BaseType) :
    Writes f (extra + 1) ((RefType.primitiveArray extra element).render BinaryName.spell)
      ((RefType.primitiveArray extra element).render BinaryName.spell) := by
  induction extra with
  | zero =>
    intro depth written left hd
    obtain ⟨depth, rfl⟩ : ∃ k, depth = k + 1 := ⟨depth - 1, by omega⟩
    exact javaType_letter (reference (m := Id) f depth) element ('[' :: written) left
  | succ extra ih => exact ih.array

variable {g : BinaryName → BinaryName} (hg : ∀ name, (g name).text = f name.text)
include hg

theorem writes_object {name : BinaryName} (h : name.IsPlain) (dims : Nat) :
    Writes f (dims + 1) ((RefType.object dims name).render BinaryName.spell)
      ((RefType.object dims (g name)).render BinaryName.spell) := by
  induction dims with
  | zero =>
    intro depth written left hd
    obtain ⟨depth, rfl⟩ : ∃ k, depth = k + 1 := ⟨depth - 1, by omega⟩
    obtain ⟨part, hs, ht⟩ := h.exists_part
    have hmapped : (f part.text).toList = (g name).spell := by rw [ht, ← hg, BinaryName.spell]
    have hstop : ∀ c ∈ (';' :: left).head?, endsClassName c = true := by simp [endsClassName]
    have hread := reference_classType (m := Id) f depth part hstop written
    simp only [RefType.render, List.replicate_zero, List.nil_append, List.cons_append,
      List.append_assoc, ← hs]
    refine hread.trans ?_
    change classRest (m := Id) f (reference f depth) (depth + 1) part.text (f part.text)
      ⟨(f part.text).toList.reverse ++ 'L' :: written, ';' :: left⟩ = _
    rw [classRest_succ, hmapped]
    simp [optionalArguments, Walk.choose, Walk.done, Cursor.at?, classEnd_semicolon]
  | succ dims ih => exact ih.array

/-- A reference type becomes the mapped type. -/
theorem writes_refType (type : RefType BinaryName) (h : ∀ name ∈ type.classes, name.IsPlain) :
    Writes f (type.render BinaryName.spell).length (type.render BinaryName.spell)
      ((type.map g).render BinaryName.spell) := by
  intro depth written left hd
  cases type with
  | object dims name =>
    refine writes_object hg (h name (by simp [RefType.classes])) dims depth written left ?_
    simp [RefType.render] at hd
    omega
  | primitiveArray extra element =>
    refine writes_primitiveArray extra element depth written left ?_
    simp [RefType.render] at hd
    omega

theorem javaType_fieldType (type : FieldType BinaryName) (h : ∀ name ∈ type.classes, name.IsPlain)
    {depth : Nat} (hd : (type.render BinaryName.spell).length ≤ depth) (written left : List Char) :
    javaType (reference (m := Id) f depth) ⟨written, type.render BinaryName.spell ++ left⟩ =
      pure ⟨((type.map g).render BinaryName.spell).reverse ++ written, left⟩ := by
  cases type with
  | base type => exact javaType_letter _ type written left
  | ref type =>
    exact (javaType_refType _ type written left).trans (writes_refType hg type h _ _ _ hd)

omit hg in
/-- No type begins with a mark that ends the parameters or stands for no result. -/
theorem at?_fieldType (type : FieldType BinaryName) {mark : Char}
    (hm : mark ≠ '[' ∧ mark ≠ 'L' ∧ isBaseLetter mark = false) (written left : List Char) :
    Cursor.at? mark ⟨written, type.render BinaryName.spell ++ left⟩ = false := by
  cases type with
  | base type =>
    have hne : type.letter ≠ mark := by
      rintro rfl
      have hbase : isBaseLetter type.letter = true := by cases type <;> rfl
      rw [hm.2.2] at hbase
      cases hbase
    simpa [FieldType.render, Cursor.at?] using hne
  | ref type =>
    cases type with
    | object dims name =>
      cases dims with
      | zero => simpa [FieldType.render, RefType.render, Cursor.at?] using hm.2.1.symm
      | succ dims =>
        simpa [FieldType.render, RefType.render, Cursor.at?, List.replicate_succ] using hm.1.symm
    | primitiveArray extra element =>
      simpa [FieldType.render, RefType.render, Cursor.at?, List.replicate_succ] using hm.1.symm

theorem parameters_types (types : List (FieldType BinaryName))
    (h : ∀ type ∈ types, ∀ name ∈ type.classes, name.IsPlain) {depth rounds : Nat}
    (hd : (types.flatMap (FieldType.render BinaryName.spell)).length ≤ depth)
    (hr : types.length < rounds) (written left : List Char) :
    parameters (reference (m := Id) f depth) rounds
      ⟨written, types.flatMap (FieldType.render BinaryName.spell) ++ ')' :: left⟩ =
      pure ⟨((types.map (FieldType.map g)).flatMap (FieldType.render BinaryName.spell) ++
        [')']).reverse ++ written, left⟩ := by
  induction types generalizing rounds written with
  | nil =>
    obtain ⟨rounds, rfl⟩ : ∃ k, rounds = k + 1 := ⟨rounds - 1, by omega⟩
    rfl
  | cons type types ih =>
    obtain ⟨rounds, rfl⟩ : ∃ k, rounds = k + 1 := ⟨rounds - 1, by omega⟩
    simp only [List.flatMap_cons, List.length_append, List.length_cons, List.append_assoc]
      at hd hr ⊢
    have hopen : ∀ left, Cursor.at? ')' ⟨written, type.render BinaryName.spell ++ left⟩ = false :=
      at?_fieldType type (by decide) written
    have htype := javaType_fieldType hg type (h type List.mem_cons_self) (by omega : _ ≤ depth)
      written
    have hrest := ih (fun type hm => h type (List.mem_cons_of_mem _ hm)) (by omega)
      (by omega : types.length < rounds) (((type.map g).render BinaryName.spell).reverse ++ written)
    rw [parameters, hopen]
    simp only [htype, pure_bind, hrest]
    simp

omit hg in
theorem rename_of_signature {source : String} {out : List Char}
    (h : signature (reference (m := Id) f (source.toList.length + 1)) (source.toList.length + 1)
      ⟨[], source.toList⟩ = pure ⟨out.reverse, []⟩) :
    rename (m := Id) f source = .ok (String.ofList out) := by
  simp only [rename, h]
  simp only [ExceptT.run_pure, pure_bind, List.reverse_reverse]
  rfl

theorem rename_refType (type : RefType BinaryName) (h : ∀ name ∈ type.classes, name.IsPlain) :
    rename (m := Id) f type.text = .ok (type.map g).text := by
  have hread := writes_refType hg type h ((type.render BinaryName.spell).length + 1) [] []
    (Nat.le_succ _)
  have hparameters : Cursor.at? '<' ⟨[], type.render BinaryName.spell ++ []⟩ = false :=
    at?_fieldType (.ref type) (by decide) [] []
  have hmethod : Cursor.at? '(' ⟨[], type.render BinaryName.spell ++ []⟩ = false :=
    at?_fieldType (.ref type) (by decide) [] []
  rw [List.append_nil] at hread hparameters hmethod
  refine rename_of_signature ?_
  rw [RefType.text, String.toList_ofList, signature, hparameters]
  simp [hmethod, hread, references]

omit hg in
theorem length_le_render (types : List (FieldType BinaryName)) :
    types.length ≤ (types.flatMap (FieldType.render BinaryName.spell)).length := by
  induction types with
  | nil => exact Nat.le_refl 0
  | cons type types ih =>
    have hpos : 0 < (type.render BinaryName.spell).length := by
      cases type with
      | base type => exact Nat.one_pos
      | ref type => cases type <;> simp [FieldType.render, RefType.render]
    simp only [List.flatMap_cons, List.length_append, List.length_cons]
    omega

/-- No result is `V`, which is no type. -/
theorem result_type (result : Option (FieldType BinaryName))
    (h : ∀ name ∈ result.elim [] FieldType.classes, name.IsPlain) {depth : Nat}
    (hd : (MethodType.renderResult BinaryName.spell result).length ≤ depth) (rounds : Nat)
    (written : List Char) :
    (choose 'V' copy javaTypeWalk) Id f depth rounds
      ⟨written, MethodType.renderResult BinaryName.spell result⟩ =
      pure ⟨(MethodType.renderResult BinaryName.spell (result.map (FieldType.map g))).reverse ++
        written, []⟩ := by
  cases result with
  | none => rfl
  | some type =>
    have hvoid := at?_fieldType type (by decide : 'V' ≠ '[' ∧ 'V' ≠ 'L' ∧ isBaseLetter 'V' = false)
      written []
    have htype := javaType_fieldType hg type h hd written []
    rw [List.append_nil] at hvoid htype
    simpa [MethodType.renderResult, choose, hvoid, javaTypeWalk] using htype

theorem rename_methodType (type : MethodType BinaryName)
    (h : ∀ name ∈ type.classes, name.IsPlain) :
    rename (m := Id) f type.text = .ok (type.map g).text := by
  obtain ⟨types, result⟩ := type
  have htypes : ∀ type ∈ types, ∀ name ∈ type.classes, name.IsPlain := fun type ht name hn =>
    h name (List.mem_append_left _ (List.mem_flatMap.2 ⟨type, ht, hn⟩))
  have hresult : ∀ name ∈ result.elim [] FieldType.classes, name.IsPlain := fun name hn =>
    h name (List.mem_append_right _ hn)
  refine rename_of_signature ?_
  rw [MethodType.text, String.toList_ofList]
  generalize hn : (MethodType.render BinaryName.spell ⟨types, result⟩).length + 1 = n
  simp only [MethodType.render, List.length_cons, List.length_append] at hn
  have hcount := length_le_render types
  have hparameters := parameters_types hg types htypes (by omega : _ ≤ n) (by omega : _ < n) ['(']
    (MethodType.renderResult BinaryName.spell result)
  have hend := fun written => result_type hg result hresult (by omega : _ ≤ n) n written
  have hsig : signature (reference (m := Id) f n) n
      ⟨[], MethodType.render BinaryName.spell ⟨types, result⟩⟩ =
      (methodWalk.andThen 0 0 endWalk) Id f n n
        ⟨['('], types.flatMap (FieldType.render BinaryName.spell) ++
          ')' :: MethodType.renderResult BinaryName.spell result⟩ := by
    rw [methodWalk_end]
    rfl
  rw [hsig]
  have hthrown : ∀ written, thrownWalk Id f n n ⟨written, []⟩ = pure ⟨written, []⟩ := by
    intro written
    rw [← hn]
    rfl
  simp only [Walk.andThen, methodWalk, parametersWalk, Nat.sub_zero, hparameters, pure_bind, hend,
    hthrown]
  simp [endWalk, MethodType.render, MethodType.map]

end Types

end Signature

namespace Remapper

variable {r : Remapper} {descriptor : String}

/-- A text without an `L` is left alone, as a signature and as a descriptor. -/
theorem mapSignature_of_rename {mapped : String}
    (h : 'L' ∈ descriptor.toList →
      Signature.rename (m := Id) r.mapClass descriptor = .ok mapped)
    (hself : 'L' ∉ descriptor.toList → mapped = descriptor) :
    r.mapSignature descriptor = .ok mapped := by
  rw [mapSignature]
  split
  · rename_i hl
    rw [hself hl]
  · rename_i hl
    rw [h (not_not.1 hl)]

theorem mapSignature_fieldType {type : FieldType BinaryName}
    (hp : FieldType.parse descriptor = .ok type) (hplain : ∀ name ∈ type.classes, name.IsPlain) :
    r.mapSignature descriptor = .ok (type.map r.mappings.mapBinaryName).text := by
  obtain rfl := FieldType.text_of_parse hp
  refine mapSignature_of_rename (fun hl => ?_) fun hl => ?_
  · cases type with
    | base type => cases type <;> simp [FieldType.text, FieldType.render, BaseType.letter] at hl
    | ref type => exact Signature.rename_refType r.mappings.mapBinaryName_text type hplain
  · rw [FieldType.text, String.toList_ofList] at hl
    rw [FieldType.map_eq_self_of_no_class hl]

theorem mapSignature_methodType {type : MethodType BinaryName}
    (hp : MethodType.parse descriptor = .ok type) (hplain : ∀ name ∈ type.classes, name.IsPlain) :
    r.mapSignature descriptor = .ok (type.map r.mappings.mapBinaryName).text := by
  obtain rfl := MethodType.text_of_parse hp
  refine mapSignature_of_rename (fun _ => ?_) fun hl => ?_
  · exact Signature.rename_methodType r.mappings.mapBinaryName_text type hplain
  · rw [MethodType.text, String.toList_ofList] at hl
    rw [MethodType.map_eq_self_of_no_class hl]

/-- A descriptor is renamed in the same way as a signature and as a descriptor: both give the text
of its type with every class renamed. -/
theorem mapSignature_descriptor (r : Remapper) (descriptor : String) :
    (∀ type, FieldType.parse descriptor = .ok type → (∀ name ∈ type.classes, name.IsPlain) →
      r.mapSignature descriptor = .ok (type.map r.mappings.mapBinaryName).text ∧
      r.mapFieldDescriptor descriptor = .ok (type.map r.mappings.mapBinaryName).text) ∧
    ∀ type, MethodType.parse descriptor = .ok type → (∀ name ∈ type.classes, name.IsPlain) →
      r.mapSignature descriptor = .ok (type.map r.mappings.mapBinaryName).text ∧
      r.mapMethodDescriptor descriptor = .ok (type.map r.mappings.mapBinaryName).text :=
  ⟨fun _ hp hplain =>
    ⟨mapSignature_fieldType hp hplain, r.mappings.mapFieldDescriptor_of_parse hp⟩,
  fun _ hp hplain =>
    ⟨mapSignature_methodType hp hplain, r.mappings.mapMethodDescriptor_of_parse hp⟩⟩

/-- The type of a method that takes an `int` and an array of `A` and gives a `boolean[][]`. -/
def sampleType : MethodType BinaryName :=
  ⟨[.base .int, .ref (.object 1 Renaming.sampleName)], some (.ref (.primitiveArray 1 .boolean))⟩

theorem mapSignature_descriptor_sample :
    (Renaming.sampleRemapper .empty).mapSignature "LA;" = .ok "LB;" ∧
    (Renaming.sampleRemapper .empty).mapFieldDescriptor "LA;" = .ok "LB;" ∧
    (Renaming.sampleRemapper .empty).mapSignature "(I[LA;)[[Z" = .ok "(I[LB;)[[Z" ∧
    (Renaming.sampleRemapper .empty).mapMethodDescriptor "(I[LA;)[[Z" = .ok "(I[LB;)[[Z" := by
  have hfield : FieldType.parse "LA;" = .ok (.object Renaming.sampleName) := by decide +kernel
  have hmethod : MethodType.parse "(I[LA;)[[Z" = .ok sampleType := by decide +kernel
  have hplain : Renaming.sampleName.IsPlain := by
    simp [BinaryName.IsPlain, Renaming.sampleName]
  have hspell : ((Renaming.sampleRemapper .empty).mappings.mapBinaryName
      Renaming.sampleName).spell = ['B'] := by
    rw [BinaryName.spell, MappingSet.mapBinaryName_text]
    exact congrArg String.toList (Renaming.mapClass_sample .empty)
  obtain ⟨hs, hd⟩ := (mapSignature_descriptor (Renaming.sampleRemapper .empty) "LA;").1 _ hfield
    (by simp [FieldType.object, FieldType.classes, RefType.classes, hplain])
  obtain ⟨hsm, hdm⟩ := (mapSignature_descriptor (Renaming.sampleRemapper .empty) "(I[LA;)[[Z").2 _
    hmethod (by simp [sampleType, MethodType.classes, FieldType.classes, RefType.classes, hplain])
  have hone : ((FieldType.object Renaming.sampleName).map
      (Renaming.sampleRemapper .empty).mappings.mapBinaryName).text = "LB;" := by
    simp only [FieldType.text, FieldType.object, FieldType.map, RefType.map, FieldType.render,
      RefType.render, hspell]
    rfl
  have htwo : (sampleType.map
      (Renaming.sampleRemapper .empty).mappings.mapBinaryName).text = "(I[LB;)[[Z" := by
    simp only [MethodType.text, sampleType, MethodType.map, List.map_cons, List.map_nil,
      Option.map_some, MethodType.render, MethodType.renderResult, List.flatMap_cons,
      List.flatMap_nil, FieldType.map, RefType.map, FieldType.render, RefType.render, hspell]
    rfl
  rw [hone] at hs hd
  rw [htwo] at hsm hdm
  exact ⟨hs, hd, hsm, hdm⟩

end Remapper

end JarRename
