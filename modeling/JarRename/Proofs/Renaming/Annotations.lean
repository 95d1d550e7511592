import Mathlib
import JarRename.Proofs.AttributeFormat
import JarRename.Proofs.Renaming.Text
import JarRename.Renaming.Attributes

/-!
# Renamed annotations

Every descriptor, class literal and enumeration constant in an annotation leads to its mapped text,
however deep it stands. Element names, constant values and the shape of the annotation stay, and so
does the number of bytes that it takes up.
-/
namespace JarRename.Renaming

open ConstantPool

/-- The name at `j` is what the one at `i` is mapped to, for a member of `owner` whose descriptor
stands at `descriptor`. -/
def NameRenamed (r : Remapper) (kind : MemberKind) (owner : String) (old new : ConstantPool)
    (descriptor i j : PoolIndex) : Prop :=
  ∃ name text mapped, old.text i = .ok name ∧ old.text descriptor = .ok text ∧
    mapMemberName r kind owner name text = .ok mapped ∧ new.text j = .ok mapped

theorem NameRenamed.text_eq {r : Remapper} {kind : MemberKind} {owner : String}
    {old new : ConstantPool} {descriptor i j : PoolIndex}
    (h : NameRenamed r kind owner old new descriptor i j) {name text mapped : String}
    (hn : old.text i = .ok name) (ht : old.text descriptor = .ok text)
    (hm : mapMemberName r kind owner name text = .ok mapped) : new.text j = .ok mapped := by
  obtain ⟨_, _, _, hn', ht', hm', hafter⟩ := h
  obtain rfl := Except.ok.inj (hn.symm.trans hn')
  obtain rfl := Except.ok.inj (ht.symm.trans ht')
  obtain rfl := Except.ok.inj (hm.symm.trans hm')
  exact hafter

/-- What the value of an annotation element becomes. -/
inductive ValueRenamed (r : Remapper) (old new : ConstantPool) : ElementValue → ElementValue → Prop
  | const {tag : UInt8} {index : PoolIndex} :
      ValueRenamed r old new (.const tag index) (.const tag index)
  | enumConstant {type type' name name' : PoolIndex} {descriptor : String}
      (text : old.text type = .ok descriptor)
      (renamed : TextRenamed r .fieldDescriptor old new type type')
      (field : ∀ owner, descriptorClass? descriptor = some owner →
        NameRenamed r .field owner old new type name name')
      (other : descriptorClass? descriptor = none → name' = name) :
      ValueRenamed r old new (.enumConstant type name) (.enumConstant type' name')
  | classLiteral {i j : PoolIndex} (renamed : TextRenamed r .resultDescriptor old new i j) :
      ValueRenamed r old new (.classLiteral i) (.classLiteral j)
  | nested {type type' : PoolIndex} {elements elements' : List (PoolIndex × ElementValue)}
      (renamed : TextRenamed r .fieldDescriptor old new type type')
      (names : elements'.map (·.1) = elements.map (·.1))
      (values : List.Forall₂ (ValueRenamed r old new) (elements.map (·.2)) (elements'.map (·.2))) :
      ValueRenamed r old new (.nested type elements) (.nested type' elements')
  | array {values values' : List ElementValue}
      (renamed : List.Forall₂ (ValueRenamed r old new) values values') :
      ValueRenamed r old new (.array values) (.array values')

/-- Elements keep their names one by one. -/
theorem forall₂_elements {rel : ElementValue → ElementValue → Prop}
    {elements elements' : List (PoolIndex × ElementValue)}
    (names : elements'.map (·.1) = elements.map (·.1))
    (values : List.Forall₂ rel (elements.map (·.2)) (elements'.map (·.2))) :
    List.Forall₂ (fun element element' => element'.1 = element.1 ∧ rel element.2 element'.2)
      elements elements' := by
  rw [List.forall₂_map_left_iff, List.forall₂_map_right_iff] at values
  induction values with
  | nil => exact .nil
  | cons hv _ ih =>
    obtain ⟨hname, hnames⟩ := List.cons.inj names
    exact .cons ⟨hname, hv⟩ (ih hnames)

structure UseRenamed (r : Remapper) (old new : ConstantPool) (before after : AnnotationUse) :
    Prop where
  type : TextRenamed r .fieldDescriptor old new before.type after.type
  names : after.elements.map (·.1) = before.elements.map (·.1)
  values : List.Forall₂ (ValueRenamed r old new) (before.elements.map (·.2))
    (after.elements.map (·.2))

variable {names : Std.HashMap PoolIndex String} {ctx : Context}

theorem yields_contextText (kind : TextKind) (index : PoolIndex) :
    Yields names (ctx.text kind index) fun old new i =>
      TextRenamed ctx.remapper kind old new index i :=
  yields_renameText ctx.remapper kind index

theorem yields_fieldName (owner : String) (name : PoolIndex) (nameText descriptor : String) :
    Yields names (ctx.fieldName owner name nameText descriptor) fun _ new i =>
      new.text name = .ok nameText →
        ∃ mapped, ctx.remapper.mapField owner nameText descriptor = .ok mapped ∧
          new.text i = .ok mapped := by
  refine (yields_lift fun _ _ _ h => h).bind fun mapped => ?_
  exact (yields_replaceText name nameText mapped).mono fun _ _ _ _ hr hm ht => ⟨mapped, hm, hr ht⟩

theorem yields_renameEnumConstant (type name : PoolIndex) :
    Yields names (renameEnumConstant ctx type name) fun old new value =>
      ValueRenamed ctx.remapper old new (.enumConstant type name) value := by
  refine (yields_text type).bind fun descriptor => ?_
  refine (yields_text name).bind fun nameText => ?_
  rcases hc : descriptorClass? descriptor with _ | owner
  · refine Yields.bind (yields_pure fun _ _ => rfl : Yields names (pure name) fun _ _ i => i = name)
      fun i => ?_
    refine (yields_contextText .fieldDescriptor type).bind fun j => ?_
    exact yields_pure fun _ _ hj hi _ ht => .enumConstant ht.1 hj (by simp [hc]) fun _ => hi
  · refine (yields_fieldName owner name nameText descriptor).bind fun i => ?_
    refine (yields_contextText .fieldDescriptor type).bind fun j => ?_
    refine yields_pure fun old new hj hi hn ht => .enumConstant ht.1 hj ?_ (by simp [hc])
    intro owner' ho
    obtain ⟨mapped, hm, hi⟩ := hi hn.2
    rw [hc] at ho
    cases ho
    exact ⟨nameText, descriptor, mapped, hn.1, ht.1, hm, hi⟩

/-- Renaming the values of elements leaves the element names as they are. -/
theorem yields_elements {elements : List (PoolIndex × ElementValue)}
    (h : ∀ element ∈ elements, Yields names (renameValue ctx element.2) fun old new v =>
      ValueRenamed ctx.remapper old new element.2 v) :
    Yields names (elements.mapM fun element => do
        return (element.1, ← renameValue ctx element.2)) fun old new elements' =>
      elements'.map (·.1) = elements.map (·.1) ∧ List.Forall₂ (ValueRenamed ctx.remapper old new)
        (elements.map (·.2)) (elements'.map (·.2)) := by
  have hstep : ∀ element ∈ elements,
      Yields names (do return (element.1, ← renameValue ctx element.2)) fun old new element' =>
        element'.1 = element.1 ∧ ValueRenamed ctx.remapper old new element.2 element'.2 :=
    fun element he => (h element he).bind fun v => yields_pure fun _ _ hv => ⟨rfl, hv⟩
  refine (yields_mapM elements hstep).mono fun old new elements' _ hall => ?_
  clear h hstep
  induction hall with
  | nil => exact ⟨rfl, .nil⟩
  | cons hr _ ih => exact ⟨by rw [List.map_cons, List.map_cons, hr.1, ih.1], .cons hr.2 ih.2⟩

theorem renameValue_nested (type : PoolIndex) (elements : List (PoolIndex × ElementValue)) :
    renameValue ctx (.nested type elements) = do
      let type ← ctx.text .fieldDescriptor type
      return .nested type (← elements.mapM fun element => do
        return (element.1, ← renameValue ctx element.2)) := by
  rw [renameValue]
  congr 1
  funext type
  rw [List.mapM_subtype (g := fun element : PoolIndex × ElementValue => do
    return (element.1, ← renameValue ctx element.2)) fun _ _ => rfl, List.unattach_attach]

theorem renameValue_array (values : List ElementValue) :
    renameValue ctx (.array values) = do
      return .array (← values.mapM (renameValue ctx)) := by
  rw [renameValue, List.mapM_subtype (g := renameValue ctx) fun _ _ => rfl, List.unattach_attach]

theorem yields_renameValue (value : ElementValue) :
    Yields names (renameValue ctx value) fun old new v =>
      ValueRenamed ctx.remapper old new value v := by
  induction value using renameValue.induct with
  | case1 tag index =>
    rw [renameValue]
    exact yields_pure fun _ _ => .const
  | case2 type name =>
    rw [renameValue]
    exact yields_renameEnumConstant type name
  | case3 descriptor =>
    rw [renameValue]
    refine (yields_contextText .resultDescriptor descriptor).bind fun i => ?_
    exact yields_pure fun _ _ hi => .classLiteral hi
  | case4 type elements ih =>
    rw [renameValue_nested]
    refine (yields_contextText .fieldDescriptor type).bind fun type' => ?_
    refine (yields_elements fun element he => ih element.1 element.2 he).bind fun elements' => ?_
    exact yields_pure fun _ _ he ht => .nested ht he.1 he.2
  | case5 values ih =>
    rw [renameValue_array]
    refine (yields_mapM values fun value hv => ih value hv).bind fun values' => ?_
    exact yields_pure fun _ _ hv => .array hv

theorem yields_renameUse (entry : AnnotationUse) :
    Yields names (renameUse ctx entry) fun old new use =>
      UseRenamed ctx.remapper old new entry use := by
  refine (yields_contextText .fieldDescriptor entry.type).bind fun type => ?_
  refine (yields_elements fun element _ => yields_renameValue element.2).bind fun elements => ?_
  exact yields_pure fun _ _ he ht => ⟨ht, he.1, he.2⟩

/-- What takes the place of something that can be written can be written too, in as many bytes. -/
def Refits {α : Type} (write : α → Bytes) (fits : α → Prop) (before after : α) : Prop :=
  fits before → fits after ∧ (write after).length = (write before).length

theorem refits_counted {α : Type} {write : α → Bytes} {fits : α → Prop} (k bound : Nat)
    {xs ys : List α} (h : List.Forall₂ (Refits write fits) xs ys) :
    Refits (Bytes.counted k write) (fun items => items.length < bound ∧ ∀ x ∈ items, fits x) xs
      ys := by
  rintro ⟨hlen, hfits⟩
  have hsame := h.length_eq
  refine ⟨⟨hsame ▸ hlen, ?_⟩, ?_⟩
  · intro y hy
    obtain ⟨x, hx, hr⟩ := Fallible.exists_of_mem_right h hy
    exact (hr (hfits x hx)).1
  · have hsum : (ys.map fun y => (write y).length).sum =
        (xs.map fun x => (write x).length).sum := by
      clear hlen hsame
      induction h with
      | nil => rfl
      | cons hr _ ih =>
        have hi := ih fun x hx => hfits x (by simp [hx])
        simp [(hr (hfits _ (by simp))).2, hi]
    simp [Bytes.counted, List.length_flatMap, hsum]

variable {r : Remapper} {old new : ConstantPool}

theorem refits_elements {n : Nat} {elements elements' : List (PoolIndex × ElementValue)}
    (h : List.Forall₂ (Refits ElementValue.write (ElementValue.Fits n)) (elements.map (·.2))
      (elements'.map (·.2))) :
    Refits (Bytes.counted 2 fun element : PoolIndex × ElementValue =>
        Bytes.u2 element.1 ++ element.2.write)
      (FitsList fun element => element.2.Fits n) elements elements' := by
  rw [List.forall₂_map_left_iff, List.forall₂_map_right_iff] at h
  refine refits_counted 2 0x10000 (h.imp fun a b hab ha => ?_)
  obtain ⟨hb, hl⟩ := hab ha
  exact ⟨hb, by simp [hl]⟩

theorem ValueRenamed.refits (n : Nat) {value value' : ElementValue}
    (h : ValueRenamed r old new value value') :
    Refits ElementValue.write (ElementValue.Fits n) value value' := by
  induction n generalizing value value' with
  | zero => exact fun hf => hf.elim
  | succ n ih =>
    cases h with
    | const => exact fun hf => ⟨hf, rfl⟩
    | enumConstant => exact fun hf => ⟨hf, by simp [ElementValue.write_enumConstant]⟩
    | classLiteral => exact fun hf => ⟨hf, by simp [ElementValue.write_classLiteral]⟩
    | nested _ _ values =>
      intro hf
      obtain ⟨hf', hl⟩ := refits_elements (values.imp fun _ _ hv => ih hv) hf
      exact ⟨hf', by simp [ElementValue.write_nested, hl]⟩
    | array renamed =>
      intro hf
      obtain ⟨hf', hl⟩ := refits_counted 2 0x10000 (renamed.imp fun _ _ hv => ih hv) hf
      exact ⟨hf', by simp [ElementValue.write_array, hl]⟩

theorem UseRenamed.refits (n : Nat) {before after : AnnotationUse}
    (h : UseRenamed r old new before after) :
    Refits AnnotationUse.write (AnnotationUse.Fits n) before after := by
  intro hf
  obtain ⟨hf', hl⟩ := refits_elements (h.values.imp fun _ _ hv => hv.refits n) hf
  exact ⟨hf', by simp [AnnotationUse.write, hl]⟩

end JarRename.Renaming
