import Mathlib
import JarRename.Descriptor.Parser
import JarRename.Proofs.Fallible
import JarRename.Proofs.Mapping.ClassNames

/-!
# A descriptor is the text of its type

A reader takes exactly the text of what it gives off the front, and it gives any type whose text
stands in front. The texts that are read are therefore those of the types, each read as its type.
-/
namespace JarRename

open Descriptor

variable {cs rest : List Char}

theorem BaseType.eq_of_read {type : BaseType} (h : BaseType.read cs = .ok (type, rest)) :
    cs = type.letter :: rest := by
  unfold BaseType.read at h
  split at h
  · cases h
  · split at h
    · rename_i c cs found hl
      cases h
      rw [BaseType.letter_of_ofLetter? hl]
    · cases h

theorem BinaryName.eq_of_read {name : BinaryName} (h : BinaryName.read cs = .ok (name, rest)) :
    cs = 'L' :: (name.spell ++ ';' :: rest) := by
  unfold BinaryName.read at h
  split at h
  · split at h
    · cases h
    · rename_i spelled left hcut
      split at h
      · rename_i found hn
        cases h
        have hs : name.spell = spelled := by
          rw [BinaryName.spell, BinaryName.text_of_ofString hn, String.toList_ofList]
        rw [hs, (Text.eq_append_of_cut? hcut).1]
      · cases h
  · cases h

/-- No mark ends a class name early, as a name has none but the slash. -/
theorem BinaryName.semicolon_notMem_spell (name : BinaryName) : ';' ∉ name.spell :=
  Name.notMem_of_isMark name.valid rfl (by decide)

theorem BinaryName.read_spell (name : BinaryName) (rest : List Char) :
    BinaryName.read ('L' :: (name.spell ++ ';' :: rest)) = .ok (name, rest) := by
  rw [BinaryName.read, Text.cut?_append name.semicolon_notMem_spell]
  simp [BinaryName.spell, BinaryName.ofString_text]

namespace RefType

variable {type : RefType BinaryName}

theorem eq_of_readArray {extra : Nat} (h : RefType.readArray extra cs = .ok (type, rest)) :
    List.replicate (extra + 1) '[' ++ cs = type.render BinaryName.spell ++ rest := by
  fun_induction RefType.readArray extra cs with
  | case1 extra cs ih =>
    rw [← ih h, List.replicate_succ' (n := extra + 1), List.append_assoc]
    rfl
  | case2 extra cs =>
    obtain ⟨⟨name, left⟩, hr, heq⟩ := Fallible.map_ok_iff.1 h
    cases heq
    rw [BinaryName.eq_of_read hr]
    simp [render]
  | case3 extra cs =>
    obtain ⟨⟨element, left⟩, hr, heq⟩ := Fallible.map_ok_iff.1 h
    cases heq
    rw [BaseType.eq_of_read hr]
    simp [render]

theorem eq_of_read (h : RefType.read cs = .ok (type, rest)) :
    cs = type.render BinaryName.spell ++ rest := by
  unfold RefType.read at h
  split at h
  · cases h
  · obtain ⟨⟨name, left⟩, hr, heq⟩ := Fallible.map_ok_iff.1 h
    cases heq
    rw [BinaryName.eq_of_read hr]
    simp [render]
  · exact eq_of_readArray h
  · cases h

/-- The dimensions that are read before the element type add to those read so far. -/
theorem readArray_replicate (extra n : Nat) (cs : List Char) :
    RefType.readArray extra (List.replicate n '[' ++ cs) = RefType.readArray (extra + n) cs := by
  induction n generalizing extra with
  | zero => rfl
  | succ n ih =>
    rw [List.replicate_succ, List.cons_append, RefType.readArray, ih, Nat.add_assoc,
      Nat.add_comm 1 n]

theorem readArray_object (extra : Nat) (name : BinaryName) (rest : List Char) :
    RefType.readArray extra ('L' :: (name.spell ++ ';' :: rest)) =
      .ok (.object (extra + 1) name, rest) := by
  rw [RefType.readArray, BinaryName.read_spell]
  rfl

theorem readArray_base (extra : Nat) (element : BaseType) (rest : List Char) :
    RefType.readArray extra (element.letter :: rest) =
      .ok (.primitiveArray extra element, rest) := by
  cases element <;> rfl

theorem read_render (type : RefType BinaryName) (rest : List Char) :
    RefType.read (type.render BinaryName.spell ++ rest) = .ok (type, rest) := by
  rcases type with ⟨_ | dims, name⟩ | ⟨extra, element⟩
  · simp [render, RefType.read, BinaryName.read_spell, Except.map]
  · simp [render, RefType.read, List.replicate_succ, readArray_replicate, readArray_object]
  · simp [render, RefType.read, List.replicate_succ, readArray_replicate, readArray_base]

/-- The text of a class or an array does not begin as that of a primitive type. -/
theorem exists_render (type : RefType BinaryName) :
    ∃ c cs, type.render BinaryName.spell = c :: cs ∧ (c = 'L' ∨ c = '[') := by
  rcases type with ⟨_ | dims, name⟩ | ⟨extra, element⟩
  · exact ⟨'L', _, rfl, .inl rfl⟩
  · exact ⟨'[', _, rfl, .inr rfl⟩
  · exact ⟨'[', _, rfl, .inr rfl⟩

end RefType

theorem FieldType.eq_of_read {type : FieldType BinaryName}
    (h : FieldType.read cs = .ok (type, rest)) : cs = type.render BinaryName.spell ++ rest := by
  unfold FieldType.read at h
  split at h
  · cases h
  · split at h
    · rename_i c cs found hl
      cases h
      rw [FieldType.render, BaseType.letter_of_ofLetter? hl]
      rfl
    · obtain ⟨⟨ref, left⟩, hr, heq⟩ := Fallible.map_ok_iff.1 h
      cases heq
      exact RefType.eq_of_read hr

theorem FieldType.read_render (type : FieldType BinaryName) (rest : List Char) :
    FieldType.read (type.render BinaryName.spell ++ rest) = .ok (type, rest) := by
  cases type with
  | base type => simp [FieldType.render, FieldType.read]
  | ref type =>
    have hread := type.read_render rest
    obtain ⟨c, cs, hc, hfirst⟩ := type.exists_render
    have hletter : BaseType.ofLetter? c = none := by obtain rfl | rfl := hfirst <;> rfl
    rw [hc, List.cons_append] at hread
    rw [FieldType.render, hc, List.cons_append, FieldType.read, hletter]
    simp [hread, Except.map]

/-- No type begins like the end of the parameters or the result `void`. -/
theorem FieldType.exists_render (type : FieldType BinaryName) :
    ∃ c cs, type.render BinaryName.spell = c :: cs ∧ c ≠ ')' ∧ c ≠ 'V' := by
  cases type with
  | base type => exact ⟨type.letter, [], rfl, by cases type <;> decide⟩
  | ref type =>
    obtain ⟨c, cs, hc, hfirst⟩ := type.exists_render
    exact ⟨c, cs, hc, by obtain rfl | rfl := hfirst <;> decide⟩

namespace MethodType

theorem eq_of_readParameters {seen types : List (FieldType BinaryName)}
    (h : readParameters seen cs = .ok (types, rest)) :
    seen.reverse.flatMap (FieldType.render BinaryName.spell) ++ cs =
      types.flatMap (FieldType.render BinaryName.spell) ++ ')' :: rest := by
  fun_induction readParameters seen cs with
  | case1 seen left =>
    cases h
    rfl
  | case2 => cases h
  | case3 seen cs _ type left hr ih =>
    rw [← ih h, FieldType.eq_of_read hr]
    simp

theorem eq_of_readResult {result : Option (FieldType BinaryName)}
    (h : readResult cs = .ok (result, rest)) :
    cs = renderResult BinaryName.spell result ++ rest := by
  unfold readResult at h
  split at h
  · cases h
    rfl
  · obtain ⟨⟨type, left⟩, hr, heq⟩ := Fallible.map_ok_iff.1 h
    cases heq
    exact FieldType.eq_of_read hr

theorem eq_of_read {type : MethodType BinaryName} (h : MethodType.read cs = .ok (type, rest)) :
    cs = type.render BinaryName.spell ++ rest := by
  unfold MethodType.read at h
  split at h
  · split at h
    · cases h
    · rename_i cs parameters left hp
      obtain ⟨⟨result, left'⟩, hr, heq⟩ := Fallible.map_ok_iff.1 h
      cases heq
      have hcs := eq_of_readParameters hp
      rw [eq_of_readResult hr, List.reverse_nil, List.flatMap_nil, List.nil_append] at hcs
      simp [render, hcs]
  · cases h

theorem readParameters_render (types seen : List (FieldType BinaryName)) (rest : List Char) :
    readParameters seen (types.flatMap (FieldType.render BinaryName.spell) ++ ')' :: rest) =
      .ok (seen.reverse ++ types, rest) := by
  induction types generalizing seen with
  | nil => simp [readParameters]
  | cons type types ih =>
    have hread := type.read_render
      (types.flatMap (FieldType.render BinaryName.spell) ++ ')' :: rest)
    obtain ⟨c, cs, hc, hend, -⟩ := type.exists_render
    rw [List.flatMap_cons, List.append_assoc]
    rw [hc, List.cons_append] at hread ⊢
    rw [readParameters.eq_def]
    split
    · rename_i heq
      cases heq
      exact absurd rfl hend
    · split
      · rename_i he
        cases hread.symm.trans he
      · rename_i ho
        cases hread.symm.trans ho
        rw [ih]
        simp

theorem readResult_render (result : Option (FieldType BinaryName)) (rest : List Char) :
    readResult (renderResult BinaryName.spell result ++ rest) = .ok (result, rest) := by
  cases result with
  | none => rfl
  | some type =>
    have hread := type.read_render rest
    obtain ⟨c, cs, hc, -, hvoid⟩ := type.exists_render
    rw [hc, List.cons_append] at hread
    rw [renderResult, hc, List.cons_append, readResult, hread]
    · rfl
    · simpa using hvoid

theorem read_render (type : MethodType BinaryName) (rest : List Char) :
    MethodType.read (type.render BinaryName.spell ++ rest) = .ok (type, rest) := by
  simp only [render, List.cons_append, List.append_assoc, MethodType.read,
    readParameters_render, readResult_render]
  rfl

end MethodType

namespace Descriptor

variable {α : Type}

theorem whole_ok_iff {reader : TextReader α} {text : String} {value : α} :
    whole reader text = .ok value ↔ reader text.toList = .ok (value, []) := by
  unfold whole
  rcases reader text.toList with e | ⟨found, _ | ⟨c, left⟩⟩ <;> simp

/-- The texts that are parsed are those that spell a value, each is parsed as the value that it
spells, and all others are refused. -/
structure Exact (parse : String → Except DescriptorError α) (spell : α → String) : Prop where
  accepts : ∀ text value, parse text = .ok value ↔ spell value = text
  refuses : ∀ text, (∃ e, parse text = .error e) ↔ ∀ value, spell value ≠ text
  unambiguous : Function.Injective spell

theorem Exact.of_accepts {parse : String → Except DescriptorError α} {spell : α → String}
    (accepts : ∀ text value, parse text = .ok value ↔ spell value = text) :
    Exact parse spell where
  accepts := accepts
  refuses := fun text => by
    simp only [ne_eq, ← accepts]
    cases parse text <;> simp
  unambiguous := fun value other h => by
    have hvalue := (accepts (spell other) value).2 h
    rw [(accepts (spell other) other).2 rfl] at hvalue
    exact (Except.ok.inj hvalue).symm

/-- A reader that takes the text of what it gives off the front, and gives what it stands for. -/
theorem exact_whole {reader : TextReader α} {render : α → List Char}
    (sound : ∀ {cs rest value}, reader cs = .ok (value, rest) → cs = render value ++ rest)
    (complete : ∀ value rest, reader (render value ++ rest) = .ok (value, rest)) :
    Exact (whole reader) fun value => String.ofList (render value) := by
  refine .of_accepts fun text value => ?_
  rw [whole_ok_iff]
  constructor
  · intro h
    have htext := sound h
    rw [List.append_nil] at htext
    rw [← htext, String.ofList_toList]
  · rintro rfl
    have hread := complete value []
    rwa [List.append_nil, ← String.toList_ofList (l := render value)] at hread

end Descriptor

theorem FieldType.exact_parse : Exact FieldType.parse FieldType.text :=
  exact_whole FieldType.eq_of_read FieldType.read_render

theorem RefType.exact_parse : Exact RefType.parse RefType.text :=
  exact_whole RefType.eq_of_read RefType.read_render

theorem MethodType.exact_parse : Exact MethodType.parse MethodType.text :=
  exact_whole MethodType.eq_of_read MethodType.read_render

theorem FieldType.parse_ok_iff {text : String} {type : FieldType BinaryName} :
    FieldType.parse text = .ok type ↔ type.text = text :=
  FieldType.exact_parse.accepts text type

theorem MethodType.parse_ok_iff {text : String} {type : MethodType BinaryName} :
    MethodType.parse text = .ok type ↔ type.text = text :=
  MethodType.exact_parse.accepts text type

theorem FieldType.text_of_parse {text : String} {type : FieldType BinaryName}
    (h : FieldType.parse text = .ok type) : type.text = text :=
  FieldType.parse_ok_iff.1 h

theorem MethodType.text_of_parse {text : String} {type : MethodType BinaryName}
    (h : MethodType.parse text = .ok type) : type.text = text :=
  MethodType.parse_ok_iff.1 h

/-- The descriptors of fields, of classes and arrays, and of methods are the texts of types. -/
theorem Descriptor.parsed_exactly :
    Exact FieldType.parse FieldType.text ∧ Exact RefType.parse RefType.text ∧
      Exact MethodType.parse MethodType.text :=
  ⟨FieldType.exact_parse, RefType.exact_parse, MethodType.exact_parse⟩

end JarRename
