import Mathlib
import JarRename.Mapping.Set

/-!
# The last entry counts

A table that is filled entry by entry answers with the last entry of a key. So does a mapping set
for classes, fields and methods.
-/
namespace JarRename

section Lookup

variable {κ α : Type} [BEq κ] [LawfulBEq κ]

/-- A key that all entries give one value is found with this value. -/
theorem lookup_eq_some_of_mem {entries : List (κ × α)} {key : κ} {value : α}
    (h : (key, value) ∈ entries) (unique : ∀ other, (key, other) ∈ entries → other = value) :
    entries.lookup key = some value := by
  cases hl : entries.lookup key with
  | none =>
    have hne := List.lookup_eq_none_iff.1 hl _ h
    simp at hne
  | some other =>
    obtain ⟨before, after, rfl, -⟩ := List.lookup_eq_some_iff.1 hl
    rw [unique other (by simp)]

theorem mem_of_lookup {entries : List (κ × α)} {key : κ} {value : α}
    (h : entries.lookup key = some value) : (key, value) ∈ entries := by
  obtain ⟨before, after, rfl, -⟩ := List.lookup_eq_some_iff.1 h
  simp

omit [LawfulBEq κ] in
/-- What is found after a run of steps, each of which adds entries. -/
theorem lookup_foldl {σ ε : Type} {step : σ → ε → σ} {entries : ε → List (κ × α)}
    (find : σ → κ → Option α)
    (h : ∀ s e key, find (step s e) key = ((entries e).reverse.lookup key).or (find s key))
    (es : List ε) (s : σ) (key : κ) :
    find (es.foldl step s) key = ((es.flatMap entries).reverse.lookup key).or (find s key) := by
  induction es generalizing s with
  | nil => rfl
  | cons e es ih =>
    rw [List.foldl_cons, ih, h, List.flatMap_cons, List.reverse_append, List.lookup_append,
      Option.or_assoc]

variable [Hashable κ] [LawfulHashable κ]

/-- What a table answers after more entries have been put into it. -/
theorem getElem?_foldl_insert (entries : List (κ × α)) (table : Std.HashMap κ α) (key : κ) :
    (entries.foldl (fun table entry => table.insert entry.1 entry.2) table)[key]? =
      (entries.reverse.lookup key).or table[key]? := by
  have hstep (table : Std.HashMap κ α) (entry : κ × α) (key : κ) :
      (table.insert entry.1 entry.2)[key]? = ([entry].reverse.lookup key).or table[key]? := by
    rw [Std.HashMap.getElem?_insert, List.reverse_singleton, List.lookup_cons, BEq.comm]
    cases key == entry.1 <;> simp
  simpa using lookup_foldl (fun table key => table[key]?) hstep entries table key

/-- Entries with different keys do not hide each other. -/
theorem getElem?_foldl_insert_iff {entries : List (κ × α)} (distinct : (entries.map (·.1)).Nodup)
    {key : κ} {value : α} :
    (entries.foldl (fun table entry => table.insert entry.1 entry.2)
        (∅ : Std.HashMap κ α))[key]? = some value ↔ (key, value) ∈ entries := by
  rw [getElem?_foldl_insert, Std.HashMap.getElem?_empty, Option.or_none]
  constructor
  · intro h
    exact List.mem_reverse.1 (mem_of_lookup h)
  · intro h
    have hunique : ∀ other, (key, other) ∈ entries.reverse → other = value := by
      intro other ho
      have hsame := List.inj_on_of_nodup_map distinct (List.mem_reverse.1 ho) h rfl
      exact congrArg Prod.snd hsame
    exact lookup_eq_some_of_mem (List.mem_reverse.2 h) hunique

theorem size_foldl_insert {entries : List (κ × α)} (distinct : (entries.map (·.1)).Nodup) :
    (entries.foldl (fun table entry => table.insert entry.1 entry.2)
      (∅ : Std.HashMap κ α)).size = entries.length := by
  have hkeys : entries.Pairwise fun a b => (a.1 == b.1) = false := by
    simpa [List.Nodup, List.pairwise_map] using distinct
  rw [← Std.HashMap.ofList_equiv_foldl.size_eq, Std.HashMap.size_ofList hkeys]

end Lookup

/-- A text that is no name is the text of none. -/
theorem BinaryName.text_ne_of_ofString? {text : String} (h : ofString? text = none)
    (name : BinaryName) : name.text ≠ text := by
  rintro rfl
  simp at h

theorem UnqualifiedName.text_ne_of_ofString? {text : String} (h : ofString? text = none)
    (name : UnqualifiedName) : name.text ≠ text := by
  rintro rfl
  simp at h

namespace ClassTable

theorem get?_eq_some_iff {table : ClassTable} {name : String} {mapped : BinaryName} :
    table.get? name = some mapped ↔
      ∃ own : BinaryName, own.text = name ∧ table.names[own]? = some mapped := by
  constructor
  · intro h
    obtain ⟨own, ho, hg⟩ := Option.bind_eq_some_iff.1 h
    exact ⟨own, BinaryName.text_of_ofString? ho, hg⟩
  · rintro ⟨own, rfl, hg⟩
    simp [get?, hg]

@[simp] theorem get?_text (table : ClassTable) (name : BinaryName) :
    table.get? name.text = table.names[name]? := by
  simp [get?]

@[simp] theorem get?_empty (name : String) : empty.get? name = none := by
  cases h : BinaryName.ofString? name <;> simp [get?, empty, h]

theorem get?_insert (table : ClassTable) (name mapped : BinaryName) (other : String) :
    (table.insert name mapped).get? other =
      if name.text = other then some mapped else table.get? other := by
  cases h : BinaryName.ofString? other with
  | none => simp [get?, h, BinaryName.text_ne_of_ofString? h]
  | some own =>
    obtain rfl := BinaryName.text_of_ofString? h
    simp only [get?_text, insert, Std.HashMap.getElem?_insert, beq_iff_eq]
    by_cases hn : name = own
    · simp [hn]
    · rw [if_neg hn, if_neg fun ht => hn (by cases name; cases own; simp_all)]

theorem names_foldl_insert (entries : List (BinaryName × BinaryName)) (table : ClassTable) :
    (entries.foldl (fun table entry => table.insert entry.1 entry.2) table).names =
      entries.foldl (fun names entry => names.insert entry.1 entry.2) table.names := by
  induction entries generalizing table with
  | nil => rfl
  | cons entry entries ih => exact ih _

/-- The entries of a table are what it answers. -/
theorem mem_toList_iff {table : ClassTable} {name mapped : BinaryName} :
    (name, mapped) ∈ table.toList ↔ table.get? name.text = some mapped := by
  rw [toList, get?_text, Std.HashMap.mem_toList_iff_getElem?_eq_some]

end ClassTable

namespace MappingSet

@[simp] theorem class?_empty (name : String) : empty.class? name = none :=
  ClassTable.get?_empty name

theorem class?_insertClass (set : MappingSet) (name mapped : BinaryName) (other : String) :
    (set.insertClass name mapped).class? other =
      if name.text = other then some mapped else set.class? other :=
  set.classes.get?_insert name mapped other

/-- The field mapping with exactly this descriptor, if it has one. -/
def exactField? (set : MappingSet) (owner name : String) (descriptor : Option String) :
    Option UnqualifiedName := do
  let owner ← BinaryName.ofString? owner
  let name ← UnqualifiedName.ofString? name
  set.fields[FieldKey.mk owner name descriptor]?

theorem field?_eq (set : MappingSet) (owner name descriptor : String) :
    set.field? owner name descriptor = (set.exactField? owner name (some descriptor)).or
      (set.exactField? owner name none) := by
  unfold field? exactField?
  cases BinaryName.ofString? owner with
  | none => rfl
  | some owner => cases UnqualifiedName.ofString? name <;> rfl

@[simp] theorem exactField?_empty (owner name : String) (descriptor : Option String) :
    empty.exactField? owner name descriptor = none := by
  unfold exactField?
  cases BinaryName.ofString? owner with
  | none => rfl
  | some owner => cases UnqualifiedName.ofString? name <;> simp [empty]

@[simp] theorem method?_empty (owner name descriptor : String) :
    empty.method? owner name descriptor = none := by
  unfold method?
  cases BinaryName.ofString? owner with
  | none => rfl
  | some owner => cases UnqualifiedName.ofString? name <;> simp [empty]

theorem exactField?_insertField (set : MappingSet) (key : FieldKey) (mapped : UnqualifiedName)
    (owner name : String) (descriptor : Option String) :
    (set.insertField key mapped).exactField? owner name descriptor =
      if (key.owner.text, key.name.text, key.descriptor) = (owner, name, descriptor) then
        some mapped
      else set.exactField? owner name descriptor := by
  obtain ⟨own, field, type⟩ := key
  unfold exactField?
  cases ho : BinaryName.ofString? owner with
  | none => simp [BinaryName.text_ne_of_ofString? ho]
  | some owner' =>
    obtain rfl := BinaryName.text_of_ofString? ho
    cases hn : UnqualifiedName.ofString? name with
    | none => simp [UnqualifiedName.text_ne_of_ofString? hn]
    | some name' =>
      obtain rfl := UnqualifiedName.text_of_ofString? hn
      simp [insertField, Std.HashMap.getElem?_insert, BinaryName.text_injective.eq_iff,
        UnqualifiedName.text_injective.eq_iff]

theorem method?_insertMethod (set : MappingSet) (key : MethodKey) (mapped : UnqualifiedName)
    (owner name descriptor : String) :
    (set.insertMethod key mapped).method? owner name descriptor =
      if (key.owner.text, key.name.text, key.descriptor) = (owner, name, descriptor) then
        some mapped
      else set.method? owner name descriptor := by
  obtain ⟨own, method, type⟩ := key
  unfold method?
  cases ho : BinaryName.ofString? owner with
  | none => simp [BinaryName.text_ne_of_ofString? ho]
  | some owner' =>
    obtain rfl := BinaryName.text_of_ofString? ho
    cases hn : UnqualifiedName.ofString? name with
    | none => simp [UnqualifiedName.text_ne_of_ofString? hn]
    | some name' =>
      obtain rfl := UnqualifiedName.text_of_ofString? hn
      simp [insertMethod, Std.HashMap.getElem?_insert, BinaryName.text_injective.eq_iff,
        UnqualifiedName.text_injective.eq_iff]

end MappingSet

end JarRename
