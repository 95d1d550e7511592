import Mathlib
import JarRename.Mapping.Inverse
import JarRename.Proofs.Mapping.NestedClasses

/-!
# The inverse gives classes their old names back

A class takes its new name from the nearest class around it that has an entry. The inverse looks for
such a class around the new name, and finds the same one unless the new name of another class stands
nearer. Where none does, the old name comes back.
-/
namespace JarRename

open Text Name

namespace ClassTable

variable {table : ClassTable} {name : List Char}

/-- Among the new name of a class and what is left of it, there is no mapped name that is longer
than that of the nearest class with an entry, and none at all if there is no such class. -/
def Unshadowed (keeps : List Char → Prop) (table : ClassTable) (name : List Char) : Prop :=
  ∀ other own : BinaryName, table.get? other.text = some own →
    LeftOf keeps own.text.toList (table.mapName name) →
      ∃ near mapped, Nearest keeps table name near mapped ∧
        own.text.toList.length ≤ mapped.text.toList.length

section Opposite

variable {inv : ClassTable} (opposite : ∀ other own : BinaryName,
  inv.get? own.text = some other ↔ table.get? other.text = some own)
include opposite

/-- No class has the new name of a class without an entry of its own. -/
theorem Unshadowed.get?_mapName (clear : Unshadowed NamesClass table name)
    (ho : table.get? (String.ofList name) = none) :
    inv.get? (String.ofList (table.mapName name)) = none := by
  by_contra hsome
  obtain ⟨other, hi⟩ := Option.ne_none_iff_exists'.1 hsome
  obtain ⟨own, hown, -⟩ := get?_eq_some_iff.1 hi
  have htext : own.text.toList = table.mapName name := by rw [hown, String.toList_ofList]
  obtain ⟨near, mapped, hnear, hle⟩ := clear other own ((opposite other own).1 (hown ▸ hi))
    (htext ▸ .self)
  have hlt := hnear.length_lt ho
  rw [htext] at hle
  omega

/-- Two tables with opposite entries undo each other where no other mapped name stands nearer. -/
theorem mapName_mapName (clear : Unshadowed NamesClass table name) :
    inv.mapName (table.mapName name) = name := by
  induction name using table.mapName_induct with
  | entry name own ho hmap =>
    obtain ⟨other, hother, -⟩ := get?_eq_some_iff.1 ho
    have hinv : inv.get? own.text = some other := (opposite other own).2 (hother ▸ ho)
    rw [hmap, mapName_eq, String.ofList_toList, hinv]
    dsimp only
    rw [hother, String.toList_ofList]
  | alone name ho he hmap =>
    have hnone := clear.get?_mapName opposite ho
    rw [hmap] at hnone ⊢
    rw [mapName_eq, hnone, he]
  | nested outer part ho he hmap ih =>
    have hnone := clear.get?_mapName opposite ho
    obtain ⟨-, hlast, houter, hn, hc⟩ := enclosing?_eq_some_iff.1 he
    obtain ⟨hm, hmc⟩ : table.mapName outer ≠ [] ∧ NamesClass (table.mapName outer) :=
      namesClass_mapName houter hc
    -- What is left of the new name of the class around is left of the new name, too.
    have hclear : Unshadowed NamesClass table outer := by
      intro other own hg hl
      obtain ⟨near, mapped, hnear, hle⟩ := clear other own hg (hmap ▸ .drop hl hmc hn hlast)
      exact ⟨near, mapped, hnear.outer ho he, hle⟩
    rw [hmap] at hnone ⊢
    rw [mapName_eq, hnone, enclosing?_eq_some_iff.2 ⟨rfl, hlast, hm, hn, hmc⟩]
    dsimp only
    rw [ih hclear]

end Opposite

end ClassTable

namespace MappingSet

/-- Different classes with entries have different mapped names. -/
def DistinctNames (set : MappingSet) : Prop :=
  ∀ name other mapped : BinaryName, set.class? name.text = some mapped →
    set.class? other.text = some mapped → name = other

variable {set : MappingSet} {classes : List (BinaryName × BinaryName)}
  {fields : List (FieldKey × UnqualifiedName)} {methods : List (MethodKey × UnqualifiedName)}

theorem distinctNames_empty : empty.DistinctNames := by
  intro name other mapped hn
  simp at hn

/-- A class can be added under a name that no class is mapped to. -/
theorem DistinctNames.insertClass {name mapped : BinaryName} (h : set.DistinctNames)
    (new : ∀ other : BinaryName, set.class? other.text ≠ some mapped) :
    (set.insertClass name mapped).DistinctNames := by
  intro first second own hf hs
  rw [class?_insertClass] at hf hs
  split_ifs at hf hs with hn ho ho
  · exact BinaryName.text_injective (hn.symm.trans ho)
  · exact absurd (hs.trans hf.symm) (new second)
  · exact absurd (hf.trans hs.symm) (new first)
  · exact h first second own hf hs

/-- What no step changes is there at the end. -/
theorem view_foldl {α β : Type} (view : MappingSet → α) {step : MappingSet → β → MappingSet}
    (h : ∀ inv entry, view (step inv entry) = view inv) (entries : List β) (inv : MappingSet) :
    view (entries.foldl step inv) = view inv := by
  induction entries generalizing inv with
  | nil => rfl
  | cons entry entries ih => rw [List.foldl_cons, ih, h]

theorem classes_inverseOf (set : MappingSet) (classes : List (BinaryName × BinaryName))
    (fields : List (FieldKey × UnqualifiedName)) (methods : List (MethodKey × UnqualifiedName)) :
    (set.inverseOf classes fields methods).classes =
      (classes.map Prod.swap).foldl (fun table entry => table.insert entry.1 entry.2) .empty := by
  rw [inverseOf, view_foldl MappingSet.classes, view_foldl MappingSet.classes, List.foldl_map]
  · exact (List.foldl_hom MappingSet.classes fun _ _ => rfl).symm
  · exact fun _ _ => rfl
  · exact fun _ _ => rfl

/-- The classes of the inverse, in whatever order they are turned around. -/
theorem class?_inverseOf_iff (distinct : set.DistinctNames) (all : classes.Perm set.classes.toList)
    (name mapped : BinaryName) :
    (set.inverseOf classes fields methods).classes.get? mapped.text = some name ↔
      set.classes.get? name.text = some mapped := by
  have hmem {name mapped : BinaryName} : (mapped, name) ∈ (classes.map Prod.swap).reverse ↔
      set.classes.get? name.text = some mapped := by
    rw [List.mem_reverse, ← ClassTable.mem_toList_iff, ← all.mem_iff]
    exact List.mem_map_swap name mapped classes
  rw [ClassTable.get?_text, classes_inverseOf, ClassTable.names_foldl_insert, getElem?_foldl_insert]
  simp only [ClassTable.empty, Std.HashMap.getElem?_empty, Option.or_none]
  constructor
  · exact fun h => hmem.1 (mem_of_lookup h)
  · exact fun h => lookup_eq_some_of_mem (hmem.2 h) fun other ho =>
      distinct other name mapped (hmem.1 ho) h

/-- A class gets its old name back where the new name of no other class stands nearer. -/
theorem mapClass_inverseOf (distinct : set.DistinctNames)
    (all : classes.Perm set.classes.toList) {name : String}
    (clear : set.classes.Unshadowed NamesClass name.toList) :
    (set.inverseOf classes fields methods).mapClass (set.mapClass name) = name := by
  have hopposite (other own : BinaryName) :
      (set.inverseOf classes fields methods).classes.get? own.text = some other ↔
        set.classes.get? other.text = some own := class?_inverseOf_iff distinct all other own
  rw [mapClass, mapClass, String.toList_ofList, ClassTable.mapName_mapName hopposite clear,
    String.ofList_toList]

section Sample

/-- A nested class whose part of the name has no entry. -/
def nestedSet : MappingSet :=
  (empty.insertClass ⟨"a/B", by decide +kernel⟩ ⟨"x/Y$Z", by decide +kernel⟩).insertClass
    ⟨"a/B$C", by decide +kernel⟩ ⟨"k", by decide +kernel⟩

/-- The last entry gives a class a new name with a dollar sign at its beginning, in a package whose
name begins with that of a class. -/
def hiddenSet : MappingSet :=
  (empty.insertClass ⟨"q", by decide +kernel⟩ ⟨"longer/Name", by decide +kernel⟩).insertClass
    ⟨"w", by decide +kernel⟩ ⟨"q$x/$a", by decide +kernel⟩

theorem class?_nestedSet (name : String) : nestedSet.class? name =
    if "a/B$C" = name then some ⟨"k", by decide +kernel⟩
    else if "a/B" = name then some ⟨"x/Y$Z", by decide +kernel⟩ else none := by
  simp only [nestedSet, class?_insertClass, class?_empty]

theorem class?_hiddenSet (name : String) : hiddenSet.class? name =
    if "w" = name then some ⟨"q$x/$a", by decide +kernel⟩
    else if "q" = name then some ⟨"longer/Name", by decide +kernel⟩ else none := by
  simp only [hiddenSet, class?_insertClass, class?_empty]

theorem distinctNames_nestedSet : nestedSet.DistinctNames :=
  (distinctNames_empty.insertClass (by simp)).insertClass fun other => by
    rw [class?_insertClass]
    split <;> simp

theorem distinctNames_hiddenSet : hiddenSet.DistinctNames :=
  (distinctNames_empty.insertClass (by simp)).insertClass fun other => by
    rw [class?_insertClass]
    split <;> simp

/-- The nearest class around is `a/B`, and its new name holds a dollar sign. -/
theorem unshadowed_nestedSet :
    nestedSet.classes.Unshadowed NamesClass "a/B$D$E".toList := by
  have hleft : LeftOf NamesClass "a/B".toList (("a/B".toList ++ '$' :: ['D']) ++ '$' :: ['E']) :=
    .drop (.drop .self (by simp [NamesClass]) (by simp) (by simp)) (by simp [NamesClass]) (by simp)
      (by simp)
  have hentry : nestedSet.class? "a/B" = some ⟨"x/Y$Z", by decide +kernel⟩ := by
    simp [class?_nestedSet]
  intro other own ho hl
  refine ⟨⟨"a/B", by decide +kernel⟩, _, ⟨hleft, hentry, fun another name hleft ha => ?_⟩, ?_⟩
  · change nestedSet.class? _ = _ at ha
    rw [class?_nestedSet] at ha
    split_ifs at ha with hc hb
    · have hprefix := hleft.isPrefix
      rw [← hc] at hprefix
      exact absurd hprefix (by decide)
    · rw [← hb]
  · change nestedSet.class? _ = _ at ho
    rw [class?_nestedSet] at ho
    split_ifs at ho <;> cases ho <;> decide

theorem mapClass_inverseOf_nested :
    nestedSet.DistinctNames ∧ nestedSet.classes.Unshadowed NamesClass "a/B$D$E".toList ∧
      nestedSet.inverse.mapClass (nestedSet.mapClass "a/B$D$E") = "a/B$D$E" :=
  ⟨distinctNames_nestedSet, unshadowed_nestedSet,
    mapClass_inverseOf distinctNames_nestedSet (List.Perm.refl _) unshadowed_nestedSet⟩

/-- Without the slash that ends the dropping, `q` would be left of `q$x/$a`, and its long mapped
name would not let the other entry count. -/
theorem hidden_class_taken :
    hiddenSet.DistinctNames ∧ binaryError? "q$x/$a".toList = none ∧
      hiddenSet.classes.Unshadowed (fun _ => True) "q$x/$a".toList ∧
      hiddenSet.inverse.mapClass (hiddenSet.mapClass "q$x/$a") = "w" := by
  have hnone : hiddenSet.classes.get? (String.ofList "q$x/$a".toList) = none := by
    rw [String.ofList_toList]
    exact (class?_hiddenSet _).trans (by simp)
  have hself : hiddenSet.classes.mapName "q$x/$a".toList = "q$x/$a".toList := by
    rw [ClassTable.mapName_eq, hnone]
    decide +kernel
  have hentry : hiddenSet.classes.get? "w" = some ⟨"q$x/$a", by decide +kernel⟩ :=
    (class?_hiddenSet _).trans (by simp)
  have hback : hiddenSet.inverse.classes.get? "q$x/$a" = some ⟨"w", by decide +kernel⟩ :=
    (class?_inverseOf_iff distinctNames_hiddenSet (List.Perm.refl _) ⟨"w", by decide +kernel⟩
      ⟨"q$x/$a", by decide +kernel⟩).2 hentry
  have hleft : LeftOf (fun _ => True) "q".toList
      (("q".toList ++ '$' :: ['x', '/']) ++ '$' :: ['a']) :=
    .drop (.drop .self trivial (by simp) (by simp)) trivial (by simp) (by simp)
  refine ⟨distinctNames_hiddenSet, by decide +kernel, ?_, ?_⟩
  · intro other own ho hl
    refine ⟨⟨"q", by decide +kernel⟩, ⟨"longer/Name", by decide +kernel⟩,
      ⟨hleft, (class?_hiddenSet _).trans (by simp), fun another name hleft ha => ?_⟩, ?_⟩
    · change hiddenSet.class? _ = _ at ha
      rw [class?_hiddenSet] at ha
      split_ifs at ha with hw hq
      · have hprefix := hleft.isPrefix
        rw [← hw] at hprefix
        exact absurd hprefix (by decide)
      · rw [← hq]
    · change hiddenSet.class? _ = _ at ho
      rw [class?_hiddenSet] at ho
      split_ifs at ho <;> cases ho <;> decide
  · rw [MappingSet.mapClass, MappingSet.mapClass, hself, String.toList_ofList,
      ClassTable.mapName_eq, String.ofList_toList, hback, String.ofList_toList]

end Sample

end MappingSet

end JarRename
