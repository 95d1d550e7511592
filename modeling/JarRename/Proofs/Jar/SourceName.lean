import Mathlib
import JarRename.Jar.SourceName
import JarRename.Proofs.Mapping.NestedClasses

/-!
# Class names with points that are renamed

A class that is written with points is looked up with slashes, and gets a new name with points if
the mappings change it. If they bring in no white space, the new name is as free of it as the old
one.
-/
namespace JarRename

open Text

namespace Text

/-- A class that is written with points, as classes are named in mappings. -/
def slashed (name : List Char) : String := String.ofList (exchange '.' '/' name)

end Text

namespace MappingSet

/-- No class gets a name with white space in it. -/
def NoBlanks (set : MappingSet) : Prop :=
  ∀ name mapped, set.class? name = some mapped → ∀ c ∈ mapped.text.toList, isBlank c = false

/-- No class gets a name with this character in it. -/
def Avoids (set : MappingSet) (c : Char) : Prop :=
  ∀ name mapped, set.class? name = some mapped → c ∉ mapped.text.toList

/-- The new name of a class that is written with points. -/
def newSourceName (set : MappingSet) (name : List Char) : List Char :=
  exchange '/' '.' (set.mapClass (slashed name)).toList

variable {set : MappingSet} {name : List Char}

theorem mapSourceName?_eq (set : MappingSet) (name : List Char) :
    set.mapSourceName? name =
      if set.mapClass (slashed name) = slashed name then none
      else some (set.newSourceName name) := by
  simp [mapSourceName?, mapClass, slashed, newSourceName, String.ofList_inj]

theorem mapClass_slashed_nil (set : MappingSet) : set.mapClass (slashed []) = slashed [] :=
  congrArg String.ofList set.classes.mapName_nil

theorem newSourceName_eq (set : MappingSet) (name : List Char) :
    set.newSourceName name = exchange '/' '.' (set.classes.mapName (exchange '.' '/' name)) := by
  simp [newSourceName, mapClass, slashed]

theorem newSourceName_ne_nil (h : name ≠ []) : set.newSourceName name ≠ [] := by
  rw [newSourceName_eq, exchange, ne_eq, List.map_eq_nil_iff]
  exact ClassTable.mapName_ne_nil (by simpa [exchange] using h)

/-- A new name is made of the old one and of mapped names, but for its points. -/
theorem mem_of_mem_newSourceName {c : Char} (h : c ∈ set.newSourceName name) (hp : c ≠ '.')
    (hs : c ≠ '/') :
    c ∈ name ∨ ∃ own mapped, set.class? own = some mapped ∧ c ∈ mapped.text.toList := by
  rw [newSourceName_eq] at h
  obtain hold | hnew := ClassTable.mem_mapName (mem_of_mem_exchange h hp)
  · exact .inl (mem_of_mem_exchange hold hs)
  · exact .inr hnew

theorem Avoids.notMem_newSourceName {c : Char} (avoids : set.Avoids c) (hp : c ≠ '.')
    (hs : c ≠ '/') (h : c ∉ name) : c ∉ set.newSourceName name := by
  intro hc
  obtain hold | ⟨own, mapped, ho, hnew⟩ := mem_of_mem_newSourceName hc hp hs
  · exact h hold
  · exact avoids own mapped ho hnew

theorem NoBlanks.avoids (plain : set.NoBlanks) {c : Char} (hc : isBlank c = true) :
    set.Avoids c := by
  intro name mapped hm hmem
  rw [plain name mapped hm c hmem] at hc
  cases hc

/-- A class that is renamed gets its first characters from an entry. -/
theorem NoBlanks.head_mapName (plain : set.NoBlanks) (hne : set.classes.mapName name ≠ name)
    {c : Char} (hc : (set.classes.mapName name).head? = some c) : isBlank c = false := by
  induction name using set.classes.mapName_induct with
  | entry name mapped ho hmap =>
    rw [hmap] at hc
    exact plain _ mapped ho c (List.mem_of_head? hc)
  | alone name _ _ hmap => exact absurd hmap hne
  | nested outer part _ _ hmap ih =>
    rw [hmap] at hc hne
    have houter : set.classes.mapName outer ≠ outer := fun heq => hne (by rw [heq])
    cases hm : set.classes.mapName outer with
    | nil =>
      obtain rfl : '$' = c := by simpa [hm] using hc
      decide
    | cons d rest =>
      obtain rfl : d = c := by simpa [hm] using hc
      exact ih houter (by rw [hm]; rfl)

/-- It gets its last character from there too, or keeps it. -/
theorem NoBlanks.getLast_mapName (plain : set.NoBlanks)
    (last : ∀ c, name.getLast? = some c → isBlank c = false) {c : Char}
    (hc : (set.classes.mapName name).getLast? = some c) : isBlank c = false := by
  induction name using set.classes.mapName_induct with
  | entry name mapped ho hmap =>
    rw [hmap] at hc
    exact plain _ mapped ho c (List.mem_of_getLast? hc)
  | alone name _ _ hmap => exact last c (hmap ▸ hc)
  | nested outer part _ _ hmap _ =>
    rw [hmap, List.getLast?_append] at hc
    refine last c ?_
    rw [List.getLast?_append]
    simpa using hc

/-- A class name with points that is renamed neither begins nor ends with a blank, if the old one
did not, and holds no new ones. -/
theorem NoBlanks.mapSourceName? (plain : set.NoBlanks) {mapped : List Char}
    (h : set.mapSourceName? name = some mapped)
    (last : ∀ c, name.getLast? = some c → isBlank c = false) :
    (∀ c, mapped.head? = some c → isBlank c = false) ∧
      (∀ c, mapped.getLast? = some c → isBlank c = false) ∧
      ∀ c ∈ mapped, isBlank c = true → c ∈ name := by
  obtain ⟨hne, rfl⟩ : set.classes.mapName (exchange '.' '/' name) ≠ exchange '.' '/' name ∧
      exchange '/' '.' (set.classes.mapName (exchange '.' '/' name)) = mapped := by
    simpa [MappingSet.mapSourceName?] using h
  have hlast : ∀ c, (exchange '.' '/' name).getLast? = some c → isBlank c = false :=
    getLast?_exchange (by decide) last
  refine ⟨head?_exchange (by decide) fun c hc => plain.head_mapName hne hc,
    getLast?_exchange (by decide) fun c hc => plain.getLast_mapName hlast hc,
    fun c hc hblank => ?_⟩
  rw [← newSourceName_eq] at hc
  obtain hold | ⟨own, mapped, ho, hnew⟩ := mem_of_mem_newSourceName hc
    (by rintro rfl; cases hblank) (by rintro rfl; cases hblank)
  · exact hold
  · rw [plain own mapped ho c hnew] at hblank
    cases hblank

theorem text_of_class?_packageSet {name : String} {mapped : BinaryName}
    (h : packageSet.class? name = some mapped) : mapped.text = "core" := by
  rw [class?_packageSet] at h
  split_ifs at h
  cases h
  rfl

theorem noBlanks_packageSet : packageSet.NoBlanks := by
  intro name mapped h c hc
  rw [text_of_class?_packageSet h] at hc
  have hall : ("core".toList.all fun c => !isBlank c) = true := by decide
  simpa using List.all_eq_true.1 hall c hc

theorem avoids_packageSet : packageSet.Avoids '#' := by
  intro name mapped h
  rw [text_of_class?_packageSet h]
  decide

end MappingSet

end JarRename
