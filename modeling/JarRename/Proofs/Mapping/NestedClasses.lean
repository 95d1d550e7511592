import Mathlib
import JarRename.Proofs.Mapping.ClassNames
import JarRename.Proofs.Mapping.Entries

/-!
# Nested classes follow the class around them

The parts of a name are dropped from its end, `$part` by `$part`. Of the name and what is left of
it, the longest text that has an entry is the nearest class: its new name stands in front of what
was dropped. Where no text has an entry, the name stays.

A dollar sign counts wherever it stands, also in the name of a package, so a class that is nested in
no other one keeps its name only if there is no entry for what stands in front of such a sign, or if
the nearest of these entries gives a class its own name.
-/
namespace JarRename

open Text Name

/-- `left` is `name`, or what is left of it after dropping parts `$part` off its end, one after the
other. No part is empty, and every text that is left on the way satisfies `keeps`. -/
inductive LeftOf (keeps : List Char → Prop) (left : List Char) : List Char → Prop
  | self : LeftOf keeps left left
  | drop {front part : List Char} (rest : LeftOf keeps left front) (kept : keeps front)
      (filled : part ≠ []) (last : '$' ∉ part) : LeftOf keeps left (front ++ '$' :: part)

/-- A text with a slash at its end names no class. -/
def NamesClass (text : List Char) : Prop := text.getLast? ≠ some '/'

instance : DecidablePred NamesClass := fun text =>
  inferInstanceAs (Decidable (text.getLast? ≠ some '/'))

section LeftOf

variable {keeps : List Char → Prop} {left name front part : List Char}

theorem LeftOf.isPrefix (h : LeftOf keeps left name) : left <+: name := by
  induction h with
  | self => exact List.prefix_rfl
  | drop _ _ _ _ ih => exact ih.trans (List.prefix_append _ _)

/-- What was dropped begins with a dollar sign. -/
theorem LeftOf.eq_or_exists (h : LeftOf keeps left name) :
    left = name ∨ ∃ rest, name = left ++ '$' :: rest := by
  induction h with
  | self => exact .inl rfl
  | @drop front part _ _ _ _ ih =>
    obtain rfl | ⟨between, rfl⟩ := ih
    · exact .inr ⟨part, rfl⟩
    · exact .inr ⟨between ++ '$' :: part, by simp⟩

/-- The last part is dropped first. -/
theorem leftOf_append_iff (filled : part ≠ []) (last : '$' ∉ part) :
    LeftOf keeps left (front ++ '$' :: part) ↔
      left = front ++ '$' :: part ∨ keeps front ∧ LeftOf keeps left front := by
  constructor
  · intro h
    generalize hname : front ++ '$' :: part = name at h
    cases h with
    | self => exact .inl rfl
    | @drop other piece rest kept _ hlast =>
      have hcut := cutLast?_append last front
      rw [hname, cutLast?_append hlast, Option.some.injEq, Prod.mk.injEq] at hcut
      obtain ⟨rfl, -⟩ := hcut
      exact .inr ⟨kept, rest⟩
  · rintro (rfl | ⟨kept, rest⟩)
    · exact .self
    · exact .drop rest kept filled last

theorem LeftOf.trans {between : List Char} (h : LeftOf keeps left between)
    (h' : LeftOf keeps between name) : LeftOf keeps left name := by
  induction h' with
  | self => exact h
  | drop _ kept filled last ih => exact .drop ih kept filled last

/-- What stands in front of a dollar sign is left on the way to anything shorter. -/
theorem LeftOf.split {middle rest : List Char} (h : LeftOf keeps left (middle ++ '$' :: rest))
    (hp : left <+: middle) :
    LeftOf keeps left middle ∧ LeftOf keeps middle (middle ++ '$' :: rest) := by
  generalize hname : middle ++ '$' :: rest = name at h
  induction h generalizing rest with
  | self =>
    have hle := hp.length_le
    rw [← hname, List.length_append, List.length_cons] at hle
    omega
  | @drop front part hrest kept filled last ih =>
    obtain ⟨between, rfl, hrest'⟩ | ⟨between, rfl, hpart⟩ := List.append_eq_append_iff.1 hname
    · rcases between with _ | ⟨c, between⟩
      · simp only [List.append_nil] at hrest kept ⊢
        exact ⟨hrest, .drop .self kept filled last⟩
      · obtain ⟨rfl, -⟩ := List.cons.inj hrest'
        obtain ⟨hleft, hmiddle⟩ := ih rfl
        exact ⟨hleft, .drop hmiddle kept filled last⟩
    · rcases between with _ | ⟨c, between⟩
      · simp only [List.append_nil] at hp ⊢
        exact ⟨hrest, .drop .self kept filled last⟩
      · obtain ⟨-, rfl⟩ := List.cons.inj hpart
        simp at last

end LeftOf

namespace ClassTable

theorem enclosing?_eq_some_iff {name outer nested : List Char} :
    enclosing? name = some (outer, nested) ↔
      name = outer ++ '$' :: nested ∧ '$' ∉ nested ∧ outer ≠ [] ∧ nested ≠ [] ∧
        NamesClass outer := by
  unfold enclosing?
  constructor
  · intro h
    split at h
    · cases h
    · rename_i hcut
      split at h
      · cases h
      · cases h
        obtain ⟨hname, hlast⟩ := eq_append_of_cutLast? hcut
        simp_all [NamesClass]
  · rintro ⟨rfl, hlast, ho, hn, hc⟩
    rw [cutLast?_append hlast]
    simp_all [NamesClass]

variable {table : ClassTable} {name : List Char}

theorem namesClass (mapped : BinaryName) : NamesClass mapped.text.toList :=
  getLast?_ne_slash mapped.valid

theorem ne_nil (mapped : BinaryName) : mapped.text.toList ≠ [] :=
  (binaryError?_eq_none_iff.1 mapped.valid).1

/-- The new name of a class names a class, too. -/
theorem namesClass_mapName (hn : name ≠ []) (hc : NamesClass name) :
    table.mapName name ≠ [] ∧ NamesClass (table.mapName name) := by
  rw [mapName_eq]
  split
  · exact ⟨ne_nil _, namesClass _⟩
  · split
    · exact ⟨hn, hc⟩
    · rename_i outer nested he
      obtain ⟨rfl, -, -, hnested, -⟩ := enclosing?_eq_some_iff.1 he
      refine ⟨by simp, ?_⟩
      simpa [NamesClass, List.getLast?_append, List.getLast?_cons] using hc

/-- A class that no class is around is all that is left of its name. -/
theorem eq_of_leftOf {left : List Char} (he : enclosing? name = none)
    (h : LeftOf NamesClass left name) (hl : left ≠ []) : left = name := by
  cases h with
  | self => rfl
  | @drop front part rest kept filled last =>
    rcases eq_or_ne front [] with rfl | hf
    · exact absurd (List.prefix_nil.1 rest.isPrefix) hl
    · rw [enclosing?_eq_some_iff.2 ⟨rfl, last, hf, filled, kept⟩] at he
      cases he

/-- Of `name` and what is left of it, `near` is the longest one that has an entry, which gives it
the name `mapped`. -/
structure Nearest (keeps : List Char → Prop) (table : ClassTable) (name : List Char)
    (near mapped : BinaryName) : Prop where
  left : LeftOf keeps near.text.toList name
  entry : table.get? near.text = some mapped
  longest : ∀ other own : BinaryName, LeftOf keeps other.text.toList name →
    table.get? other.text = some own → other.text.toList.length ≤ near.text.toList.length

/-- No text that is left of `name` has an entry. -/
def Unmapped (table : ClassTable) (name : List Char) : Prop :=
  ∀ left : BinaryName, LeftOf NamesClass left.text.toList name → table.get? left.text = none

section Nearest

variable {near mapped : BinaryName}

/-- A class with an entry of its own is itself the nearest one. -/
theorem Nearest.text_eq {keeps : List Char → Prop} {own : BinaryName}
    (h : Nearest keeps table name near mapped) (ho : table.get? (String.ofList name) = some own) :
    near.text.toList = name := by
  obtain ⟨other, hother, -⟩ := get?_eq_some_iff.1 ho
  have hname : other.text.toList = name := by rw [hother, String.toList_ofList]
  have hle := h.longest other own (hname ▸ .self) (hother ▸ ho)
  exact h.left.isPrefix.eq_of_length_le (hname ▸ hle)

/-- Without an entry of its own, a nested class shares the nearest one with the class around it. -/
theorem Nearest.outer {outer nested : List Char} (h : Nearest NamesClass table name near mapped)
    (ho : table.get? (String.ofList name) = none) (he : enclosing? name = some (outer, nested)) :
    Nearest NamesClass table outer near mapped := by
  obtain ⟨rfl, hlast, -, hn, hc⟩ := enclosing?_eq_some_iff.1 he
  refine ⟨?_, h.entry, fun other own hl hg => h.longest other own (.drop hl hc hn hlast) hg⟩
  rcases (leftOf_append_iff hn hlast).1 h.left with hself | ⟨-, hleft⟩
  · have hentry := h.entry
    rw [← String.ofList_toList (s := near.text), hself, ho] at hentry
    cases hentry
  · exact hleft

theorem Nearest.own_entry (h : Nearest NamesClass table name near mapped)
    (he : enclosing? name = none) : table.get? (String.ofList name) = some mapped := by
  rw [← eq_of_leftOf he h.left (ne_nil near), String.ofList_toList]
  exact h.entry

/-- The new name of the nearest class stands in front of what follows its old name. -/
theorem Nearest.mapName_append {rest : List Char} (h : Nearest NamesClass table name near mapped)
    (hr : near.text.toList ++ rest = name) :
    table.mapName name = mapped.text.toList ++ rest := by
  induction name using table.mapName_induct generalizing rest with
  | entry name own ho hmap =>
    have hnear := h.text_eq ho
    have hentry := h.entry
    rw [← String.ofList_toList (s := near.text), hnear, ho, Option.some.injEq] at hentry
    obtain rfl : rest = [] := by simpa [hnear] using hr
    rw [hmap, hentry, List.append_nil]
  | alone name ho he _ =>
    rw [h.own_entry he] at ho
    cases ho
  | nested outer part ho he hmap ih =>
    have houter := h.outer ho he
    obtain ⟨between, hb⟩ := houter.left.isPrefix
    have hrest : rest = between ++ '$' :: part := by
      rw [← hb, List.append_assoc] at hr
      exact List.append_cancel_left hr
    rw [hmap, ih houter hb, hrest, List.append_assoc]

theorem Nearest.length_lt (h : Nearest NamesClass table name near mapped)
    (ho : table.get? (String.ofList name) = none) :
    mapped.text.toList.length < (table.mapName name).length := by
  obtain ⟨rest, hr⟩ := h.left.isPrefix
  have hrest : rest ≠ [] := by
    rintro rfl
    rw [← hr, List.append_nil, String.ofList_toList, h.entry] at ho
    cases ho
  have hpos := List.length_pos_of_ne_nil hrest
  rw [h.mapName_append hr, List.length_append]
  omega

/-- Where a text that is left has an entry, one of them is the longest. -/
theorem exists_nearest_or_unmapped (table : ClassTable) (name : List Char) :
    (∃ near mapped, Nearest NamesClass table name near mapped) ∨ Unmapped table name := by
  induction name using table.mapName_induct with
  | entry name mapped ho _ =>
    obtain ⟨near, hnear, -⟩ := get?_eq_some_iff.1 ho
    have hname : near.text.toList = name := by rw [hnear, String.toList_ofList]
    refine .inl ⟨near, mapped, hname ▸ .self, hnear ▸ ho, fun other own hl _ => ?_⟩
    rw [hname]
    exact hl.isPrefix.length_le
  | alone name ho he _ =>
    refine .inr fun left hl => ?_
    rw [← eq_of_leftOf he hl (ne_nil left), String.ofList_toList] at ho
    exact ho
  | nested outer part ho he _ ih =>
    obtain ⟨-, hlast, -, hn, hc⟩ := enclosing?_eq_some_iff.1 he
    have hleft {left : BinaryName} {own : BinaryName} (hg : table.get? left.text = some own)
        (hl : LeftOf NamesClass left.text.toList (outer ++ '$' :: part)) :
        LeftOf NamesClass left.text.toList outer := by
      obtain hself | ⟨-, hl⟩ := (leftOf_append_iff hn hlast).1 hl
      · rw [← hself, String.ofList_toList, hg] at ho
        cases ho
      · exact hl
    obtain ⟨near, mapped, hnear⟩ | hnone := ih
    · refine .inl ⟨near, mapped, .drop hnear.left hc hn hlast, hnear.entry, ?_⟩
      intro other own hl hg
      exact hnear.longest other own (hleft hg hl) hg
    · refine .inr fun left hl => ?_
      by_contra hsome
      obtain ⟨own, hg⟩ := Option.ne_none_iff_exists'.1 hsome
      exact hsome (hnone left (hleft hg hl))

/-- A name of which nothing that is left has an entry stays. -/
theorem Unmapped.mapName_eq_self (h : Unmapped table name) : table.mapName name = name := by
  induction name using table.mapName_induct with
  | entry name mapped ho _ =>
    obtain ⟨own, hown, -⟩ := get?_eq_some_iff.1 ho
    have hleft : LeftOf NamesClass own.text.toList name := by
      rw [hown, String.toList_ofList]
      exact .self
    rw [← hown, h own hleft] at ho
    cases ho
  | alone name _ _ hmap => exact hmap
  | nested outer part _ he hmap ih =>
    obtain ⟨-, hlast, -, hn, hc⟩ := enclosing?_eq_some_iff.1 he
    rw [hmap, ih fun left hl => h left (.drop hl hc hn hlast)]

/-- A name stays exactly if the nearest class with an entry keeps its own, or if there is none. -/
theorem mapName_eq_self_iff :
    table.mapName name = name ↔
      ∀ near mapped, Nearest NamesClass table name near mapped → mapped = near := by
  constructor
  · intro h near mapped hnear
    obtain ⟨rest, hr⟩ := hnear.left.isPrefix
    rw [hnear.mapName_append hr, ← hr] at h
    exact BinaryName.text_injective (String.toList_inj.1 (List.append_cancel_right h))
  · intro h
    obtain ⟨near, mapped, hnear⟩ | hnone := exists_nearest_or_unmapped table name
    · obtain ⟨rest, hr⟩ := hnear.left.isPrefix
      rw [hnear.mapName_append hr, h near mapped hnear, hr]
    · exact hnone.mapName_eq_self

end Nearest

end ClassTable

namespace BinaryName

/-- Behind its package, the name of the class has no dollar sign. -/
def IsTopLevel (name : BinaryName) : Prop := '$' ∉ name.text.toList.rtakeWhile (· != '/')

instance : DecidablePred IsTopLevel := fun name =>
  inferInstanceAs (Decidable ('$' ∉ name.text.toList.rtakeWhile (· != '/')))

/-- A dollar sign in such a name stands in the package. -/
theorem IsTopLevel.slash_mem {name : BinaryName} {front rest : List Char} (h : name.IsTopLevel)
    (hn : name.text.toList = front ++ '$' :: rest) : '/' ∈ rest := by
  by_contra hs
  refine h ?_
  have hpart : ∀ c ∈ rest.reverse, (c != '/') = true := by
    intro c hc
    simpa using fun he : c = '/' => hs (he ▸ List.mem_reverse.1 hc)
  rw [hn, List.rtakeWhile, List.reverse_append, List.reverse_cons, List.append_assoc,
    List.takeWhile_append_of_pos hpart]
  simp

end BinaryName

namespace MappingSet

variable {set : MappingSet} {name : BinaryName}

theorem mapClass_of_class? {name : String} {mapped : BinaryName}
    (h : set.class? name = some mapped) : set.mapClass name = mapped.text := by
  have hentry : set.classes.get? (String.ofList name.toList) = some mapped := by
    rw [String.ofList_toList]
    exact h
  rw [mapClass, ClassTable.mapName_eq, hentry]
  exact String.ofList_toList

theorem mapClass_append {outer part : String} (own : set.class? (outer ++ "$" ++ part) = none)
    (filled : part ≠ "") (last : '$' ∉ part.toList) (ho : outer ≠ "")
    (hc : NamesClass outer.toList) :
    set.mapClass (outer ++ "$" ++ part) = set.mapClass outer ++ "$" ++ part := by
  have hcut : ClassTable.enclosing? (outer ++ "$" ++ part).toList =
      some (outer.toList, part.toList) :=
    ClassTable.enclosing?_eq_some_iff.2 ⟨by simp, last, by simpa, by simpa, hc⟩
  have hentry : set.classes.get? (String.ofList (outer ++ "$" ++ part).toList) = none := by
    rw [String.ofList_toList]
    exact own
  rw [mapClass, ClassTable.mapName_eq, hentry, hcut]
  simp [mapClass, String.append_assoc]

/-- Nested classes follow the nearest class around them that has an entry. A class with an entry
gets the name that it gives; the name of a nested class without one is put together from the new
name of the class around it and its own part; where nothing that is left of a name has an entry, the
name stays; and what comes out is the name of a class. -/
theorem mapClass_nested (set : MappingSet) (name : BinaryName) :
    (∀ mapped, set.class? name.text = some mapped → set.mapClass name.text = mapped.text) ∧
    (∀ outer part : String, name.text = outer ++ "$" ++ part → set.class? name.text = none →
      part ≠ "" → '$' ∉ part.toList → outer ≠ "" → NamesClass outer.toList →
      set.mapClass name.text = set.mapClass outer ++ "$" ++ part) ∧
    ((∀ left : BinaryName, LeftOf NamesClass left.text.toList name.text.toList →
      set.class? left.text = none) → set.mapClass name.text = name.text) ∧
    ∃ mapped : BinaryName, mapped.text = set.mapClass name.text := by
  refine ⟨fun mapped ho => mapClass_of_class? ho,
    fun outer part hname own filled last ho hc => ?_, fun h => ?_,
    ⟨set.mapBinaryName name, mapBinaryName_text set name⟩⟩
  · rw [hname] at own ⊢
    exact mapClass_append own filled last ho hc
  · rw [mapClass, ClassTable.Unmapped.mapName_eq_self h, String.ofList_toList]

section Sample

/-- A class whose name is that of a package up to a dollar sign. -/
def packageSet : MappingSet :=
  empty.insertClass ⟨"lib", by decide +kernel⟩ ⟨"core", by decide +kernel⟩

theorem class?_packageSet (name : String) : packageSet.class? name =
    if "lib" = name then some ⟨"core", by decide +kernel⟩ else none := by
  simp only [packageSet, class?_insertClass, class?_empty]

theorem mapClass_nested_deep :
    packageSet.class? "lib$io$File" = none ∧ packageSet.class? "lib$io" = none ∧
      packageSet.mapClass "lib" = "core" ∧
      packageSet.mapClass "lib$io$File" = "core" ++ "$" ++ "io" ++ "$" ++ "File" := by
  have hfile : packageSet.class? "lib$io$File" = none := by simp [class?_packageSet]
  have hio : packageSet.class? "lib$io" = none := by simp [class?_packageSet]
  have hlib : packageSet.class? "lib" = some ⟨"core", by decide +kernel⟩ := by
    simp [class?_packageSet]
  obtain ⟨-, hdeep, -⟩ := mapClass_nested packageSet ⟨"lib$io$File", by decide +kernel⟩
  obtain ⟨-, hinner, -⟩ := mapClass_nested packageSet ⟨"lib$io", by decide +kernel⟩
  obtain ⟨hentry, -⟩ := mapClass_nested packageSet ⟨"lib", by decide +kernel⟩
  refine ⟨hfile, hio, hentry _ hlib, ?_⟩
  rw [hdeep "lib$io" "File" rfl hfile (by decide) (by decide) (by decide) (by decide +kernel),
    hinner "lib" "io" rfl hio (by decide) (by decide) (by decide) (by decide +kernel),
    hentry _ hlib]

end Sample

/-- A class that is nested in no other one keeps its name exactly if the nearest class in front of a
dollar sign in its package keeps its own, or if there is none. -/
theorem mapClass_topLevel_iff (own : set.class? name.text = none) (top : name.IsTopLevel) :
    (set.mapClass name.text = name.text ↔ ∀ near mapped,
      ClassTable.Nearest NamesClass set.classes name.text.toList near mapped → mapped = near) ∧
    ∀ near mapped, ClassTable.Nearest NamesClass set.classes name.text.toList near mapped →
      ∃ rest, name.text.toList = near.text.toList ++ '$' :: rest ∧ '/' ∈ rest := by
  refine ⟨?_, fun near mapped hnear => ?_⟩
  · rw [← ClassTable.mapName_eq_self_iff, mapClass, ← String.toList_inj, String.toList_ofList]
  · obtain hself | ⟨rest, hrest⟩ := hnear.left.eq_or_exists
    · have hentry := hnear.entry
      rw [BinaryName.text_injective.eq_iff.1 (String.toList_inj.1 hself)] at hentry
      cases own.symm.trans hentry
    · exact ⟨rest, hrest, top.slash_mem hrest⟩

section Sample

/-- The package of the class begins with the name of a class that has no entry. -/
theorem mapClass_topLevel_iff_sample :
    packageSet.class? "tool$io/File" = none ∧
      BinaryName.IsTopLevel ⟨"tool$io/File", by decide +kernel⟩ ∧
      packageSet.mapClass "tool$io/File" = "tool$io/File" := by
  have hown : packageSet.class? "tool$io/File" = none := by simp [class?_packageSet]
  have htop : BinaryName.IsTopLevel ⟨"tool$io/File", by decide +kernel⟩ := by decide +kernel
  refine ⟨hown, htop, (mapClass_topLevel_iff hown htop).1.2 fun near mapped hnear => ?_⟩
  have hentry : packageSet.class? near.text = some mapped := hnear.entry
  rw [class?_packageSet] at hentry
  split_ifs at hentry with hlib
  have hprefix := hnear.left.isPrefix
  rw [← hlib] at hprefix
  exact absurd hprefix (by decide)

/-- The class `File` is nested in no other one, and the class `lib` is in another package, but
`File` moves into another package with it. -/
theorem package_dollar_followed :
    packageSet.class? "lib$io/File" = none ∧ binaryError? "lib$io/File".toList = none ∧
      '$' ∉ "lib$io/File".toList.rtakeWhile (· != '/') ∧
      packageSet.mapClass "lib$io/File" = "core$io/File" := by
  have hown : packageSet.class? ("lib" ++ "$" ++ "io/File") = none := by simp [class?_packageSet]
  have hlib : packageSet.class? "lib" = some ⟨"core", by decide +kernel⟩ := by
    simp [class?_packageSet]
  have hmap : packageSet.mapClass ("lib" ++ "$" ++ "io/File") = "core" ++ "$" ++ "io/File" := by
    rw [mapClass_append hown (by decide) (by decide) (by decide) (by decide +kernel),
      mapClass_of_class? hlib]
  exact ⟨hown, by decide +kernel, by decide +kernel, hmap⟩

end Sample

end MappingSet

end JarRename
