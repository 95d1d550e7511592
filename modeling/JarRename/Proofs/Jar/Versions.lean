import Mathlib
import JarRename.Jar.Archive
import JarRename.Proofs.Hierarchy.Index
import JarRename.Proofs.Renaming.Class

/-!
# Versions of a class

An archive may hold a class several times: once as such, and again in folders for later versions of
the platform. The index knows the one that comes first. That is the class itself where archives are
laid out as is usual, with the later versions behind it, and a later version where they are not.
-/
namespace JarRename

open Fallible ClassSummary

namespace Jar

/-- Whether a path leads into the folder of later versions. -/
def IsVersioned (path : String) : Prop := Entry.versionsFolder <+: path.toList

instance (path : String) : Decidable (IsVersioned path) :=
  inferInstanceAs (Decidable (_ <+: _))

/-- The part of a path up to a later version, which is empty for a path that has none. -/
inductive VersionPrefix (path : String) : List Char → Prop
  | later {version rest : List Char} (path_eq : path.toList =
      Entry.versionsFolder ++ version ++ '/' :: rest) (one_folder : '/' ∉ version) :
      VersionPrefix path (Entry.versionsFolder ++ version ++ ['/'])
  | none (path_ne : ∀ version rest, path.toList ≠ Entry.versionsFolder ++ version ++ '/' :: rest) :
      VersionPrefix path []

theorem versionPrefix_versionFolder (path : String) :
    VersionPrefix path (Entry.versionFolder path) := by
  unfold Entry.versionFolder
  split
  · rename_i version rest h
    obtain ⟨inner, hdrop, hcut⟩ := Option.bind_eq_some_iff.1 h
    obtain ⟨rfl, hslash⟩ := Text.eq_append_of_cut? hcut
    have hpath : path.toList = Entry.versionsFolder ++ version ++ '/' :: rest := by
      rw [Text.eq_append_of_dropPrefix? hdrop, List.append_assoc]
    exact .later hpath hslash
  · rename_i h
    refine .none fun version rest heq => ?_
    rw [heq, List.append_assoc, Text.dropPrefix?_append] at h
    exact Text.not_mem_of_cut? h (by simp)

theorem VersionPrefix.eq_versionFolder {path : String} {front : List Char}
    (h : VersionPrefix path front) : front = Entry.versionFolder path := by
  unfold Entry.versionFolder
  cases h with
  | @later version rest path_eq one_folder =>
    have hcut : (Text.dropPrefix? Entry.versionsFolder path.toList).bind (Text.cut? '/') =
        some (version, rest) := by
      rw [path_eq, List.append_assoc, Text.dropPrefix?_append]
      exact Text.cut?_append one_folder rest
    rw [hcut]
  | none path_ne =>
    split
    · rename_i version rest h
      obtain ⟨inner, hdrop, hcut⟩ := Option.bind_eq_some_iff.1 h
      obtain ⟨rfl, -⟩ := Text.eq_append_of_cut? hcut
      rw [Text.dropPrefix?_eq_some_iff, ← List.append_assoc] at hdrop
      exact absurd hdrop (path_ne version rest)
    · rfl

theorem VersionPrefix.unique {path : String} {front other : List Char}
    (h : VersionPrefix path front) (ho : VersionPrefix path other) : front = other :=
  h.eq_versionFolder.trans ho.eq_versionFolder.symm

end Jar

namespace ClassIndex

open Jar Renaming

/-- Between `before` and `after` stands the one entry that holds the class `name` itself; others
hold later versions of it. -/
structure IsBase (before : List (String × Bytes)) (entry : String × Bytes)
    (after : List (String × Bytes)) (name : BinaryName) : Prop where
  defines : Defines entry name
  outside : ¬IsVersioned entry.1
  others : ∀ other ∈ before ++ after, Defines other name → IsVersioned other.1

variable {before after : List (String × Bytes)} {entry : String × Bytes} {index : ClassIndex}
  {name : BinaryName}

/-- What the index says of a class is what the entry says: its supertypes and the members that it
declares. -/
def Holds (index : ClassIndex) (name : BinaryName) (entry : String × Bytes) : Prop :=
  ∃ file summary, ClassFile.parse entry.2 = .ok file ∧ index.get? name = some summary ∧
    file.superName = .ok (summary.superClass.map (·.text)) ∧
    file.interfaceNames = .ok (summary.interfaces.map (·.text)) ∧
    ∀ kind key, summary.declares kind key = true ↔
      ∃ member ∈ declared file kind, Spells file.pool member key

theorem Holds.superName_eq {other : String × Bytes} (h : Holds index name entry)
    (ho : Holds index name other) :
    ClassFile.superName <$> ClassFile.parse entry.2 =
      ClassFile.superName <$> ClassFile.parse other.2 := by
  obtain ⟨file, summary, hp, hg, hs, -⟩ := h
  obtain ⟨file', summary', hp', hg', hs', -⟩ := ho
  rw [hg, Option.some.injEq] at hg'
  subst hg'
  rw [hp, hp']
  exact congrArg Except.ok (hs.trans hs'.symm)

/-- Of the entries that hold a class the first one is indexed. -/
theorem holds_first (h : build (before ++ entry :: after) = .ok index) (hd : Defines entry name)
    (hfirst : ∀ other ∈ before, ¬Defines other name) : Holds index name entry := by
  obtain ⟨summary, hs, hname⟩ := hd
  obtain ⟨file, hp, hsum⟩ := ofBytes_ok_iff.1 hs
  have hnone : ∀ other ∈ before, ∀ found, ofBytes other.2 = .ok found → found.name ≠ name :=
    fun other ho found hf hn => hfirst other ho ⟨found, hf, hn⟩
  have hget : index.get? name = some summary :=
    (get?_build_iff h).2 ⟨before, entry, after, rfl, hs, hname, hnone⟩
  exact ⟨file, summary, hp, hget, hsum.superName, hsum.interfaceNames, hsum.declares_iff⟩

section Order

/-- The class `A`, a subclass of `B`. -/
def baseEntry : String × Bytes :=
  ("A.class", [0xCA, 0xFE, 0xBA, 0xBE, 0, 0, 0, 52, 0, 5, 1, 0, 1, 65, 7, 0, 1, 1, 0, 1, 66, 7, 0, 3,
    0, 0x21, 0, 2, 0, 4, 0, 0, 0, 0, 0, 0, 0, 0])

/-- A later version of the class `A`, which has no superclass. -/
def laterEntry : String × Bytes :=
  ("META-INF/versions/9/A.class", [0xCA, 0xFE, 0xBA, 0xBE, 0, 0, 0, 52, 0, 3, 1, 0, 1, 65, 7, 0, 1,
    0, 0x21, 0, 2, 0, 0, 0, 0, 0, 0, 0, 0, 0, 0])

theorem defines_baseEntry : Defines baseEntry sampleName := by
  have h : (·.name) <$> ofBytes baseEntry.2 = .ok sampleName := by decide +kernel
  exact map_ok_iff.1 h

theorem defines_laterEntry : Defines laterEntry sampleName := by
  have h : (·.name) <$> ofBytes laterEntry.2 = .ok sampleName := by decide +kernel
  exact map_ok_iff.1 h

theorem isVersioned_laterEntry : IsVersioned laterEntry.1 := by decide

theorem isBase_front : IsBase [] baseEntry [laterEntry] sampleName where
  defines := defines_baseEntry
  outside := by decide
  others other ho _ := List.mem_singleton.1 ho ▸ isVersioned_laterEntry

theorem isBase_back : IsBase [laterEntry] baseEntry [] sampleName where
  defines := defines_baseEntry
  outside := by decide
  others other ho _ := List.mem_singleton.1 ho ▸ isVersioned_laterEntry

theorem exists_build_front : ∃ index, build [baseEntry, laterEntry] = .ok index :=
  exists_build_of_defines (by simpa using ⟨⟨_, defines_baseEntry⟩, ⟨_, defines_laterEntry⟩⟩)

theorem exists_build_back : ∃ index, build [laterEntry, baseEntry] = .ok index :=
  exists_build_of_defines (by simpa using ⟨⟨_, defines_laterEntry⟩, ⟨_, defines_baseEntry⟩⟩)

end Order

end ClassIndex

end JarRename
