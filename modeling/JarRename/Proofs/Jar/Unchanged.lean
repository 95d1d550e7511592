import Mathlib
import JarRename.Proofs.Jar.Outputs
import JarRename.Proofs.Renaming.Identity
import JarRename.Proofs.Text.Cut

/-!
# Archives that nothing is renamed in

Without mappings every entry that is no folder keeps its bytes, and every entry that is no class
its path. The path of a class is always put together from its name, so it is kept where the class
lies in place. A folder holds nothing afterwards.
-/
namespace JarRename

open Fallible Renaming

namespace Text

theorem toList_loop (bytes : ByteArray) (i : Nat) (seen : List UInt8) :
    ByteArray.toList.loop bytes i seen = seen.reverse ++ bytes.data.toList.drop i := by
  fun_induction ByteArray.toList.loop bytes i seen with
  | case1 i seen hlt ih =>
    have hsize : i < bytes.data.size := hlt
    have hnext : bytes.data.toList.drop i = bytes.get! i :: bytes.data.toList.drop (i + 1) := by
      rw [List.drop_eq_getElem_cons (by simpa using hsize), Array.getElem_toList hsize]
      exact congrArg (· :: _) (getElem!_pos bytes.data i hsize).symm
    rw [ih, hnext, List.reverse_cons, List.append_assoc, List.singleton_append]
  | case2 i seen hge =>
    have hend : bytes.data.toList.length ≤ i := by simpa using hge
    rw [List.drop_of_length_le hend, List.append_nil]

/-- What is decoded is encoded as it was. -/
theorem encodeUtf8_of_decodeUtf8? {bytes : Bytes} {text : String}
    (h : decodeUtf8? bytes = some text) : encodeUtf8 text = bytes := by
  unfold decodeUtf8? String.fromUTF8? at h
  split at h
  · cases h
    show ByteArray.toList.loop ⟨bytes.toArray⟩ 0 [] = bytes
    rw [toList_loop]
    simp
  · cases h

end Text

namespace Jar

section Identity

variable {set : MappingSet} (h : set.IsIdentity)
include h

theorem mapSourceName?_eq_none (name : List Char) : set.mapSourceName? name = none := by
  rw [MappingSet.mapSourceName?, MappingSet.mapName_eq_self h]
  exact if_pos rfl

theorem renameInSection?_eq_none (headers : Section) :
    Manifest.renameInSection? set headers = none := by
  induction headers with
  | nil => rfl
  | cons header headers ih =>
    rw [Manifest.renameInSection?, mapSourceName?_eq_none h, ih]
    exact ite_self _

theorem renameManifest_eq_self (text : List Char) : renameManifest set .keep text = text := by
  show Manifest.renameMainClass set text = text
  unfold Manifest.renameMainClass
  split
  · rfl
  · rw [renameInSection?_eq_none h]

theorem renamePath?_eq_none (path : String) : Services.renamePath? set path = none := by
  unfold Services.renamePath?
  cases Text.dropPrefix? Services.folder path.toList with
  | none => rfl
  | some interface =>
    simp [mapSourceName?_eq_none h]

theorem renameProviders_eq_self (text : List Char) : Services.renameProviders set text = text := by
  have hline : Services.renameLine set = id := by
    funext line
    rw [Services.renameLine, mapSourceName?_eq_none h]
    rfl
  rw [Services.renameProviders, hline, List.map_id, Text.intercalate_splitOn]

end Identity

theorem onText_eq_self {change : List Char → List Char} (h : ∀ text, change text = text)
    (data : Bytes) : onText change data = data := by
  unfold onText
  split
  · rename_i text hd
    rw [h, String.ofList_toList, Text.encodeUtf8_of_decodeUtf8? hd]
  · rfl

theorem renameBytes_of_isIdentity {r : Remapper} (h : r.mappings.IsIdentity)
    {bytes written : Bytes} {name : String} (hr : r.renameBytes bytes = .ok (name, written)) :
    written = bytes := by
  obtain ⟨file, renamed, hp, hc, hw⟩ := renameBytes_ok_iff.1 hr
  rw [renameClass_identity h hc, ClassFile.write_of_parse hp] at hw
  exact (Except.ok.inj hw).symm

/-- Where a class is written that keeps its name: the version stays in front of the name. -/
def PlacedAt (entry : Entry) (path : String) : Prop :=
  ∃ file name front, ClassFile.parse entry.data = .ok file ∧ file.name = .ok name ∧
    VersionPrefix entry.path front ∧ path.toList = front ++ name.toList ++ ".class".toList

theorem PlacedAt.unique {entry : Entry} {path other : String} (h : PlacedAt entry path)
    (ho : PlacedAt entry other) : path = other := by
  obtain ⟨file, name, front, hp, hn, hf, hpath⟩ := h
  obtain ⟨file', name', front', hp', hn', hf', hpath'⟩ := ho
  rw [hp, Except.ok.injEq] at hp'
  subst hp'
  rw [hn, Except.ok.injEq] at hn'
  subst hn'
  rw [hf.unique hf', ← hpath'] at hpath
  exact String.ext hpath

/-- What is written for an entry in which nothing is renamed. -/
structure Unrenamed (entry output : Entry) : Prop where
  ofFolder : entry.kind = .folder → output.data = []
  data : entry.kind ≠ .folder → output.data = entry.data
  ofClass : entry.kind = .classFile → PlacedAt entry output.path
  ofOther : entry.kind ≠ .classFile → output.path = entry.path

theorem Unrenamed.path_eq_iff {entry output : Entry} (h : Unrenamed entry output) :
    output.path = entry.path ↔ (entry.kind = .classFile → PlacedAt entry entry.path) := by
  constructor
  · intro hpath hk
    exact hpath ▸ h.ofClass hk
  · intro hplaced
    by_cases hk : entry.kind = .classFile
    · exact (h.ofClass hk).unique (hplaced hk)
    · exact h.ofOther hk

variable {r : Remapper} {settings : Settings} {entries outputs : List Entry}

theorem unrenamed_of_written {entry output : Entry} (h : r.mappings.IsIdentity)
    (hk : settings.signaturePolicy = .keep) (hw : Written r settings entry output) :
    Unrenamed entry output := by
  cases hkind : entry.kind
  case folder =>
    obtain ⟨hpath, hdata⟩ := hw.ofFolder hkind
    constructor <;> simp [hkind, hpath, hdata]
  case classFile =>
    obtain ⟨name, file, front, hr, hp, hn, hfront, hpath⟩ := hw.ofClass hkind
    have hdata := renameBytes_of_isIdentity h hr
    have hplaced : PlacedAt entry output.path := ⟨file, name, front, hdata ▸ hp, hn, hfront, hpath⟩
    constructor <;> simp [hkind, hdata, hplaced]
  case manifest =>
    obtain ⟨hpath, hdata⟩ := hw.ofManifest hkind
    rw [hk, onText_eq_self (renameManifest_eq_self h)] at hdata
    constructor <;> simp [hkind, hpath, hdata]
  case service =>
    obtain ⟨hpath, hdata⟩ := hw.ofService hkind
    rw [onText_eq_self (renameProviders_eq_self h)] at hdata
    rw [renamePath?_eq_none h] at hpath
    constructor <;> simp [hkind, hpath, hdata]
  all_goals
    obtain ⟨hpath, hdata⟩ := hw.copied (by simp [hkind])
    constructor <;> simp [hkind, hpath, hdata]

theorem keptOf_keep (hk : settings.signaturePolicy = .keep) (entries : List Entry) :
    keptOf settings entries = entries :=
  List.filter_eq_self.2 (by simp [IsDropped, hk])

theorem map_path_eq_iff (h : List.Forall₂ Unrenamed entries outputs) :
    outputs.map (·.path) = entries.map (·.path) ↔
      ∀ entry ∈ entries, entry.kind = .classFile → PlacedAt entry entry.path := by
  induction h with
  | nil => simp
  | cons hu _ ih => simp [hu.path_eq_iff, ih]

theorem map_data_eq (h : List.Forall₂ Unrenamed entries outputs) :
    outputs.map (·.data) =
      entries.map fun entry => if entry.kind = .folder then [] else entry.data := by
  induction h with
  | nil => rfl
  | @cons entry output _ _ hu _ ih =>
    have hdata : output.data = if entry.kind = .folder then [] else entry.data := by
      split_ifs with hk
      · exact hu.ofFolder hk
      · exact hu.data hk
    simp [hdata, ih]

/-- Without mappings all bytes stay as they are, but for those of folders, which are lost. So do all
paths but those of classes that do not lie where their names place them. -/
theorem empty_mappings_keep_entries {order : ClassOrder} {summary : Summary}
    (hk : settings.signaturePolicy = .keep)
    (h : renameArchive .empty settings entries order = .ok (summary, outputs)) :
    List.Forall₂ Unrenamed entries outputs ∧
    (outputs.map (·.data) =
      entries.map fun entry => if entry.kind = .folder then [] else entry.data) ∧
    (outputs.map (·.path) = entries.map (·.path) ↔
      ∀ entry ∈ entries, entry.kind = .classFile → PlacedAt entry entry.path) := by
  obtain ⟨index, renamed, -, hall, -, rfl⟩ := renamedAll_of_renameArchive h
  have hwritten : List.Forall₂ (Written ⟨index, .empty⟩ settings) (keptOf settings entries)
      (renamed.filterMap (output? .empty settings)) := written_of_renamed hall
  rw [keptOf_keep hk] at hwritten
  have hunrenamed := hwritten.imp fun _ _ hw =>
    unrenamed_of_written MappingSet.isIdentity_empty hk hw
  exact ⟨hunrenamed, map_data_eq hunrenamed, map_path_eq_iff hunrenamed⟩

section Sample

open ClassFile

def keepSettings : Settings := { Settings.forProcessors 1 with signaturePolicy := .keep }

theorem renameBytes_sample_empty (index : ClassIndex) :
    Remapper.renameBytes ⟨index, .empty⟩ sampleBytes = .ok ("A", sampleBytes) :=
  @renameBytes_sample_identity ⟨index, .empty⟩ MappingSet.isIdentity_empty MappingSet.brief_empty

theorem placedAt_laterClass : PlacedAt laterClass laterClass.path := by
  have hfront : VersionPrefix laterClass.path (Entry.versionsFolder ++ ['9'] ++ ['/']) :=
    .later (show _ = _ ++ '/' :: "A.class".toList by decide +kernel) (by decide)
  exact ⟨sample, "A", _, parse_sample, name_sample, hfront, by decide +kernel⟩

theorem empty_mappings_keep_entries_sample : ∃ summary outputs,
    renameArchive .empty keepSettings mixedArchive = .ok (summary, outputs) ∧
    List.Forall₂ Unrenamed mixedArchive outputs ∧
    filledFolder.data = [1] ∧
    outputs.map (·.data) = [[], laterClass.data, sampleManifest.data, signatureFile.data,
      serviceFile.data, readme.data] ∧
    outputs.map (·.path) = mixedArchive.map (·.path) := by
  obtain ⟨index, hi⟩ := exists_indexOf_mixed
  have h := @renameArchive_mixed .empty keepSettings index "A" sampleBytes
    (divisible_of_le (by decide)) hi (renameBytes_sample_empty index)
  obtain ⟨hall, hdata, hpath⟩ := empty_mappings_keep_entries rfl h
  obtain ⟨hfolder, hlater, hmanifest, hsignature, hservice, hother⟩ := kinds_mixed
  refine ⟨_, _, h, hall, rfl, hdata.trans ?_, hpath.2 ?_⟩
  · simp [mixedArchive, hfolder, hlater, hmanifest, hsignature, hservice, hother]
  · simp [mixedArchive, hfolder, hmanifest, hsignature, hservice, hother, placedAt_laterClass]

/-- A class `A` that does not lie where its name places it. -/
def strayClass : Entry := .create "lib/A.class" sampleBytes none

/-- A class that does not lie where its name places it is moved there. -/
theorem stray_class_moved : ∃ summary output,
    renameArchive .empty keepSettings [strayClass] = .ok (summary, [output]) ∧
    strayClass.path = "lib/A.class" ∧ output.path = "A.class" := by
  have hkind : strayClass.kind = .classFile := by decide +kernel
  have hclasses : classesOf [strayClass] = [strayClass] := by simp [classesOf, hkind]
  obtain ⟨index, hi⟩ := indexOf_sample .ofTable hclasses rfl
  have hrename := @Renamed.rename_of_renameBytes ⟨index, .empty⟩ strayClass _ _ hkind
    (renameBytes_sample_empty index)
  have hpath : Entry.classPath strayClass.path "A" = "A.class" := by decide +kernel
  rw [hpath] at hrename
  refine ⟨⟨1, 1, 1, 0⟩, .file "A.class" sampleBytes 0o644 .deflated, ?_, rfl, rfl⟩
  rw [renameArchive_of_renamedAll (divisible_of_le (by decide)) hi (.cons hrename .nil)]
  simp only [List.filterMap_cons, output?, List.filterMap_nil, hkind]
  rfl

end Sample

end Jar

end JarRename
