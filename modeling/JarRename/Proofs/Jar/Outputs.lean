import Mathlib
import JarRename.Proofs.Jar.Refusals
import JarRename.Proofs.Jar.SourceName
import JarRename.Proofs.Jar.Versions
import JarRename.Proofs.Linking
import JarRename.Proofs.Renaming.WellFormed

/-!
# What is written for an archive

An archive is written entry by entry in its order. No entry is lost but the files of a signature
that is stripped, none is added, and the counts are those of the entries. A folder is written
without data, even if the archive has some for it.
-/
namespace JarRename.Jar

open Fallible Renaming

theorem Entry.kind_eq_folder_iff {entry : Entry} :
    entry.kind = .folder ↔ entry.isFolder = true := by
  unfold Entry.kind
  split_ifs <;> simp_all

theorem Entry.isFolder_eq_false {entry : Entry} (h : entry.kind ≠ .folder) :
    entry.isFolder = false :=
  Bool.eq_false_iff.2 fun hf => h (Entry.kind_eq_folder_iff.2 hf)

/-- Whether an entry is left out. -/
def IsDropped (settings : Settings) (entry : Entry) : Prop :=
  entry.kind = .signature ∧ settings.signaturePolicy = .strip

instance (settings : Settings) (entry : Entry) : Decidable (IsDropped settings entry) :=
  inferInstanceAs (Decidable (_ ∧ _))

/-- The entries for which something is written. -/
def keptOf (settings : Settings) (entries : List Entry) : List Entry :=
  entries.filter (¬IsDropped settings ·)

/-- Whether an entry is a class that is written under another path. -/
def Moved (entry output : Entry) : Prop := entry.kind = .classFile ∧ output.path ≠ entry.path

instance (entry output : Entry) : Decidable (Moved entry output) :=
  inferInstanceAs (Decidable (_ ∧ _))

/-- What is written for an entry. -/
structure Written (r : Remapper) (settings : Settings) (entry output : Entry) : Prop where
  /-- The path of a class tells its version and the name that stands in its bytes. -/
  ofClass : entry.kind = .classFile → ∃ name file front,
    r.renameBytes entry.data = .ok (name, output.data) ∧
    ClassFile.parse output.data = .ok file ∧ file.name = .ok name ∧
    VersionPrefix entry.path front ∧
    output.path.toList = front ++ name.toList ++ ".class".toList
  ofManifest : entry.kind = .manifest → output.path = entry.path ∧
    output.data = onText (renameManifest r.mappings settings.signaturePolicy) entry.data
  ofService : entry.kind = .service →
    output.path = (Services.renamePath? r.mappings entry.path).getD entry.path ∧
    output.data = onText (Services.renameProviders r.mappings) entry.data
  /-- A folder holds nothing afterwards, whatever it held. -/
  ofFolder : entry.kind = .folder → output.path = entry.path ∧ output.data = []
  copied : entry.kind = .signature ∨ entry.kind = .other →
    output.path = entry.path ∧ output.data = entry.data
  isFolder : output.isFolder = entry.isFolder
  mode : output.mode = entry.mode
  compression : output.compression =
    if entry.kind = .folder then .stored else settings.compression

variable {r : Remapper} {set : MappingSet} {settings : Settings} {entries : List Entry}

theorem Renamed.rename_of_renameBytes {entry : Entry} {name : String} {data : Bytes}
    (hk : entry.kind = .classFile) (h : r.renameBytes entry.data = .ok (name, data)) :
    Renamed.rename r entry = .ok ⟨entry, Entry.classPath entry.path name, data⟩ := by
  rw [Renamed.rename, if_pos hk]
  exact Renamed.renameClass_ok_iff.2 ⟨name, data, h, rfl⟩

theorem Renamed.rename_of_ne {entry : Entry} (hk : entry.kind ≠ .classFile) :
    Renamed.rename r entry = .ok (.ofEntry entry) :=
  if_neg hk

theorem Renamed.rename_class {entry : Entry} {renamed : Renamed} (hk : entry.kind = .classFile)
    (h : Renamed.rename r entry = .ok renamed) :
    ∃ name data, r.renameBytes entry.data = .ok (name, data) ∧
      renamed = ⟨entry, Entry.classPath entry.path name, data⟩ := by
  rw [Renamed.rename, if_pos hk] at h
  exact Renamed.renameClass_ok_iff.1 h

theorem Renamed.rename_other {entry : Entry} {renamed : Renamed} (hk : entry.kind ≠ .classFile)
    (h : Renamed.rename r entry = .ok renamed) : renamed = .ofEntry entry := by
  exact Except.ok.inj (h.symm.trans (Renamed.rename_of_ne hk))

theorem Renamed.source_rename {entry : Entry} {renamed : Renamed}
    (h : Renamed.rename r entry = .ok renamed) : renamed.source = entry := by
  by_cases hk : entry.kind = .classFile
  · obtain ⟨name, data, -, rfl⟩ := Renamed.rename_class hk h
    rfl
  · rw [Renamed.rename_other hk h]
    rfl

theorem output?_eq_none_iff (set : MappingSet) {renamed : Renamed} :
    output? set settings renamed = none ↔ IsDropped settings renamed.source := by
  unfold output? IsDropped
  cases hk : renamed.source.kind <;> cases hp : settings.signaturePolicy <;> simp [hk]

/-- A class is written under the name that it has after renaming. -/
theorem written_of_class {entry : Entry} {renamed : Renamed} (hk : entry.kind = .classFile)
    (h : Renamed.rename r entry = .ok renamed) :
    output? r.mappings settings renamed =
        some (.file renamed.path renamed.data entry.mode settings.compression) ∧
      Written r settings entry
        (.file renamed.path renamed.data entry.mode settings.compression) := by
  obtain ⟨name, data, hr, rfl⟩ := Renamed.rename_class hk h
  obtain ⟨file, hp, hn⟩ := parse_of_renameBytes hr
  refine ⟨by simp [output?, hk], ?_⟩
  have hfront := versionPrefix_versionFolder entry.path
  have hpath : (Entry.classPath entry.path name).toList =
      Entry.versionFolder entry.path ++ name.toList ++ ".class".toList := by
    simp [Entry.classPath]
  have hfile : entry.isFolder = false := Entry.isFolder_eq_false (by simp [hk])
  constructor
  case ofClass => exact fun _ => ⟨name, file, _, hr, hp, hn, hfront, hpath⟩
  all_goals simp [hk, Entry.file, hfile]

theorem written_of_other {entry output : Entry} (hk : entry.kind ≠ .classFile)
    (ho : output? r.mappings settings (.ofEntry entry) = some output) :
    Written r settings entry output ∧ ¬Moved entry output := by
  refine ⟨?_, fun hm => hk hm.1⟩
  have hfile : entry.kind ≠ .folder → entry.isFolder = false := Entry.isFolder_eq_false
  cases hkind : entry.kind <;> simp only [output?, Renamed.ofEntry, hkind, Option.some.injEq] at ho
  case classFile => exact absurd hkind hk
  case folder =>
    subst ho
    constructor <;> simp [hkind, Entry.emptied]
  case signature =>
    split at ho
    · cases ho
    · cases ho
      constructor <;> simp_all [Entry.file]
  all_goals
    subst ho
    constructor <;> simp_all [Entry.file]

/-- What becomes of one entry: it is left out, or something is written for it. -/
theorem output?_rename (settings : Settings) {entry : Entry} {renamed : Renamed}
    (h : Renamed.rename r entry = .ok renamed) :
    (IsDropped settings entry ∧ output? r.mappings settings renamed = none) ∨
      ¬IsDropped settings entry ∧ ∃ output, output? r.mappings settings renamed = some output ∧
        Written r settings entry output ∧
        (Moved entry output ↔ entry.kind = .classFile ∧ renamed.path ≠ entry.path) := by
  have hs := Renamed.source_rename h
  cases ho : output? r.mappings settings renamed with
  | none => exact .inl ⟨hs ▸ (output?_eq_none_iff r.mappings).1 ho, rfl⟩
  | some output =>
    have hkept : ¬IsDropped settings entry := by
      rw [← hs, ← output?_eq_none_iff r.mappings, ho]
      simp
    refine .inr ⟨hkept, output, rfl, ?_⟩
    by_cases hk : entry.kind = .classFile
    · obtain ⟨hout, hwritten⟩ := written_of_class hk h
      rw [hout, Option.some.injEq] at ho
      subst ho
      exact ⟨hwritten, by simp [Moved, Entry.file]⟩
    · rw [Renamed.rename_other hk h] at ho
      obtain ⟨hwritten, hm⟩ := written_of_other hk ho
      exact ⟨hwritten, by simp [hm, hk]⟩

/-- The entries of an archive as they are renamed one by one. -/
def RenamedAll (r : Remapper) (entries : List Entry) (renamed : List Renamed) : Prop :=
  List.Forall₂ (fun entry new => Renamed.rename r entry = .ok new) entries renamed

variable {order : ClassOrder} {renamed : List Renamed}

/-- One output follows the other in the order of the entries. -/
theorem written_of_renamed (h : RenamedAll r entries renamed) :
    List.Forall₂ (Written r settings) (keptOf settings entries)
      (renamed.filterMap (output? r.mappings settings)) := by
  induction h with
  | nil => exact .nil
  | @cons entry new entries renamed hr _ ih =>
    rcases output?_rename settings hr with ⟨hd, ho⟩ | ⟨hd, output, ho, hw, -⟩
    · rw [List.filterMap_cons_none ho, keptOf, List.filter_cons_of_neg (by simpa using hd)]
      exact ih
    · rw [List.filterMap_cons_some ho, keptOf, List.filter_cons_of_pos (by simpa using hd)]
      exact .cons hw ih

/-- The counts of entries and of what is written for those that are not left out. -/
def countsOf (settings : Settings) (entries outputs : List Entry) : Summary where
  entries := entries.length
  classes := entries.countP (·.kind = .classFile)
  moved := ((keptOf settings entries).zip outputs).countP fun (entry, output) => Moved entry output
  dropped := entries.countP (IsDropped settings ·)

/-- The counts of one entry. -/
def countOf (settings : Settings) (entry : Entry) (moved : Prop) [Decidable moved] : Summary where
  entries := 1
  classes := if entry.kind = .classFile then 1 else 0
  moved := if moved then 1 else 0
  dropped := if IsDropped settings entry then 1 else 0

def Summary.plus (a b : Summary) : Summary :=
  ⟨a.entries + b.entries, a.classes + b.classes, a.moved + b.moved, a.dropped + b.dropped⟩

theorem Summary.plus_assoc (a b c : Summary) : (a.plus b).plus c = a.plus (b.plus c) := by
  simp [Summary.plus, Nat.add_assoc]

theorem Summary.zero_plus (a : Summary) : Summary.plus ⟨0, 0, 0, 0⟩ a = a := by
  simp [Summary.plus]

theorem countsOf_cons_dropped {entry : Entry} (hd : IsDropped settings entry)
    (entries outputs : List Entry) :
    countsOf settings (entry :: entries) outputs =
      (countOf settings entry False).plus (countsOf settings entries outputs) := by
  simp [countsOf, countOf, Summary.plus, keptOf, hd, List.countP_cons, Nat.add_comm]

theorem countsOf_cons_kept {entry : Entry} (hd : ¬IsDropped settings entry) (output : Entry)
    (entries outputs : List Entry) :
    countsOf settings (entry :: entries) (output :: outputs) =
      (countOf settings entry (Moved entry output)).plus (countsOf settings entries outputs) := by
  simp [countsOf, countOf, Summary.plus, keptOf, hd, List.countP_cons, Nat.add_comm]

theorem tally_renamed (settings : Settings) (h : RenamedAll r entries renamed) (start : Summary) :
    tally r.mappings settings start renamed = start.plus
      (countsOf settings entries (renamed.filterMap (output? r.mappings settings))) := by
  induction h generalizing start with
  | nil => rfl
  | @cons entry new entries renamed hr _ ih =>
    -- What one entry adds to the counts does not depend on the counts before it.
    have hs := Renamed.source_rename hr
    change tally r.mappings settings (start.add new (output? r.mappings settings new)) renamed = _
    rw [ih]
    rcases output?_rename settings hr with ⟨hd, ho⟩ | ⟨hd, output, ho, -, hm⟩
    · have hcount : start.add new none = start.plus (countOf settings entry False) := by
        simp [Summary.add, Summary.plus, countOf, hs, hd, hd.1]
      rw [List.filterMap_cons_none ho, ho, hcount, countsOf_cons_dropped hd, Summary.plus_assoc]
    · have hcount : start.add new (some output) =
          start.plus (countOf settings entry (Moved entry output)) := by
        simp [Summary.add, Summary.plus, countOf, hs, hd, hm]
      rw [List.filterMap_cons_some ho, ho, hcount, countsOf_cons_kept hd, Summary.plus_assoc]

/-- How the result comes about. -/
theorem renamedAll_of_renameArchive {summary : Summary} {outputs : List Entry}
    (h : renameArchive set settings entries order = .ok (summary, outputs)) :
    ∃ index renamed, indexOf order entries = .ok index ∧ RenamedAll ⟨index, set⟩ entries renamed ∧
      summary = tally set settings ⟨0, 0, 0, 0⟩ renamed ∧
      outputs = renamed.filterMap (output? set settings) := by
  obtain ⟨index, hi, h⟩ := bind_ok_iff.1 (renameInOrder_of_renameArchive h)
  obtain ⟨renamed, hr, h⟩ := bind_ok_iff.1 h
  cases h
  exact ⟨index, renamed, hi, mapM_ok_iff.1 (mapError_ok_iff.1 hr), rfl, rfl⟩

/-- An archive of which every entry can be renamed is renamed. -/
theorem renameArchive_of_renamedAll {index : ClassIndex} (hd : Divisible settings entries)
    (hi : indexOf order entries = .ok index) (h : RenamedAll ⟨index, set⟩ entries renamed) :
    renameArchive set settings entries order =
      .ok (tally set settings ⟨0, 0, 0, 0⟩ renamed,
        renamed.filterMap (output? set settings)) := by
  rw [renameArchive_eq hd]
  exact bind_ok_iff.2 ⟨index, hi, bind_ok_iff.2 ⟨renamed, mapError_ok_iff.2 (mapM_ok_iff.2 h), rfl⟩⟩

/-- A renamed archive has one entry for each entry of the archive, in the same order; only the files
of a signature that is stripped are left out. -/
theorem entries_written {order : ClassOrder} {summary : Summary} {outputs : List Entry}
    (h : renameArchive set settings entries order = .ok (summary, outputs)) :
    ∃ index, indexOf order entries = .ok index ∧
      List.Forall₂ (Written ⟨index, set⟩ settings) (keptOf settings entries) outputs ∧
      summary = countsOf settings entries outputs := by
  obtain ⟨index, renamed, hi, hall, rfl, rfl⟩ := renamedAll_of_renameArchive h
  have htally := tally_renamed settings hall ⟨0, 0, 0, 0⟩
  rw [Summary.zero_plus] at htally
  exact ⟨index, hi, written_of_renamed hall, htally⟩

/-- A folder that the archive has data for. -/
def filledFolder : Entry := ⟨"a/", true, [1], 0o755, .stored, by decide⟩

theorem kind_filledFolder : filledFolder.kind = .folder := Entry.kind_eq_folder_iff.2 rfl

theorem renameArchive_filledFolder (set : MappingSet) :
    renameArchive set (.forProcessors 1) [filledFolder] =
      .ok (⟨1, 0, 0, 0⟩, [filledFolder.emptied]) := by
  have hclasses : classesOf [filledFolder] = [] := by decide
  obtain ⟨index, hi⟩ := @exists_indexOf [filledFolder] .ofTable [] (by rw [hclasses]; rfl) (by simp)
  have hrename : Renamed.rename ⟨index, set⟩ filledFolder = .ok (.ofEntry filledFolder) :=
    Renamed.rename_of_ne (by simp [kind_filledFolder])
  rw [renameArchive_of_renamedAll (divisible_of_le (by decide)) hi (.cons hrename .nil)]
  simp [tally, Summary.add, output?, Renamed.ofEntry, kind_filledFolder]

/-- The data of a folder is lost. -/
theorem folder_data_lost : ∃ summary output,
    renameArchive .empty (.forProcessors 1) [filledFolder] = .ok (summary, [output]) ∧
    filledFolder.kind = .folder ∧ filledFolder.data = [1] ∧ output.data = [] :=
  ⟨_, _, renameArchive_filledFolder _, kind_filledFolder, rfl, rfl⟩

section Sample

open ClassFile ClassIndex Manifest

theorem indexOf_sample {entry : Entry} (order : ClassOrder) (hc : classesOf entries = [entry])
    (hd : entry.data = sampleBytes) : ∃ index, indexOf order entries = .ok index := by
  obtain ⟨summary, hsum, -, hsuper⟩ := summarizes_sample
  have hsummary : summaryOf (entry.path, entry.data) = .ok summary :=
    summaryOf_ok_iff.2 (ClassSummary.ofBytes_ok_iff.2 ⟨_, hd ▸ parse_sample, hsum⟩)
  refine @exists_indexOf _ order [summary] ?_ (by simp [hsuper])
  rw [hc, mapM_ok_iff]
  exact .cons hsummary .nil

theorem renameBytes_sample (index : ClassIndex) :
    ∃ data, (sampleRemapper index).renameBytes sampleBytes = .ok ("B", data) := by
  obtain ⟨renamed, hr⟩ := renameClass_sampleRemapper index
  obtain ⟨data, -, hw, -⟩ := write_renamed parse_sample hr
  exact ⟨data, renameBytes_ok_iff.2 ⟨_, _, parse_sample, hr, hw⟩⟩

variable (index : ClassIndex)

theorem mapSourceName?_sample :
    (sampleRemapper index).mappings.mapSourceName? ['A'] = some ['B'] := by
  have hname : Text.slashed ['A'] = "A" := by decide
  have hmap : (sampleRemapper index).mappings.mapClass "A" = "B" := mapClass_sample index
  rw [MappingSet.mapSourceName?_eq, MappingSet.newSourceName, hname, hmap]
  decide

/-- A later version of the class `A`. -/
def laterClass : Entry := .create "META-INF/versions/9/A.class" sampleBytes none

/-- The line `Main-Class: A`, or that for another letter. -/
def mainClassLine (letter : UInt8) : Bytes :=
  [77, 97, 105, 110, 45, 67, 108, 97, 115, 115, 58, 32, letter, 10]

def sampleManifest : Entry := .create "META-INF/MANIFEST.MF" (mainClassLine 65) none

def signatureFile : Entry := .create "META-INF/X.SF" [1] none

/-- A service `A` that the class `A` provides. -/
def serviceFile : Entry := .create "META-INF/services/A" [65] none

def readme : Entry := .create "readme" [2] none

/-- An archive with an entry of every kind. -/
def mixedArchive : List Entry :=
  [filledFolder, laterClass, sampleManifest, signatureFile, serviceFile, readme]

theorem kinds_mixed : filledFolder.kind = .folder ∧ laterClass.kind = .classFile ∧
    sampleManifest.kind = .manifest ∧ signatureFile.kind = .signature ∧
    serviceFile.kind = .service ∧ readme.kind = .other := by decide +kernel

theorem exists_indexOf_mixed : ∃ index, indexOf .ofTable mixedArchive = .ok index :=
  indexOf_sample .ofTable (show classesOf mixedArchive = [laterClass] by decide +kernel) rfl

/-- The entries of this archive as they are written if its class gets a name and new bytes. -/
def mixedRenamed (name : String) (data : Bytes) : List Renamed :=
  [.ofEntry filledFolder, ⟨laterClass, Entry.classPath laterClass.path name, data⟩,
    .ofEntry sampleManifest, .ofEntry signatureFile, .ofEntry serviceFile, .ofEntry readme]

theorem renameArchive_mixed {index : ClassIndex} {name : String} {data : Bytes}
    (hd : Divisible settings mixedArchive) (hi : indexOf .ofTable mixedArchive = .ok index)
    (h : Remapper.renameBytes ⟨index, set⟩ sampleBytes = .ok (name, data)) :
    renameArchive set settings mixedArchive =
      .ok (tally set settings ⟨0, 0, 0, 0⟩ (mixedRenamed name data),
        (mixedRenamed name data).filterMap (output? set settings)) := by
  obtain ⟨hfolder, hlater, hmanifest, hsignature, hservice, hother⟩ := kinds_mixed
  have hcopied {entry : Entry} (hk : entry.kind ≠ .classFile) :
      Renamed.rename ⟨index, set⟩ entry = .ok (.ofEntry entry) := Renamed.rename_of_ne hk
  refine renameArchive_of_renamedAll hd hi (.cons (hcopied ?_)
    (.cons (Renamed.rename_of_renameBytes hlater h) (.cons (hcopied ?_) (.cons (hcopied ?_)
      (.cons (hcopied ?_) (.cons (hcopied ?_) .nil))))))
  all_goals simp [hfolder, hmanifest, hsignature, hservice, hother]

theorem classPath_laterClass :
    Entry.classPath laterClass.path "B" = "META-INF/versions/9/B.class" := by decide +kernel

theorem renameManifest_sample :
    onText (renameManifest (sampleRemapper index).mappings .strip) sampleManifest.data =
      mainClassLine 66 ++ [10] := by
  have hd : Text.decodeUtf8? sampleManifest.data = some "Main-Class: A\n" := by decide +kernel
  have hs : sectionsOf "Main-Class: A\n".toList = [[⟨"Main-Class: A".toList, []⟩]] := by
    decide +kernel
  have hvalue : Header.value ⟨"Main-Class: A".toList, []⟩ = ['A'] := by decide +kernel
  have hsection : renameInSection? (sampleRemapper index).mappings
      [⟨"Main-Class: A".toList, []⟩] = some [mainClassHeader ['B']] := by
    rw [renameInSection?, if_pos (by decide), hvalue, mapSourceName?_sample]
    rfl
  simp only [onText, hd, renameManifest, renameMainClass, hs, hsection]
  decide +kernel

theorem renameProviders_sample :
    onText (Services.renameProviders (sampleRemapper index).mappings) serviceFile.data = [66] := by
  have hd : Text.decodeUtf8? serviceFile.data = some "A" := by decide +kernel
  have hs : Text.splitOn '\n' "A".toList = [['A']] := by decide +kernel
  have htrim : Text.trim (List.takeWhile (· != '#') ['A']) = ['A'] := by decide +kernel
  simp only [onText, hd, Services.renameProviders, hs, List.map_cons, List.map_nil,
    Services.renameLine, htrim, mapSourceName?_sample]
  decide +kernel

theorem renamePath?_sample :
    Services.renamePath? (sampleRemapper index).mappings serviceFile.path =
      some "META-INF/services/B" := by
  have hd : Text.dropPrefix? Services.folder serviceFile.path.toList = some ['A'] := by
    decide +kernel
  simp only [Services.renamePath?, hd, Option.bind_eq_bind, Option.bind_some,
    mapSourceName?_sample]
  decide +kernel

/-- The class `A` gets the name `B`, also in the manifest and as a service, and the signature is
left out. -/
theorem output?_mixed (data : Bytes) :
    (mixedRenamed "B" data).map (output? (sampleRemapper index).mappings (.forProcessors 1)) =
    [some filledFolder.emptied,
      some (.file "META-INF/versions/9/B.class" data 0o644 .deflated),
      some (.file "META-INF/MANIFEST.MF" (mainClassLine 66 ++ [10]) 0o644 .deflated),
      none, some (.file "META-INF/services/B" [66] 0o644 .deflated),
      some (.file "readme" [2] 0o644 .deflated)] := by
  obtain ⟨hfolder, hlater, hmanifest, hsignature, hservice, hother⟩ := kinds_mixed
  have hpolicy : (Settings.forProcessors 1).signaturePolicy = .strip := rfl
  simp only [mixedRenamed, List.map_cons, List.map_nil, output?, Renamed.ofEntry, hfolder, hlater,
    hmanifest, hsignature, hservice, hother, hpolicy, renameManifest_sample, renameProviders_sample,
    renamePath?_sample, classPath_laterClass, Option.getD_some]
  rfl

theorem entries_written_mixed : ∃ index outputs,
    renameArchive (sampleRemapper .empty).mappings (.forProcessors 1) mixedArchive =
      .ok (⟨6, 1, 1, 1⟩, outputs) ∧
    indexOf .ofTable mixedArchive = .ok index ∧
    List.Forall₂ (Written ⟨index, (sampleRemapper .empty).mappings⟩ (.forProcessors 1))
      [filledFolder, laterClass, sampleManifest, serviceFile, readme] outputs ∧
    outputs.map (·.path) = ["a/", "META-INF/versions/9/B.class", "META-INF/MANIFEST.MF",
      "META-INF/services/B", "readme"] ∧
    ∃ data, (sampleRemapper index).renameBytes laterClass.data = .ok ("B", data) ∧
      outputs.map (·.data) = [[], data, mainClassLine 66 ++ [10], [66], [2]] := by
  obtain ⟨index, hi⟩ := exists_indexOf_mixed
  obtain ⟨data, hbytes⟩ := renameBytes_sample index
  have h := @renameArchive_mixed (sampleRemapper .empty).mappings (.forProcessors 1) index "B" data
    (divisible_of_le (by decide)) hi hbytes
  have houtputs := congrArg (List.filterMap id) (output?_mixed .empty data)
  rw [List.filterMap_map, Function.id_comp] at houtputs
  rw [houtputs] at h
  obtain ⟨found, hfound, hwritten, hcounts⟩ := entries_written h
  obtain rfl := Except.ok.inj (hi.symm.trans hfound)
  have hkept : keptOf (.forProcessors 1) mixedArchive =
      [filledFolder, laterClass, sampleManifest, serviceFile, readme] := by decide +kernel
  rw [hkept] at hwritten
  rw [hcounts] at h
  exact ⟨index, _, h, hi, hwritten, rfl, data, hbytes, rfl⟩

end Sample

end JarRename.Jar
