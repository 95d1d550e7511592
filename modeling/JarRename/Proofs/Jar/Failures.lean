import Mathlib
import JarRename.Jar.Storage
import JarRename.Proofs.Fallible
import JarRename.Proofs.Jar.Temporary

/-!
# Failures leave no trace

Whatever storage refuses, and whatever is wrong with an archive: renaming writes to a temporary file
only, which is removed when anything fails. The index is made before the first entry is written.
-/
namespace JarRename.Jar

open Fallible

section Writing

variable {σ : Type} {kept : σ → Prop} {emit : σ → Entry → Except JarError Unit × σ}
  (step : ∀ written entry, kept written → kept (emit written entry).2)
include step

/-- What writing an entry preserves is preserved by writing all of them. -/
theorem writeAll_preserves (set : MappingSet) (settings : Settings) (entries : List Renamed)
    (summary : Summary) {written : σ} (h : kept written) :
    kept (writeAll set settings emit summary written entries).2 := by
  induction entries generalizing summary written with
  | nil => exact h
  | cons renamed entries ih =>
    rw [writeAll]
    split
    · exact ih _ h
    · rename_i entry _
      have hnext := step written entry h
      split <;> rename_i left heq <;> rw [heq] at hnext
      · exact hnext
      · exact ih _ hnext

theorem writeBatches_preserves {r : Remapper} {settings : Settings} (batches : List Reads)
    (summary : Summary) {written : σ} (h : kept written) :
    kept (writeBatches r settings emit summary written batches).2 := by
  induction batches generalizing summary written with
  | nil => exact h
  | cons batch batches ih =>
    rw [writeBatches]
    split
    · exact h
    · rename_i renamed _
      have hnext := writeAll_preserves step r.mappings settings renamed summary h
      split <;> rename_i left heq <;> rw [heq] at hnext
      · exact hnext
      · exact ih _ hnext

theorem renameArchiveWith_preserves (order : ClassOrder) (set : MappingSet) (settings : Settings)
    (first second : Reads) {written : σ} (h : kept written) :
    kept (renameArchiveWith order set settings first second emit written).2 := by
  unfold renameArchiveWith
  split
  · exact h
  · exact writeBatches_preserves step _ _ h

end Writing

section Indexing

variable {order : ClassOrder} {front rest : Reads} {read : Except JarError Entry}

/-- Indexing stops at the first read that fails or class that is refused. -/
theorem indexReads_refused {e : JarError}
    (accepted : ∀ read ∈ front, ∃ entry, read = .ok entry ∧
      (entry.kind = .classFile → ∃ summary, ClassSummary.ofBytes entry.data = .ok summary))
    (refused : ∀ index, (read >>= addEntry index) = .error e) :
    indexReads order (front ++ read :: rest) = .error e := by
  suffices hfold : ∀ index, (front ++ read :: rest).foldlM
      (fun index read => read >>= addEntry index) index = .error e by
    rw [indexReads, hfold]
    rfl
  induction front with
  | nil =>
    intro index
    rw [List.nil_append, List.foldlM_cons, refused]
    rfl
  | cons first front ih =>
    intro index
    obtain ⟨entry, rfl, hindexed⟩ := accepted first List.mem_cons_self
    have hrest := ih fun other ho => accepted other (List.mem_cons_of_mem _ ho)
    rw [List.cons_append, List.foldlM_cons]
    by_cases hk : entry.kind = .classFile
    · obtain ⟨summary, hs⟩ := hindexed hk
      have hadd : addEntry index entry = .ok (index.insert summary) := by
        rw [addEntry, if_pos hk, hs]
      exact (congrArg (· >>= _) hadd).trans (hrest _)
    · have hadd : addEntry index entry = .ok index := by rw [addEntry, if_neg hk]
      exact (congrArg (· >>= _) hadd).trans (hrest _)

/-- Where a class is refused, there is no index, whatever else fails before. -/
theorem exists_indexReads_error (refused : ∀ index, ∃ e, (read >>= addEntry index) = .error e) :
    ∃ e, indexReads order (front ++ read :: rest) = .error e := by
  suffices hfold : ∀ index, ∃ e, (front ++ read :: rest).foldlM
      (fun index read => read >>= addEntry index) index = .error e by
    obtain ⟨e, he⟩ := hfold .empty
    exact ⟨e, by rw [indexReads, he]; rfl⟩
  induction front with
  | nil =>
    intro index
    obtain ⟨e, he⟩ := refused index
    exact ⟨e, by rw [List.nil_append, List.foldlM_cons, he]; rfl⟩
  | cons first front ih =>
    intro index
    rw [List.cons_append, List.foldlM_cons]
    cases hf : first >>= addEntry index with
    | error e => exact ⟨e, rfl⟩
    | ok next => exact ih next

theorem addEntry_error {entry : Entry} {cause : ClassError} (hk : entry.kind = .classFile)
    (h : ClassSummary.ofBytes entry.data = .error cause) (index : ClassIndex) :
    addEntry index entry = .error (.badEntry ⟨entry.path, cause⟩) := by
  rw [addEntry, if_pos hk, h]

end Indexing

/-- `entry` is the first class entry of an archive that cannot be indexed; `before` are the entries
before it. -/
structure FirstUnindexed (entries before : List Entry) (entry : Entry) (cause : ClassError) :
    Prop where
  split : ∃ after, entries = before ++ entry :: after
  kind : entry.kind = .classFile
  refused : ClassSummary.ofBytes entry.data = .error cause
  indexed : ∀ other ∈ before, other.kind = .classFile →
    ∃ summary, ClassSummary.ofBytes other.data = .ok summary

theorem exists_firstUnindexed {entries : List Entry} {bad : Entry} (hm : bad ∈ entries)
    (hk : bad.kind = .classFile) {cause : ClassError}
    (h : ClassSummary.ofBytes bad.data = .error cause) :
    ∃ before entry cause, FirstUnindexed entries before entry cause := by
  induction entries with
  | nil => cases hm
  | cons first entries ih =>
    by_cases hfirst : first.kind = .classFile ∧
        ∃ cause, ClassSummary.ofBytes first.data = .error cause
    · obtain ⟨hkind, cause, hcause⟩ := hfirst
      exact ⟨[], first, cause, ⟨entries, rfl⟩, hkind, hcause, by simp⟩
    · have hne : bad ≠ first := by
        rintro rfl
        exact hfirst ⟨hk, cause, h⟩
      obtain ⟨before, entry, cause, ⟨after, hsplit⟩, hkind, hrefused, hindexed⟩ :=
        ih ((List.mem_cons.1 hm).resolve_left hne)
      refine ⟨first :: before, entry, cause, ⟨after, by rw [hsplit]; rfl⟩, hkind, hrefused, ?_⟩
      intro other ho hother
      obtain rfl | ho := List.mem_cons.1 ho
      · cases hs : ClassSummary.ofBytes other.data with
        | ok summary => exact ⟨summary, rfl⟩
        | error cause => exact absurd ⟨hother, cause, hs⟩ hfirst
      · exact hindexed other ho hother

namespace Storage

variable {storage : Storage} {place : Place} {input output : String} {order : ClassOrder}
  {set : MappingSet} {settings : Settings}

/-- The disk of the storage with the temporary file at a place. -/
def Beside (storage : Storage) (place : Place) (disk : Disk) : Prop :=
  ∃ entries, disk = storage.disk.withArchive place entries

/-- Entries go to the temporary file, and nowhere else. -/
theorem emit_preserves (fresh : storage.disk.Fresh place) (disk : Disk) (entry : Entry)
    (h : storage.Beside place disk) :
    storage.Beside place (emit storage.refuses place disk entry).2 := by
  obtain ⟨entries, rfl⟩ := h
  unfold emit
  split
  · exact ⟨entries, rfl⟩
  · split
    · exact ⟨entries, rfl⟩
    · exact ⟨entries ++ [entry], fresh.append entries entry⟩

theorem createTemporary_ok {disk : Disk} (h : storage.createTemporary output = .ok (place, disk)) :
    storage.disk.Fresh place ∧ storage.Beside place disk := by
  unfold createTemporary at h
  obtain ⟨found, hplace, h⟩ := bind_ok_iff.1 h
  cases h
  have fresh := storage.temporary.fresh (mapError_ok_iff.1 hplace)
  exact ⟨fresh, [], fresh.put []⟩

/-- Without the temporary file the disk is the one from before. -/
theorem renameFile_error {e : JarError}
    (h : (storage.renameFile input output set settings order).1 = .error e) :
    (storage.renameFile input output set settings order).2 = storage.disk := by
  unfold renameFile at h ⊢
  split
  · rfl
  · rfl
  · rename_i entries place disk hopen hcreate
    obtain ⟨fresh, hbeside⟩ := createTemporary_ok hcreate
    have hkept : storage.Beside place (renameArchiveWith order set settings
        (readEntries storage.refuses .indexing entries)
        (readEntries storage.refuses .rewriting entries) (emit storage.refuses place) disk).2 :=
      renameArchiveWith_preserves (emit_preserves fresh) order set settings _ _ hbeside
    rw [hopen, hcreate] at h
    dsimp only at h
    rcases hrun : renameArchiveWith order set settings
      (readEntries storage.refuses .indexing entries)
      (readEntries storage.refuses .rewriting entries) (emit storage.refuses place) disk
      with ⟨_ | summary, left⟩ <;> rw [hrun] at hkept h <;> obtain ⟨written, rfl⟩ := hkept
    · exact fresh.remove written
    · dsimp only at h ⊢
      cases hp : persist storage.refuses place output (storage.disk.withArchive place written) with
      | error e => exact fresh.remove written
      | ok disk =>
        rw [hp] at h
        cases h

section Reads

variable {refuses : Operation → Option FileFault} {pass : Pass}

theorem eq_of_readEntry {position : Nat} {entry read : Entry}
    (h : readEntry refuses pass position entry = .ok read) : read = entry := by
  unfold readEntry at h
  split at h
  · cases h
  · split at h
    · split at h
      · cases h
      · exact (Except.ok.inj h).symm
    · exact (Except.ok.inj h).symm

theorem getElem?_readEntries (entries : List Entry) (position : Nat) :
    (readEntries refuses pass entries)[position]? =
      entries[position]?.map (readEntry refuses pass position) :=
  List.getElem?_mapIdx

variable (refuses pass) in
/-- The entries before an entry are read before it. -/
theorem readEntries_split (before after : List Entry) (entry : Entry) :
    ∃ rest, readEntries refuses pass (before ++ entry :: after) =
      readEntries refuses pass before ++ readEntry refuses pass before.length entry :: rest := by
  simp [readEntries, List.mapIdx_append, List.mapIdx_cons]

end Reads

section Unindexed

variable {entries before : List Entry} {entry : Entry} {cause : ClassError}
  (first : FirstUnindexed entries before entry cause)
include first

/-- If storage lets the entries be read, the first class that is refused gives the error. -/
theorem indexReads_eq_badEntry (readable : ∀ position ≤ before.length,
      ∃ read, (readEntries storage.refuses .indexing entries)[position]? = some (.ok read)) :
    indexReads order (readEntries storage.refuses .indexing entries) =
      .error (.badEntry ⟨entry.path, cause⟩) := by
  obtain ⟨⟨after, rfl⟩, hkind, hrefused, hindexed⟩ := first
  have hread {position : Nat} {other : Entry} (hle : position ≤ before.length)
      (ho : (before ++ entry :: after)[position]? = some other) :
      readEntry storage.refuses .indexing position other = .ok other := by
    obtain ⟨read, hr⟩ := readable position hle
    rw [getElem?_readEntries, ho, Option.map_some, Option.some.injEq] at hr
    rw [hr, eq_of_readEntry hr]
  obtain ⟨rest, hsplit⟩ := readEntries_split storage.refuses .indexing before after entry
  rw [hsplit, hread le_rfl (by simp)]
  refine indexReads_refused (fun read hm => ?_) (addEntry_error hkind hrefused)
  obtain ⟨position, hposition⟩ := List.mem_iff_getElem?.1 hm
  rw [getElem?_readEntries, Option.map_eq_some_iff] at hposition
  obtain ⟨other, ho, rfl⟩ := hposition
  obtain ⟨hlt, -⟩ := List.getElem?_eq_some_iff.1 ho
  refine ⟨other, hread hlt.le ?_, hindexed other (List.mem_of_getElem? ho)⟩
  rw [List.getElem?_append_left hlt, ho]

/-- Where a class cannot be indexed, indexing fails, and nothing is written. -/
theorem renameArchiveWith_unindexed (order : ClassOrder) (set : MappingSet) (settings : Settings)
    {σ : Type} (second : Reads) (emit : σ → Entry → Except JarError Unit × σ) (written : σ) :
    ∃ e, renameArchiveWith order set settings (readEntries storage.refuses .indexing entries)
      second emit written = (.error e, written) := by
  obtain ⟨⟨after, rfl⟩, hkind, hrefused, -⟩ := first
  obtain ⟨rest, hsplit⟩ := readEntries_split storage.refuses .indexing before after entry
  have hbad (index : ClassIndex) : ∃ e,
      (readEntry storage.refuses .indexing before.length entry >>= addEntry index) = .error e := by
    cases hr : readEntry storage.refuses .indexing before.length entry with
    | error e => exact ⟨e, rfl⟩
    | ok read =>
      obtain rfl := eq_of_readEntry hr
      exact ⟨_, addEntry_error hkind hrefused index⟩
  obtain ⟨e, he⟩ : ∃ e, indexReads order (readEntries storage.refuses .indexing before ++
      readEntry storage.refuses .indexing before.length entry :: rest) = .error e :=
    exists_indexReads_error hbad
  exact ⟨e, by rw [renameArchiveWith, hsplit, he]⟩

end Unindexed

/-- If renaming an archive fails, the disk is as it was. A class that cannot be indexed makes it
fail before anything is written. The first one is reported if it is reached: the temporary file is
created before it, and the entries up to it are read. -/
theorem failed_rename_leaves_no_trace (storage : Storage) (input output : String)
    (set : MappingSet) (settings : Settings) (order : ClassOrder) :
    (∀ e, (storage.renameFile input output set settings order).1 = .error e →
      (storage.renameFile input output set settings order).2 = storage.disk) ∧
    ∀ entries, storage.openArchive input = .ok entries →
      (∃ bad ∈ entries, bad.kind = .classFile ∧
        ∃ cause, ClassSummary.ofBytes bad.data = .error cause) →
      ∃ before entry cause, FirstUnindexed entries before entry cause ∧
        (∀ e, storage.createTemporary output = .error e →
          (storage.renameFile input output set settings order).1 = .error e) ∧
        (∀ made, storage.createTemporary output = .ok made →
          (∀ position ≤ before.length,
            ∃ read, (readEntries storage.refuses .indexing entries)[position]? = some (.ok read)) →
          (storage.renameFile input output set settings order).1 =
            .error (.badEntry ⟨entry.path, cause⟩)) ∧
        ∀ (σ : Type) (second : Reads) (emit : σ → Entry → Except JarError Unit × σ) (written : σ),
          ∃ e, renameArchiveWith order set settings (readEntries storage.refuses .indexing entries)
            second emit written = (.error e, written) := by
  refine ⟨fun e h => renameFile_error h, ?_⟩
  rintro entries hopen ⟨bad, hm, hk, cause, hbad⟩
  obtain ⟨before, entry, cause, first⟩ := exists_firstUnindexed hm hk hbad
  refine ⟨before, entry, cause, first, fun e hcreate => ?_, fun made hcreate readable => ?_,
    fun σ second emit written =>
      renameArchiveWith_unindexed first order set settings second emit written⟩
  · unfold renameFile
    rw [hopen, hcreate]
  · obtain ⟨place, disk⟩ := made
    unfold renameFile
    rw [hopen, hcreate]
    dsimp only
    rw [renameArchiveWith, indexReads_eq_badEntry first readable]

section Sample

/-- An entry that is named like a class, but empty. -/
def emptyEntry : Entry := .create "A.class" [] none

/-- A disk with an archive of one entry, and no folder but its root. -/
def emptyEntryStorage : Storage := .reliable ⟨[], [(["in.jar".toList], .archive [emptyEntry])]⟩

theorem openArchive_emptyEntry : emptyEntryStorage.openArchive "in.jar" = .ok [emptyEntry] := by
  decide +kernel

theorem firstUnindexed_emptyEntry : FirstUnindexed [emptyEntry] [] emptyEntry .unexpectedEnd :=
  ⟨⟨[], rfl⟩, by decide +kernel, rfl, by simp⟩

theorem failed_rename_leaves_no_trace_sample :
    emptyEntryStorage.openArchive "in.jar" = .ok [emptyEntry] ∧
      (emptyEntryStorage.renameFile "in.jar" "out.jar" .empty (.forProcessors 1)).1 =
        .error (.badEntry ⟨"A.class", .unexpectedEnd⟩) ∧
      (emptyEntryStorage.renameFile "in.jar" "out.jar" .empty (.forProcessors 1)).2 =
        emptyEntryStorage.disk := by
  obtain ⟨hdisk, hbad⟩ := failed_rename_leaves_no_trace emptyEntryStorage "in.jar" "out.jar" .empty
    (.forProcessors 1) .ofTable
  have hrefused := firstUnindexed_emptyEntry.refused
  obtain ⟨before, entry, cause, ⟨⟨after, hsplit⟩, -, hcause, -⟩, -, hreport, -⟩ :=
    hbad [emptyEntry] openArchive_emptyEntry
      ⟨emptyEntry, by simp, firstUnindexed_emptyEntry.kind, _, hrefused⟩
  obtain ⟨rfl, hentry⟩ := (List.singleton_eq_append_iff.1 hsplit).resolve_right (by simp)
  obtain ⟨rfl, -⟩ := List.cons.inj hentry
  obtain rfl : .unexpectedEnd = cause := Except.error.inj (hrefused.symm.trans hcause)
  obtain ⟨made, hcreate⟩ : ∃ made, emptyEntryStorage.createTemporary "out.jar" = .ok made :=
    exists_ok_of_isOk (by decide +kernel)
  have hresult := hreport made hcreate fun position hle => by
    obtain rfl := Nat.le_zero.1 hle
    exact ⟨emptyEntry, rfl⟩
  exact ⟨openArchive_emptyEntry, hresult, hdisk _ hresult⟩

/-- An entry in front of `emptyEntry`. -/
def noteEntry : Entry := .create "note" [1] none

def passwordFault : FileFault :=
  .other "unsupported Zip archive: Password required to decrypt file"

/-- An archive whose first entry has a password. -/
def lockedStorage : Storage where
  disk := ⟨[], [(["in.jar".toList], .archive [noteEntry, emptyEntry])]⟩
  refuses operation := if operation = .openEntry .indexing 0 then some passwordFault else none
  temporary := .longNames

/-- An entry that cannot be read is reported before a class behind it that cannot be indexed. -/
theorem unreadable_entry_reported :
    lockedStorage.openArchive "in.jar" = .ok [noteEntry, emptyEntry] ∧
      FirstUnindexed [noteEntry, emptyEntry] [noteEntry] emptyEntry .unexpectedEnd ∧
      (lockedStorage.renameFile "in.jar" "out.jar" .empty (.forProcessors 1)).1 =
        .error (.archive (.unreadable passwordFault)) := by
  have hopen : lockedStorage.openArchive "in.jar" = .ok [noteEntry, emptyEntry] := by
    decide +kernel
  have hkind : noteEntry.kind ≠ .classFile := by decide +kernel
  refine ⟨hopen, ⟨⟨[], rfl⟩, by decide +kernel, rfl, by simp [hkind]⟩, ?_⟩
  obtain ⟨made, hcreate⟩ : ∃ made, lockedStorage.createTemporary "out.jar" = .ok made :=
    exists_ok_of_isOk (by decide +kernel)
  unfold renameFile
  rw [hopen, hcreate]
  rfl

end Sample

end Storage

end JarRename.Jar
