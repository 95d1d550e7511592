import Mathlib
import JarRename.Jar.Archive
import JarRename.Proofs.Hierarchy.Acyclic

/-!
# Batches and threads do not show

Classes are renamed batch by batch, and the classes of a batch part by part. Put together again in
order, the results are those of one walk through the archive, `renameInOrder`, and so is the error:
it comes from the first entry that fails. The one thing that a division can add is a number of
threads that is too large for machine words.
-/
namespace JarRename.Jar

open Fallible Relation

section Parts

variable {α β ε : Type}

/-- The parts of a list hold all its elements in their order. -/
theorem flatten_chunks {size : Nat} (h : 0 < size) (xs : List α) :
    (chunks size xs).flatten = xs := by
  fun_induction chunks size xs with
  | case1 xs hx =>
    obtain rfl := hx.resolve_right (by omega)
    rfl
  | case2 xs _ ih => rw [List.flatten_cons, ih, List.take_append_drop]

/-- Each thread stops at its first error, and the error of the first thread counts: that is the
first error of all. -/
theorem joinParts_runParts (work : α → Except ε β) (parts : List (List α)) :
    joinParts (runParts work parts) = parts.flatten.mapM work := by
  induction parts with
  | nil => rfl
  | cons part parts ih =>
    rw [List.flatten_cons, List.mapM_append, ← ih]
    simp only [joinParts, runParts, List.map_cons, List.mapM_cons, id]
    cases part.mapM work with
    | error e => rfl
    | ok ys => cases (parts.map fun part => part.mapM work).mapM id <;> rfl

end Parts

theorem chunkSize?_pos {classes threads size : Nat} (hc : 0 < classes) (ht : 0 < threads)
    (h : chunkSize? classes threads = some size) : 0 < size := by
  unfold chunkSize? at h
  split at h
  · cases h
  · cases h
    exact Nat.div_pos (by omega) ht

/-- Whether the classes for each thread have to be counted, and machine words cannot count them. -/
def Overflows (threads classes : Nat) : Prop :=
  1 < threads ∧ 1 < classes ∧ chunkSize? classes threads = none

def classesOf (entries : List Entry) : List Entry := entries.filter (·.kind = .classFile)

/-- No batch has more classes than can be divided among the threads. -/
def Divisible (settings : Settings) (entries : List Entry) : Prop :=
  ∀ batch ∈ chunks (max settings.batchSize 1) entries,
    ¬Overflows settings.parallelism (classesOf batch).length

/-- Renames an entry if it is a class. -/
def Renamed.rename (r : Remapper) (entry : Entry) : Except EntryError Renamed :=
  if entry.kind = .classFile then renameClass r entry else .ok (ofEntry entry)

theorem Renamed.renameClass_ok_iff {r : Remapper} {entry : Entry} {renamed : Renamed} :
    renameClass r entry = .ok renamed ↔ ∃ name data, r.renameBytes entry.data = .ok (name, data) ∧
      renamed = ⟨entry, Entry.classPath entry.path name, data⟩ := by
  unfold renameClass
  cases r.renameBytes entry.data with
  | error cause => simp
  | ok result => simp [Prod.ext_iff, and_assoc, eq_comm]

theorem Renamed.renameClass_error_iff {r : Remapper} {entry : Entry} {e : EntryError} :
    renameClass r entry = .error e ↔
      ∃ cause, r.renameBytes entry.data = .error cause ∧ e = ⟨entry.path, cause⟩ := by
  unfold renameClass
  cases r.renameBytes entry.data with
  | error cause => simp [eq_comm]
  | ok result => simp

section Batch

variable {r : Remapper} {settings : Settings} {threads : Nat} {batch : List Entry}
  {batches : List (List Entry)}

theorem renameClasses_eq {classes : List Entry} (h : ¬Overflows threads classes.length) :
    renameClasses r threads classes =
      (classes.mapM (Renamed.renameClass r)).mapError .badEntry := by
  unfold renameClasses
  dsimp only
  split
  · rfl
  · rename_i hmany
    cases hs : chunkSize? classes.length threads with
    | none => exact absurd ⟨by omega, by omega, hs⟩ h
    | some size =>
      dsimp only
      rw [joinParts_runParts, flatten_chunks (chunkSize?_pos (by omega) (by omega) hs)]

theorem renameClasses_overflow {classes : List Entry} (h : Overflows threads classes.length) :
    renameClasses r threads classes = .error .tooManyThreads := by
  obtain ⟨ht, hc, hs⟩ := h
  unfold renameClasses
  dsimp only
  rw [if_neg (by omega), hs]

theorem merge_class {entry : Entry} (h : entry.kind = .classFile) (entries : List Entry)
    (renamed : Renamed) (classes : List Renamed) :
    merge (entry :: entries) (renamed :: classes) = renamed :: merge entries classes := by
  simp [merge, h]

theorem merge_other {entry : Entry} (h : entry.kind ≠ .classFile) (entries : List Entry)
    (classes : List Renamed) :
    merge (entry :: entries) classes = Renamed.ofEntry entry :: merge entries classes := by
  cases classes <;> simp [merge, h]

/-- Putting the renamed classes back gives every entry its place. -/
theorem merge_map (r : Remapper) (batch : List Entry) :
    merge batch <$> (classesOf batch).mapM (Renamed.renameClass r) =
      batch.mapM (Renamed.rename r) := by
  induction batch with
  | nil => rfl
  | cons entry batch ih =>
    rw [List.mapM_cons, ← ih]
    by_cases hk : entry.kind = .classFile
    · have hfilter : classesOf (entry :: batch) = entry :: classesOf batch :=
        List.filter_cons_of_pos (by simpa using hk)
      rw [hfilter, List.mapM_cons, Renamed.rename, if_pos hk]
      cases Renamed.renameClass r entry with
      | error e => rfl
      | ok renamed =>
        cases (classesOf batch).mapM (Renamed.renameClass r) with
        | error e => rfl
        | ok classes =>
          exact congrArg Except.ok (merge_class hk batch renamed classes)
    · have hfilter : classesOf (entry :: batch) = classesOf batch :=
        List.filter_cons_of_neg (by simpa using hk)
      rw [hfilter, Renamed.rename, if_neg hk]
      cases (classesOf batch).mapM (Renamed.renameClass r) with
      | error e => rfl
      | ok classes =>
        exact congrArg Except.ok (merge_other hk batch classes)

theorem renameBatch_apply (r : Remapper) (threads : Nat) (batch : List Entry) :
    renameBatch r threads batch = merge batch <$> renameClasses r threads (classesOf batch) := rfl

theorem renameBatch_eq (h : ¬Overflows threads (classesOf batch).length) :
    renameBatch r threads batch = (batch.mapM (Renamed.rename r)).mapError .badEntry := by
  rw [renameBatch_apply, renameClasses_eq h, ← merge_map]
  cases (classesOf batch).mapM (Renamed.renameClass r) <;> rfl

theorem renameBatch_overflow (h : Overflows threads (classesOf batch).length) :
    renameBatch r threads batch = .error .tooManyThreads := by
  rw [renameBatch_apply, renameClasses_overflow h]
  rfl

/-- Keeps an entry in memory. -/
def keep (written : List Entry) (entry : Entry) : Except JarError Unit × List Entry :=
  (.ok (), entry :: written)

/-- Counts entries and what is written for them. -/
def tally (set : MappingSet) (settings : Settings) (summary : Summary) (entries : List Renamed) :
    Summary :=
  entries.foldl (fun summary renamed => summary.add renamed (output? set settings renamed)) summary

theorem writeAll_keep (set : MappingSet) (settings : Settings) (entries : List Renamed)
    (summary : Summary) (written : List Entry) :
    writeAll set settings keep summary written entries =
      (.ok (tally set settings summary entries),
        (entries.filterMap (output? set settings)).reverse ++ written) := by
  induction entries generalizing summary written with
  | nil => rfl
  | cons renamed entries ih =>
    rw [writeAll]
    cases ho : output? set settings renamed with
    | none => simp [ih, tally, ho]
    | some entry => simp [keep, ih, tally, ho]

@[simp] theorem Reads.entries_ofEntries (entries : List Entry) :
    (Reads.ofEntries entries).entries = .ok entries :=
  mapM_ok_iff.2 (List.forall₂_map_left_iff.2 (List.forall₂_same.2 fun _ _ => rfl))

/-- Batches of an archive in memory. -/
theorem chunks_ofEntries (size : Nat) (entries : List Entry) :
    chunks size (Reads.ofEntries entries) = (chunks size entries).map Reads.ofEntries := by
  fun_induction chunks size entries with
  | case1 entries hx =>
    rw [chunks, dif_pos (by simpa [Reads.ofEntries] using hx)]
    rfl
  | case2 entries hx ih =>
    rw [chunks, dif_neg (by simpa [Reads.ofEntries] using hx), List.map_cons, ← ih]
    simp [Reads.ofEntries]

theorem writeBatches_cons_ok {reads : List Reads} {entries : List Renamed} {summary : Summary}
    {written : List Entry} (h : renameBatch r settings.parallelism batch = .ok entries) :
    writeBatches r settings keep summary written (.ofEntries batch :: reads) =
      writeBatches r settings keep (tally r.mappings settings summary entries)
        ((entries.filterMap (output? r.mappings settings)).reverse ++ written) reads := by
  rw [writeBatches, Reads.entries_ofEntries]
  simp only [bind, Except.bind, h]
  rw [writeAll_keep]

theorem writeBatches_cons_error {reads : List Reads} {e : JarError} {summary : Summary}
    {written : List Entry} (h : renameBatch r settings.parallelism batch = .error e) :
    writeBatches r settings keep summary written (.ofEntries batch :: reads) =
      (.error e, written) := by
  rw [writeBatches, Reads.entries_ofEntries]
  simp only [bind, Except.bind, h]

/-- Batches after one another are written as one list of entries. -/
theorem writeBatches_ok {entries : List Renamed}
    (hd : ∀ batch ∈ batches, ¬Overflows settings.parallelism (classesOf batch).length)
    (h : batches.flatten.mapM (Renamed.rename r) = .ok entries) (summary : Summary)
    (written : List Entry) :
    writeBatches r settings keep summary written (batches.map .ofEntries) =
      (.ok (tally r.mappings settings summary entries),
        (entries.filterMap (output? r.mappings settings)).reverse ++ written) := by
  induction batches generalizing entries summary written with
  | nil =>
    cases h
    rfl
  | cons batch batches ih =>
    rw [List.flatten_cons, List.mapM_append] at h
    obtain ⟨first, hfirst, h⟩ := bind_ok_iff.1 h
    obtain ⟨rest, hrest, h⟩ := bind_ok_iff.1 h
    cases h
    have hb := renameBatch_eq (r := r) (hd batch (by simp))
    rw [hfirst] at hb
    rw [List.map_cons, writeBatches_cons_ok hb, ih (fun other ho => hd other (by simp [ho])) hrest]
    simp [tally]

theorem writeBatches_error {e : EntryError}
    (hd : ∀ batch ∈ batches, ¬Overflows settings.parallelism (classesOf batch).length)
    (h : batches.flatten.mapM (Renamed.rename r) = .error e) (summary : Summary)
    (written : List Entry) :
    (writeBatches r settings keep summary written (batches.map .ofEntries)).1 =
      .error (.badEntry e) := by
  induction batches generalizing summary written with
  | nil => cases h
  | cons batch batches ih =>
    have hb := renameBatch_eq (r := r) (hd batch (by simp))
    rw [List.flatten_cons, List.mapM_append] at h
    rcases bind_error_iff.1 h with hfirst | ⟨first, hfirst, hrest⟩
    · rw [hfirst] at hb
      rw [List.map_cons, writeBatches_cons_error hb]
    · rw [bind_pure_comp, map_error_iff] at hrest
      rw [hfirst] at hb
      rw [List.map_cons, writeBatches_cons_ok hb]
      exact ih (fun other ho => hd other (by simp [ho])) hrest _ _

/-- Where writing succeeds, every batch could be divided. -/
theorem not_overflows_of_writeBatches {summary total : Summary} {written : List Entry}
    (h : (writeBatches r settings keep summary written (batches.map .ofEntries)).1 = .ok total) :
    ∀ batch ∈ batches, ¬Overflows settings.parallelism (classesOf batch).length := by
  induction batches generalizing summary written with
  | nil => simp
  | cons batch batches ih =>
    cases hb : renameBatch r settings.parallelism batch with
    | error e =>
      rw [List.map_cons, writeBatches_cons_error hb] at h
      cases h
    | ok entries =>
      rw [List.map_cons, writeBatches_cons_ok hb] at h
      intro other ho
      rcases List.mem_cons.1 ho with rfl | ho
      · intro hover
        rw [renameBatch_overflow hover] at hb
        cases hb
      · exact ih h other ho

end Batch

section Archive

variable {order : ClassOrder} {set : MappingSet} {settings : Settings} {entries : List Entry}

/-- Numbers within machine words are no obstacle to dividing the work. -/
theorem divisible_of_le (h : entries.length + settings.parallelism ≤ maxWord) :
    Divisible settings entries := by
  intro batch hb ⟨ht, hc, hs⟩
  have hflat : (chunks (max settings.batchSize 1) entries).flatten = entries :=
    flatten_chunks (by omega) entries
  have hsub : batch.length ≤ entries.length := by
    rw [← hflat]
    exact (List.sublist_flatten_of_mem hb).length_le
  have hfilter : (classesOf batch).length ≤ batch.length := List.length_filter_le _ _
  unfold chunkSize? at hs
  split at hs
  · omega
  · cases hs

/-- Renames an archive entry by entry. -/
def renameInOrder (order : ClassOrder) (set : MappingSet) (settings : Settings)
    (entries : List Entry) : Except JarError (Summary × List Entry) := do
  let index ← indexOf order entries
  let renamed ← (entries.mapM (Renamed.rename ⟨index, set⟩)).mapError .badEntry
  return (tally set settings ⟨0, 0, 0, 0⟩ renamed, renamed.filterMap (output? set settings))

/-- Adds a class entry, given by path and bytes, to an index. -/
def addFile (index : ClassIndex) (file : String × Bytes) : Except EntryError ClassIndex :=
  match ClassSummary.ofBytes file.2 with
  | .ok summary => .ok (index.insert summary)
  | .error cause => .error ⟨file.1, cause⟩

/-- Only classes are added to an index. -/
theorem foldlM_addEntry (entries : List Entry) (index : ClassIndex) :
    (Reads.ofEntries entries).foldlM (fun index read => read >>= addEntry index) index =
      (((classesOf entries).map fun entry => (entry.path, entry.data)).foldlM addFile
        index).mapError .badEntry := by
  induction entries generalizing index with
  | nil => rfl
  | cons entry entries ih =>
    rw [Reads.ofEntries, List.map_cons, List.foldlM_cons]
    by_cases hk : entry.kind = .classFile
    · have hfilter : classesOf (entry :: entries) = entry :: classesOf entries :=
        List.filter_cons_of_pos (by simpa using hk)
      rw [hfilter, List.map_cons, List.foldlM_cons]
      simp only [bind, Except.bind, addEntry, if_pos hk, addFile]
      cases ClassSummary.ofBytes entry.data with
      | error cause => rfl
      | ok summary => exact ih (index.insert summary)
    · have hfilter : classesOf (entry :: entries) = classesOf entries :=
        List.filter_cons_of_neg (by simpa using hk)
      rw [hfilter, ← ih index]
      simp only [bind, Except.bind, addEntry, if_neg hk]
      rfl

/-- Entry by entry, the index comes out that is built of all classes together. -/
theorem indexReads_ofEntries (order : ClassOrder) (entries : List Entry) :
    indexReads order (.ofEntries entries) = indexOf order entries := by
  rw [indexReads, foldlM_addEntry]
  rfl

theorem renameArchive_apply (set : MappingSet) (settings : Settings) (entries : List Entry)
    (order : ClassOrder) :
    renameArchive set settings entries order = (do
      let index ← indexOf order entries
      match writeBatches ⟨index, set⟩ settings keep ⟨0, 0, 0, 0⟩ []
          ((chunks (max settings.batchSize 1) entries).map .ofEntries) with
      | (.error e, _) => .error e
      | (.ok summary, written) => .ok (summary, written.reverse)) := by
  unfold renameArchive renameArchiveWith
  simp only [indexReads_ofEntries, chunks_ofEntries]
  cases indexOf order entries <;> rfl

/-- However the work is divided, it is done as if it were not. -/
theorem renameArchive_eq (h : Divisible settings entries) :
    renameArchive set settings entries order = renameInOrder order set settings entries := by
  rw [renameArchive_apply, renameInOrder]
  congr 1
  funext index
  have hflat : (chunks (max settings.batchSize 1) entries).flatten = entries :=
    flatten_chunks (by omega) entries
  cases hr : entries.mapM (Renamed.rename ⟨index, set⟩) with
  | error e =>
    rw [← hflat] at hr
    have hw := writeBatches_error h hr ⟨0, 0, 0, 0⟩ []
    generalize writeBatches _ _ _ _ _ _ = result at hw
    obtain ⟨outcome, written⟩ := result
    cases hw
    rfl
  | ok renamed =>
    rw [← hflat] at hr
    rw [writeBatches_ok h hr]
    simp [Except.mapError, bind, Except.bind, pure, Except.pure]

theorem renameInOrder_of_renameArchive {result : Summary × List Entry}
    (h : renameArchive set settings entries order = .ok result) :
    renameInOrder order set settings entries = .ok result := by
  rw [← renameArchive_eq, h]
  rw [renameArchive_apply] at h
  obtain ⟨index, -, h⟩ := bind_ok_iff.1 h
  split at h
  · cases h
  · rename_i hw
    exact not_overflows_of_writeBatches (congrArg Prod.fst hw)

end Archive

end JarRename.Jar
