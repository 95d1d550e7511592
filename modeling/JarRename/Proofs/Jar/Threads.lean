import Mathlib
import JarRename.Proofs.Jar.Outputs

/-!
# The division of a batch among threads

The number of classes for each thread is a quotient that is rounded up, and it is calculated in
machine words. If the sum on the way wraps around, what is left of it is less than the number of
threads, so that the quotient is zero, and a batch cannot be cut into parts of no class. Otherwise
there are no more parts than threads.
-/
namespace JarRename.Jar

open ClassFile Fallible Renaming

/-- The number of classes for each thread, in machine words. -/
def wordChunkSize (classes threads : UInt64) : UInt64 := (classes + threads - 1) / threads

section Words

variable {classes threads : UInt64}

/-- One is taken off again, so a sum that is zero only for a moment does no harm. -/
theorem toNat_wordSum (ht : 0 < threads.toNat) :
    (classes + threads - 1).toNat = (classes.toNat + (threads.toNat - 1)) % UInt64.size := by
  rw [UInt64.toNat_sub, UInt64.toNat_add, UInt64.toNat_one, UInt64.size]
  omega

theorem toNat_wordChunkSize (ht : 0 < threads.toNat) :
    (wordChunkSize classes threads).toNat = (chunkSize? classes.toNat threads.toNat).getD 0 := by
  have hclasses := classes.toNat_lt
  have hthreads := threads.toNat_lt
  rw [wordChunkSize, UInt64.toNat_div, toNat_wordSum ht, chunkSize?, UInt64.size]
  split
  · rename_i hwraps
    rw [maxWord] at hwraps
    -- `classes - 1` is less than the number of words, so less than `threads` is left of the sum.
    exact Nat.div_eq_of_lt (by omega)
  · rename_i hfits
    rw [maxWord] at hfits
    rw [Nat.mod_eq_of_lt (by omega), Option.getD_some]

theorem wordChunkSize_eq_zero_iff (hc : 0 < classes.toNat) (ht : 0 < threads.toNat) :
    (wordChunkSize classes threads).toNat = 0 ↔ chunkSize? classes.toNat threads.toNat = none := by
  rw [toNat_wordChunkSize ht]
  cases hs : chunkSize? classes.toNat threads.toNat with
  | none => simp
  | some size =>
    have hpos := chunkSize?_pos hc ht hs
    simp only [Option.getD_some, reduceCtorEq, iff_false]
    omega

end Words

theorem chunkSize?_eq_none_iff {classes threads : Nat} :
    chunkSize? classes threads = none ↔ maxWord < classes + (threads - 1) := by
  unfold chunkSize?
  split
  · rename_i hwraps
    exact iff_of_true rfl hwraps
  · rename_i hfits
    exact iff_of_false (by simp) hfits

/-- The size is enough for all classes. -/
theorem le_chunkSize?_mul {classes threads size : Nat} (ht : 0 < threads)
    (h : chunkSize? classes threads = some size) : classes ≤ size * threads := by
  unfold chunkSize? at h
  split at h
  · cases h
  · cases h
    have hround := Nat.lt_div_mul_add (a := classes + (threads - 1)) ht
    omega

/-- A list that does not fill more than `count` parts is not cut into more. -/
theorem length_chunks_le {α : Type} {size count : Nat} {xs : List α}
    (h : xs.length ≤ size * count) : (chunks size xs).length ≤ count := by
  induction count generalizing xs with
  | zero =>
    obtain rfl : xs = [] := List.eq_nil_of_length_eq_zero (by simpa using h)
    rw [chunks, dif_pos (.inl rfl), List.length_nil]
  | succ count ih =>
    rw [chunks]
    split
    · exact Nat.zero_le _
    · have hrest : (xs.drop size).length ≤ size * count := by
        rw [Nat.mul_succ] at h
        rw [List.length_drop]
        omega
      rw [List.length_cons]
      exact Nat.succ_le_succ (ih hrest)

section Batch

variable {r : Remapper} {threads : Nat} {batch : List Entry}

theorem renameBatch_tooManyThreads_iff (r : Remapper) :
    renameBatch r threads batch = .error .tooManyThreads ↔
      Overflows threads (classesOf batch).length := by
  refine ⟨fun h => ?_, renameBatch_overflow⟩
  by_contra hfits
  rw [renameBatch_eq hfits] at h
  cases hm : batch.mapM (Renamed.rename r) with
  | error e => cases (congrArg (Except.mapError JarError.badEntry) hm).symm.trans h
  | ok renamed => cases (congrArg (Except.mapError JarError.badEntry) hm).symm.trans h

/-- Every thread gets one part. -/
theorem renameBatch_parts {size : Nat} (ht : 2 ≤ threads) (hc : 2 ≤ (classesOf batch).length)
    (hs : chunkSize? (classesOf batch).length threads = some size) :
    renameBatch r threads batch = merge batch <$>
      (joinParts (runParts (Renamed.renameClass r)
        (chunks size (classesOf batch)))).mapError .badEntry := by
  rw [renameBatch_apply]
  unfold renameClasses
  dsimp only
  rw [if_neg (by omega), hs]

end Batch

/-- Two or more classes are divided among two or more threads. If the sum wraps around, the size of
a part is zero, and the batch is not renamed. Otherwise each part is renamed on its own: there is
one thread for each of them, and together they hold every class once, in order. -/
theorem division_among_threads (r : Remapper) {threads : UInt64} {batch : List Entry}
    (ht : 2 ≤ threads.toNat) (hc : 2 ≤ (classesOf batch).length)
    (hword : (classesOf batch).length ≤ maxWord) :
    let classes := classesOf batch
    let size := (wordChunkSize (.ofNat classes.length) threads).toNat
    (size = 0 ↔ maxWord < classes.length + (threads.toNat - 1)) ∧
    (renameBatch r threads.toNat batch = .error .tooManyThreads ↔ size = 0) ∧
    (size ≠ 0 →
      renameBatch r threads.toNat batch = merge batch <$>
        (joinParts (runParts (Renamed.renameClass r) (chunks size classes))).mapError .badEntry ∧
      (chunks size classes).length ≤ threads.toNat ∧ (chunks size classes).flatten = classes) := by
  intro classes size
  have hlength : (UInt64.ofNat classes.length).toNat = classes.length :=
    UInt64.toNat_ofNat_of_lt' (Nat.lt_succ_of_le hword)
  have hsize : size = (chunkSize? classes.length threads.toNat).getD 0 := by
    rw [← hlength]
    exact toNat_wordChunkSize (by omega)
  have hpos : 0 < (UInt64.ofNat classes.length).toNat := by
    rw [hlength]
    exact Nat.zero_lt_of_lt hc
  have hzero : size = 0 ↔ chunkSize? classes.length threads.toNat = none := by
    rw [← hlength]
    exact wordChunkSize_eq_zero_iff hpos (by omega)
  refine ⟨hzero.trans chunkSize?_eq_none_iff, ?_, fun hne => ?_⟩
  · rw [renameBatch_tooManyThreads_iff, hzero]
    exact ⟨fun h => h.2.2, fun h => ⟨by omega, by omega, h⟩⟩
  · cases hs : chunkSize? classes.length threads.toNat with
    | none => exact absurd (hzero.2 hs) hne
    | some found =>
      obtain rfl : size = found := by rw [hsize, hs, Option.getD_some]
      exact ⟨renameBatch_parts ht hc hs, length_chunks_le (le_chunkSize?_mul (by omega) hs),
        flatten_chunks (by omega) classes⟩

/-- Three versions of the class `A`. -/
def classVersions : List Entry :=
  [.create "A.class" sampleBytes none, laterClass,
    .create "META-INF/versions/10/A.class" sampleBytes none]

theorem classesOf_classVersions : classesOf classVersions = classVersions := by decide +kernel

theorem division_among_two :
    2 ≤ (classesOf classVersions).length ∧ (wordChunkSize 3 2).toNat = 2 ∧
      renameBatch (sampleRemapper .empty) 2 classVersions ≠ .error .tooManyThreads ∧
      (chunks 2 classVersions).length ≤ 2 ∧ (chunks 2 classVersions).flatten = classVersions := by
  have hsize : (wordChunkSize (.ofNat classVersions.length) 2).toNat = 2 := by decide
  have h := @division_among_threads (sampleRemapper .empty) 2 classVersions (by decide) (by decide)
    (by decide)
  dsimp only at h
  rw [classesOf_classVersions, hsize] at h
  obtain ⟨-, herror, hparts⟩ := h
  obtain ⟨-, hlength, hflatten⟩ := hparts (by decide)
  exact ⟨by decide, by decide, fun he => absurd (herror.1 he) (by decide), hlength, hflatten⟩

/-- The largest number of threads is too large for three classes. -/
theorem division_wraps :
    wordChunkSize 3 0xFFFFFFFFFFFFFFFF = 0 ∧ classesOf classVersions = classVersions ∧
      renameBatch (sampleRemapper .empty)
        (Settings.withParallelism (.forProcessors 1) 0xFFFFFFFFFFFFFFFF).parallelism
        classVersions = .error .tooManyThreads := by
  refine ⟨by decide, classesOf_classVersions, renameBatch_overflow ⟨by decide, ?_, ?_⟩⟩
  · decide
  · rw [classesOf_classVersions]
    rfl

end JarRename.Jar
