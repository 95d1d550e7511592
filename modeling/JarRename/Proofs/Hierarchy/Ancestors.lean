import Mathlib
import JarRename.Proofs.Hierarchy.Owners

/-!
# The walk to the supertypes finds all of them

`Walk` is the invariant of the walk: every class that has been met is `start` or a supertype of it,
and it waits in the queue unless its supertypes have been met as well. Each indexed class is in the
queue at most once, so the fuel does not run out before the queue is empty.
-/
namespace JarRename.ClassIndex

open Relation

variable {index : ClassIndex} {start : BinaryName} {queue : List ClassSummary}
  {seen : Std.HashSet BinaryName} {found : List BinaryName} {summary : ClassSummary}

/-- The indexed classes that have not been met. -/
def ahead (index : ClassIndex) (seen : Std.HashSet BinaryName) : Nat :=
  (index.names.map fun name => if seen.contains name then 0 else 1).sum

theorem ahead_insert_le (name : BinaryName) : index.ahead (seen.insert name) ≤ index.ahead seen := by
  apply List.sum_le_sum
  intro other _
  rw [Std.HashSet.contains_insert]
  split <;> split <;> simp_all

/-- Meeting an indexed class takes it from those that are ahead. -/
theorem ahead_insert {name : BinaryName} (hn : name ∉ seen) (hg : index.get? name = some summary) :
    index.ahead (seen.insert name) + 1 ≤ index.ahead seen := by
  have hm : name ∈ index.names := mem_names_iff.2 ⟨summary, hg⟩
  apply sum_map_add_le _ hm
  · have hc : seen.contains name = false := by simpa using hn
    simp [hc]
  · intro other _
    rw [Std.HashSet.contains_insert]
    split <;> split <;> simp_all

/-- What is new goes from those ahead into the queue. -/
theorem ahead_unseen (names : List BinaryName) (seen : Std.HashSet BinaryName) :
    ((unseen seen names).1.filterMap index.get?).length + index.ahead (unseen seen names).2 ≤
      index.ahead seen := by
  induction names generalizing seen with
  | nil => simp
  | cons name names ih =>
    rw [unseen_cons]
    split
    · exact ih seen
    · rename_i hc
      have hn : name ∉ seen := hc
      have hi := ih (seen.insert name)
      cases hg : index.get? name with
      | none =>
        have hle := @ahead_insert_le index seen name
        rw [List.filterMap_cons_none hg]
        dsimp only
        omega
      | some summary =>
        have hlt := ahead_insert hn hg
        rw [List.filterMap_cons_some hg, List.length_cons]
        dsimp only
        omega

theorem ahead_start (h : index.get? start = some summary) :
    index.ahead (Std.HashSet.emptyWithCapacity.insert start) + 1 ≤ index.size := by
  have hle := @ahead_insert index Std.HashSet.emptyWithCapacity summary start (by simp) h
  have hall : index.ahead Std.HashSet.emptyWithCapacity = index.size := by
    simp [ahead, size, names, Std.HashMap.length_keys]
  omega

structure Walk (index : ClassIndex) (start : BinaryName) (queue : List ClassSummary)
    (seen : Std.HashSet BinaryName) (found : List BinaryName) : Prop where
  reached : index.Reached start queue
  seen_iff : ∀ name, name ∈ seen ↔ name = start ∨ name ∈ found
  sound : ∀ name ∈ found, TransGen index.Extends start name ∧ name ≠ start
  closed : ∀ name ∈ seen, ∀ summary, index.get? name = some summary →
    summary ∈ queue ∨ ∀ super ∈ summary.supertypes, super ∈ seen

theorem walk_start (hk : index.Keyed) (h : index.get? start = some summary) :
    index.Walk start [summary] (Std.HashSet.emptyWithCapacity.insert start) [] where
  reached := reached_start hk h
  seen_iff := by
    intro name
    simp [@eq_comm _ start]
  sound := by simp
  closed := by
    intro name hn other ho
    have hsame : start = name := by simpa using hn
    subst hsame
    rw [h] at ho
    cases ho
    simp

namespace Walk

theorem step (hk : index.Keyed) (h : index.Walk start (summary :: queue) seen found) :
    index.Walk start (queue ++ (unseen seen summary.supertypes).1.filterMap index.get?)
      (unseen seen summary.supertypes).2
      ((unseen seen summary.supertypes).1.reverse ++ found) where
  reached := h.reached.step hk seen
  seen_iff := by
    intro name
    rw [mem_seen_iff, h.seen_iff, List.mem_append, List.mem_reverse, mem_unseen_iff, h.seen_iff]
    tauto
  sound := by
    intro name hm
    rcases List.mem_append.1 hm with hm | hm
    · obtain ⟨hs, hn⟩ := mem_unseen_iff.1 (List.mem_reverse.1 hm)
      obtain ⟨hg, hreach⟩ := h.reached summary (by simp)
      refine ⟨.tail' hreach ⟨summary, hg, hs⟩, ?_⟩
      intro he
      exact hn ((h.seen_iff name).2 (.inl he))
    · exact h.sound name hm
  closed := by
    intro name hm other ho
    by_cases hn : name ∈ seen
    · rcases h.closed name hn other ho with hq | hs
      · rcases List.mem_cons.1 hq with rfl | hq
        · exact .inr fun super hs => mem_seen_iff.2 (.inr hs)
        · exact .inl (List.mem_append_left _ hq)
      · exact .inr fun super hsuper => mem_seen_iff.2 (.inl (hs super hsuper))
    · -- a class that is met here goes into the queue
      have hs := (mem_seen_iff.1 hm).resolve_left hn
      have hu := mem_unseen_iff.2 ⟨hs, hn⟩
      exact .inl (List.mem_append_right _ (List.mem_filterMap.2 ⟨name, hu, ho⟩))

/-- Where no class waits, every supertype has been met. -/
theorem mem_found_iff (h : index.Walk start [] seen found) {name : BinaryName} :
    name ∈ found ↔ TransGen index.Extends start name ∧ name ≠ start := by
  constructor
  · exact h.sound name
  · rintro ⟨hreach, hne⟩
    have hnext : ∀ {sub super}, sub ∈ seen → index.Extends sub super → super ∈ seen := by
      rintro sub super hs ⟨summary, hg, hm⟩
      exact (h.closed sub hs summary hg).resolve_left (by simp) super hm
    have hseen : name ∈ seen := by
      clear hne
      induction hreach with
      | single he => exact hnext ((h.seen_iff start).2 (.inl rfl)) he
      | tail _ he ih => exact hnext ih he
    exact ((h.seen_iff name).1 hseen).resolve_left hne

end Walk

theorem mem_ancestorsFrom_iff (hk : index.Keyed) {fuel : Nat}
    (h : index.Walk start queue seen found) (hf : queue.length + index.ahead seen < fuel)
    {name : BinaryName} : name ∈ index.ancestorsFrom fuel queue seen found ↔
      TransGen index.Extends start name ∧ name ≠ start := by
  fun_induction ancestorsFrom index fuel queue seen found with
  | case1 => omega
  | case2 fuel seen found => rw [List.mem_reverse, h.mem_found_iff]
  | case3 fuel summary queue seen found fresh seen' hu ih =>
    have hstep := h.step hk
    have hle := @ahead_unseen index summary.supertypes seen
    rw [hu] at hstep hle
    apply ih hstep
    rw [List.length_append]
    rw [List.length_cons] at hf
    dsimp only at hle
    omega

/-- The walk lists the supertypes of an indexed class, direct and indirect ones, and nothing else. -/
theorem mem_ancestors_iff (hk : index.Keyed) {name : BinaryName} :
    name ∈ index.ancestors start.text ↔ TransGen index.Extends start name ∧ name ≠ start := by
  rw [ancestors, find?_text]
  cases hg : index.get? start with
  | none =>
    constructor
    · intro h
      simp at h
    · rintro ⟨hreach, -⟩
      obtain ⟨next, ⟨summary, hs, -⟩, -⟩ := TransGen.head'_iff.1 hreach
      simp [hg] at hs
  | some summary =>
    have hle := ahead_start hg
    have hn := hk start summary hg
    dsimp only
    rw [hn]
    apply mem_ancestorsFrom_iff hk (walk_start hk hg)
    rw [List.length_singleton]
    omega

end JarRename.ClassIndex
