import Mathlib
import JarRename.Hierarchy.Resolver
import JarRename.Proofs.Hierarchy.Cycles
import JarRename.Proofs.Hierarchy.Index

/-!
# The class that declares a member

The search for it stays among the class it starts from and the supertypes of that class. A resolver
gives the answer of the search, whatever it has been asked before.
-/
namespace JarRename

namespace ClassIndex

open Relation

@[simp] theorem unseen_nil (seen : Std.HashSet BinaryName) : unseen seen [] = ([], seen) := rfl

/-- Marks one name, the new ones last one first. -/
def mark (state : List BinaryName × Std.HashSet BinaryName) (name : BinaryName) :
    List BinaryName × Std.HashSet BinaryName :=
  if state.2.contains name then state else (name :: state.1, state.2.insert name)

theorem unseen_eq (seen : Std.HashSet BinaryName) (names : List BinaryName) :
    unseen seen names =
      ((names.foldl mark ([], seen)).1.reverse, (names.foldl mark ([], seen)).2) := rfl

theorem foldl_mark (names fresh : List BinaryName) (seen : Std.HashSet BinaryName) :
    names.foldl mark (fresh, seen) =
      ((names.foldl mark ([], seen)).1 ++ fresh, (names.foldl mark ([], seen)).2) := by
  induction names generalizing fresh seen with
  | nil => rfl
  | cons name names ih =>
    rw [List.foldl_cons, List.foldl_cons, mark, mark]
    dsimp only
    split
    · exact ih fresh seen
    · rw [ih (name :: fresh), ih [name], List.append_assoc, List.singleton_append]

theorem unseen_cons (seen : Std.HashSet BinaryName) (name : BinaryName) (names : List BinaryName) :
    unseen seen (name :: names) =
      if seen.contains name then unseen seen names
      else (name :: (unseen (seen.insert name) names).1, (unseen (seen.insert name) names).2) := by
  rw [unseen_eq, List.foldl_cons, mark]
  dsimp only
  split
  · rfl
  · rw [foldl_mark, unseen_eq, List.reverse_append, List.reverse_singleton, List.singleton_append]

theorem mem_unseen_iff {seen : Std.HashSet BinaryName} {names : List BinaryName}
    {name : BinaryName} : name ∈ (unseen seen names).1 ↔ name ∈ names ∧ name ∉ seen := by
  induction names generalizing seen with
  | nil => simp
  | cons other names ih =>
    rw [unseen_cons]
    split
    · rename_i hc
      have ho : other ∈ seen := hc
      rw [ih, List.mem_cons]
      constructor
      · rintro ⟨hm, hn⟩
        exact ⟨.inr hm, hn⟩
      · rintro ⟨rfl | hm, hn⟩
        · exact absurd ho hn
        · exact ⟨hm, hn⟩
    · rename_i hc
      have ho : other ∉ seen := hc
      rw [List.mem_cons, ih, List.mem_cons, Std.HashSet.mem_insert]
      by_cases he : name = other
      · subst he
        simp [ho]
      · simp [he, Ne.symm he]

theorem mem_seen_iff {seen : Std.HashSet BinaryName} {names : List BinaryName}
    {name : BinaryName} : name ∈ (unseen seen names).2 ↔ name ∈ seen ∨ name ∈ names := by
  induction names generalizing seen with
  | nil => simp
  | cons other names ih =>
    rw [unseen_cons]
    split
    · rename_i hc
      have ho : other ∈ seen := hc
      rw [ih, List.mem_cons]
      constructor
      · rintro (hm | hm)
        · exact .inl hm
        · exact .inr (.inr hm)
      · rintro (hm | rfl | hm)
        · exact .inl hm
        · exact .inl ho
        · exact .inr hm
    · rw [ih, Std.HashSet.mem_insert, List.mem_cons, beq_iff_eq, eq_comm, or_assoc, or_left_comm]

theorem nodup_unseen (seen : Std.HashSet BinaryName) (names : List BinaryName) :
    (unseen seen names).1.Nodup := by
  induction names generalizing seen with
  | nil => simp
  | cons name names ih =>
    rw [unseen_cons]
    split
    · exact ih seen
    · have hnot : name ∉ (unseen (seen.insert name) names).1 := by
        intro hm
        have hn := (mem_unseen_iff.1 hm).2
        simp at hn
      exact List.nodup_cons.2 ⟨hnot, ih (seen.insert name)⟩

variable {index : ClassIndex} {start : BinaryName} {queue : List ClassSummary}
  {summary : ClassSummary} {kind : MemberKind} {member : MemberKey}

/-- The classes in the queue are indexed, and are `start` or supertypes of it. -/
def Reached (index : ClassIndex) (start : BinaryName) (queue : List ClassSummary) : Prop :=
  ∀ summary ∈ queue, index.get? summary.name = some summary ∧
    ReflTransGen index.Extends start summary.name

theorem reached_start (hk : index.Keyed) (h : index.get? start = some summary) :
    index.Reached start [summary] := by
  intro other hm
  cases List.mem_singleton.1 hm
  have hn := hk start summary h
  subst hn
  exact ⟨h, .refl⟩

theorem Reached.step (hk : index.Keyed) (h : index.Reached start (summary :: queue))
    (seen : Std.HashSet BinaryName) :
    index.Reached start (queue ++ (unseen seen summary.supertypes).1.filterMap index.get?) := by
  intro other hm
  rcases List.mem_append.1 hm with hm | hm
  · exact h other (List.mem_cons_of_mem _ hm)
  · obtain ⟨name, hn, hg⟩ := List.mem_filterMap.1 hm
    have hsame := hk name other hg
    subst hsame
    obtain ⟨hsum, hreach⟩ := h summary (by simp)
    exact ⟨hg, hreach.tail ⟨summary, hsum, (mem_unseen_iff.1 hn).1⟩⟩

theorem declares_of_findOwnerFrom (hk : index.Keyed) {fuel : Nat} {seen : Std.HashSet BinaryName}
    (hq : index.Reached start queue) {owner : BinaryName}
    (h : index.findOwnerFrom kind member fuel queue seen = some owner) :
    ∃ declaring, index.get? owner = some declaring ∧ declaring.declares kind member = true ∧
      ReflTransGen index.Extends start owner := by
  fun_induction findOwnerFrom index kind member fuel queue seen with
  | case1 => simp at h
  | case2 => simp at h
  | case3 fuel summary queue seen hd =>
    cases h
    obtain ⟨hg, hreach⟩ := hq summary (by simp)
    exact ⟨summary, hg, hd, hreach⟩
  | case4 fuel summary queue seen hd fresh seen' hu ih =>
    have hstep := hq.step hk seen
    rw [hu] at hstep
    exact ih hstep h

theorem exists_name_of_findOwner {text : String} {owner : BinaryName}
    (h : index.findOwner text kind member = some owner) :
    ∃ start summary, BinaryName.text start = text ∧ index.get? start = some summary := by
  unfold findOwner at h
  split at h
  · simp at h
  · rename_i summary hf
    obtain ⟨start, hs, hg⟩ := exists_name_of_find? hf
    exact ⟨start, summary, hs, hg⟩

/-- The owner declares the member and stands in the hierarchy of the class asked about. -/
theorem declares_of_findOwner (hk : index.Keyed) {owner : BinaryName}
    (h : index.findOwner start.text kind member = some owner) :
    ∃ declaring, index.get? owner = some declaring ∧ declaring.declares kind member = true ∧
      ReflTransGen index.Extends start owner := by
  rw [findOwner, find?_text] at h
  rcases hg : index.get? start with _ | summary
  · simp [hg] at h
  · rw [hg] at h
    exact declares_of_findOwnerFrom hk (reached_start hk hg) h

theorem findOwner_self (hk : index.Keyed) (h : index.get? start = some summary)
    (hd : summary.declares kind member = true) :
    index.findOwner start.text kind member = some start := by
  simp [findOwner, h, findOwnerFrom, hd, hk start summary h]

end ClassIndex

namespace Resolver

open ClassIndex

/-- A resolver that may have been asked questions before. -/
inductive Asked (index : ClassIndex) : Resolver → Prop
  | fresh {resolver : Resolver} (h : ofIndex index = .ok resolver) : Asked index resolver
  | resolve {resolver : Resolver} (h : Asked index resolver) (start : String) (kind : MemberKind)
      (member : MemberKey) : Asked index (resolver.resolve start kind member).2

/-- Answers that are remembered are those of the search. -/
structure Faithful (index : ClassIndex) (resolver : Resolver) : Prop where
  same : resolver.index = index
  answers : ∀ (query : MemberQuery) answer, resolver.answers[query]? = some answer →
    answer = index.findOwner query.start.text query.kind query.member

variable {index : ClassIndex} {resolver : Resolver}

theorem ofIndex_ok_iff :
    ofIndex index = .ok resolver ↔ index.findCycle? = none ∧ resolver = ⟨index, ∅⟩ := by
  unfold ofIndex
  split
  · rename_i h
    simp [h, eq_comm]
  · rename_i h
    simp [h]

theorem Faithful.resolve (hk : index.Keyed) (h : Faithful index resolver) (start : String)
    (kind : MemberKind) (member : MemberKey) :
    (resolver.resolve start kind member).1 = index.findOwner start kind member ∧
      Faithful index (resolver.resolve start kind member).2 := by
  unfold Resolver.resolve
  rw [h.same]
  split
  · rename_i hf
    exact ⟨by simp [findOwner, hf], h⟩
  · rename_i summary hf
    obtain ⟨name, rfl, hg⟩ := exists_name_of_find? hf
    have hn := hk name summary hg
    subst hn
    dsimp only
    split
    · rename_i answer ha
      have hs := h.answers ⟨summary.name, kind, member⟩ answer ha
      exact ⟨hs, h⟩
    · refine ⟨rfl, rfl, fun query answer ha => ?_⟩
      rw [Std.HashMap.getElem?_insert] at ha
      split at ha
      · rename_i heq
        have hq := eq_of_beq heq
        subst hq
        exact (Option.some.inj ha).symm
      · exact h.answers query answer ha

theorem Asked.faithful (hk : index.Keyed) (h : Asked index resolver) : Faithful index resolver := by
  induction h with
  | fresh h =>
    obtain ⟨-, rfl⟩ := ofIndex_ok_iff.1 h
    exact ⟨rfl, by simp⟩
  | resolve _ start kind member ih => exact (ih.resolve hk start kind member).2

theorem Asked.findCycle?_eq_none (h : Asked index resolver) : index.findCycle? = none := by
  induction h with
  | fresh h => exact (ofIndex_ok_iff.1 h).1
  | resolve _ _ _ _ ih => exact ih

/-- What has been asked before makes no difference. -/
theorem Asked.resolve_eq (hk : index.Keyed) (h : Asked index resolver) (start : String)
    (kind : MemberKind) (member : MemberKey) :
    (resolver.resolve start kind member).1 = index.findOwner start kind member :=
  ((h.faithful hk).resolve hk start kind member).1

end Resolver

end JarRename
