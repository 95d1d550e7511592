import Mathlib
import JarRename.SlotVec

/-!
# Addresses ascend

In a vector that is built by pushing, every element stands where the one before it ends. The halving
search therefore finds an element exactly at its address, and a replacement of the same width moves
nothing.
-/
namespace JarRename.SlotVec

variable {α : Type} [HasWidth α]

/-- The entries stand one behind the other from `start` on, and the last one ends at `next`. -/
inductive Laid (start : Nat) : List (Nat × α) → Nat → Prop
  | empty : Laid start [] start
  | push {entries : List (Nat × α)} {next : Nat} {x : α} (prior : Laid start entries next)
      (wide : 0 < width x) : Laid start (entries ++ [(next, x)]) (next + width x)

def LaidFrom (start : Nat) (v : SlotVec α) : Prop := Laid start v.toList v.next

theorem laidFrom_emptyAt (start : Nat) : (emptyAt start : SlotVec α).LaidFrom start := Laid.empty

theorem LaidFrom.push {start : Nat} {v : SlotVec α} {x : α} (h : v.LaidFrom start)
    (wide : 0 < width x) (room : v.next + width x < addressCount) :
    (v.push x).LaidFrom start := by
  rw [LaidFrom, toList_push, next_push room]
  exact Laid.push h wide

/-- The elements can be added from the address `next` on without a wrap. -/
def Room (next : Nat) (xs : List α) : Prop :=
  xs ≠ [] → next + (xs.map width).sum < addressCount

theorem Room.of_cons {next : Nat} {x : α} {xs : List α} (h : Room next (x :: xs)) :
    next + width x < addressCount ∧ Room (next + width x) xs := by
  have hsum : next + (width x + (xs.map width).sum) < addressCount := by
    simpa using h (List.cons_ne_nil x xs)
  exact ⟨by omega, fun _ => by omega⟩

theorem Room.append {next : Nat} {xs ys : List α} (h : Room next xs)
    (h' : Room (next + (xs.map width).sum) ys) : Room next (xs ++ ys) := by
  intro hne
  rw [List.map_append, List.sum_append, ← Nat.add_assoc]
  by_cases hy : ys = []
  · subst hy
    simpa using h (by simpa using hne)
  · exact h' hy

theorem next_foldl_push {v : SlotVec α} {xs : List α} (room : Room v.next xs) :
    (xs.foldl SlotVec.push v).next = v.next + (xs.map width).sum := by
  induction xs generalizing v with
  | nil => rfl
  | cons x xs ih =>
    obtain ⟨hx, hxs⟩ := room.of_cons
    have hnext := next_push hx
    rw [List.foldl_cons, ih (hnext ▸ hxs), hnext, List.map_cons, List.sum_cons, Nat.add_assoc]

theorem LaidFrom.foldl_push {start : Nat} {v : SlotVec α} (h : v.LaidFrom start) (xs : List α)
    (wide : ∀ x ∈ xs, 0 < width x) (room : Room v.next xs) :
    (xs.foldl SlotVec.push v).LaidFrom start := by
  induction xs generalizing v with
  | nil => exact h
  | cons x xs ih =>
    obtain ⟨hx, hxs⟩ := room.of_cons
    exact ih (h.push (wide x (by simp)) hx) (fun y hy => wide y (by simp [hy]))
      (next_push hx ▸ hxs)

namespace Laid

variable {start next : Nat} {entries : List (Nat × α)}

theorem start_le (h : Laid start entries next) : start ≤ next := by
  induction h with
  | empty => exact le_rfl
  | push _ _ ih => omega

theorem address_bounds (h : Laid start entries next) {entry : Nat × α} (he : entry ∈ entries) :
    start ≤ entry.1 ∧ entry.1 + width entry.2 ≤ next := by
  induction h with
  | empty => simp at he
  | push prior _ ih =>
    have hs := prior.start_le
    rcases List.mem_append.1 he with he | he
    · have := ih he
      omega
    · rw [List.mem_singleton] at he
      subst he
      exact ⟨hs, le_rfl⟩

theorem width_pos (h : Laid start entries next) {entry : Nat × α} (he : entry ∈ entries) :
    0 < width entry.2 := by
  induction h with
  | empty => simp at he
  | push _ wide ih =>
    rcases List.mem_append.1 he with he | he
    · exact ih he
    · rw [List.mem_singleton] at he
      exact he ▸ wide

theorem address_lt (h : Laid start entries next) {entry : Nat × α} (he : entry ∈ entries) :
    entry.1 < next := by
  have hb := h.address_bounds he
  have hw := h.width_pos he
  omega

/-- No element begins inside another one. -/
theorem apart (h : Laid start entries next) {a b : Nat} {x y : α} (hx : (a, x) ∈ entries)
    (hy : (b, y) ∈ entries) : b ≤ a ∨ a + width x ≤ b := by
  induction h with
  | empty => simp at hx
  | @push entries next last prior _ ih =>
    rcases List.mem_append.1 hx with hx | hx <;> rcases List.mem_append.1 hy with hy | hy
    · exact ih hx hy
    · have hend := (prior.address_bounds hx).2
      cases List.mem_singleton.1 hy
      exact .inr hend
    · have hlt := prior.address_lt hy
      cases List.mem_singleton.1 hx
      exact .inl hlt.le
    · cases List.mem_singleton.1 hx
      cases List.mem_singleton.1 hy
      exact .inl le_rfl

theorem ascending (h : Laid start entries next) : entries.Pairwise (fun a b => a.1 < b.1) := by
  induction h with
  | empty => exact List.Pairwise.nil
  | push prior _ ih =>
    refine List.pairwise_append.2 ⟨ih, List.pairwise_singleton _ _, ?_⟩
    intro a ha b hb
    rw [List.mem_singleton] at hb
    subst hb
    exact prior.address_lt ha

theorem nodup (h : Laid start entries next) : (entries.map Prod.fst).Nodup :=
  List.pairwise_map.2 (h.ascending.imp fun hab => Nat.ne_of_lt hab)

theorem index_eq (h : Laid start entries next) {i j : Nat} (hi : i < entries.length)
    (hj : j < entries.length) (he : entries[i].1 = entries[j].1) : i = j := by
  rcases lt_trichotomy i j with hij | hij | hij
  · exact absurd he (Nat.ne_of_lt (List.pairwise_iff_getElem.1 h.ascending i j hi hj hij))
  · exact hij
  · exact absurd he.symm (Nat.ne_of_lt (List.pairwise_iff_getElem.1 h.ascending j i hj hi hij))

theorem next_eq (h : Laid start entries next) :
    next = start + (entries.map fun entry => width entry.2).sum := by
  induction h with
  | empty => simp
  | push _ _ ih =>
    rw [List.map_append, List.map_singleton, List.sum_append, List.sum_singleton, ← Nat.add_assoc,
      ← ih]

/-- An element stands behind the slots of those before it. -/
theorem address_eq (h : Laid start entries next) {before after : List (Nat × α)} {entry : Nat × α}
    (he : entries = before ++ entry :: after) :
    entry.1 = start + (before.map fun entry => width entry.2).sum := by
  induction h generalizing after with
  | empty => simp at he
  | @push entries next x prior _ ih =>
    rcases List.eq_nil_or_concat after with rfl | ⟨rest, last, rfl⟩
    · obtain ⟨rfl, hlast⟩ := List.append_inj' he rfl
      have hentry : (next, x) = entry := by simpa using hlast
      rw [← hentry]
      exact prior.next_eq
    · have hcut : entries ++ [(next, x)] = (before ++ entry :: rest) ++ [last] := by
        rw [he, List.concat_eq_append, List.append_assoc, List.cons_append]
      exact ih (List.append_inj' hcut rfl).1

/-- Where an element stands is a matter of the elements alone. -/
theorem mem_iff (h : Laid start entries next) {address : Nat} {x : α} :
    (address, x) ∈ entries ↔ ∃ before after, entries.map (·.2) = before ++ x :: after ∧
      address = start + (before.map width).sum := by
  constructor
  · intro hm
    obtain ⟨before, after, he⟩ := List.append_of_mem hm
    have ha := h.address_eq he
    refine ⟨before.map (·.2), after.map (·.2), by simp [he], ?_⟩
    rw [List.map_map]
    exact ha
  · rintro ⟨before, after, hm, rfl⟩
    obtain ⟨front, back, rfl, rfl, hback⟩ := List.map_eq_append_iff.1 hm
    obtain ⟨⟨address, y⟩, rest, rfl, rfl, rfl⟩ := List.map_eq_cons_iff.1 hback
    have ha := h.address_eq rfl
    rw [List.map_map]
    simp [← show address = _ from ha, Function.comp_def]

/-- An address belongs to one element only. -/
theorem eq_of_address (h : Laid start entries next) {a : Nat} {x y : α} (hx : (a, x) ∈ entries)
    (hy : (a, y) ∈ entries) : x = y := by
  have he := List.inj_on_of_nodup_map h.nodup hx hy rfl
  exact (Prod.mk.inj he).2

end Laid

/-- What stands at an address after a replacement at `offset`. -/
def replaced (offset : Nat) (x : α) (entry : Nat × α) : Nat × α :=
  if entry.1 = offset then (entry.1, x) else entry

omit [HasWidth α] in
@[simp] theorem replaced_fst (offset : Nat) (x : α) (entry : Nat × α) :
    (replaced offset x entry).1 = entry.1 := by
  unfold replaced
  split <;> rfl

theorem Laid.map_replaced {start next offset : Nat} {entries : List (Nat × α)} {x : α}
    (h : Laid start entries next) (same : ∀ y, (offset, y) ∈ entries → width x = width y) :
    Laid start (entries.map (replaced offset x)) next := by
  induction h with
  | empty => exact Laid.empty
  | @push entries next y prior wide ih =>
    have hp := ih fun z hz => same z (by simp [hz])
    have hw : width (replaced offset x (next, y)).2 = width y := by
      unfold replaced
      split
      · rename_i he
        exact same y (by simp [show next = offset from he])
      · rfl
    have hn : replaced offset x (next, y) = (next, (replaced offset x (next, y)).2) :=
      Prod.ext (replaced_fst ..) rfl
    rw [List.map_append, List.map_singleton, hn, ← hw]
    exact Laid.push hp (hw ▸ wide)

omit [HasWidth α] in
/-- The search stops between the addresses up to `offset` and those beyond. -/
theorem countUpTo_spec {entries : Array (Nat × α)} (offset low high : Nat)
    (bound : high ≤ entries.size) (sorted : entries.toList.Pairwise (fun a b => a.1 < b.1))
    (hle : low ≤ high)
    (below : ∀ k (hk : k < entries.size), k < low → entries[k].1 ≤ offset)
    (beyond : ∀ k (hk : k < entries.size), high ≤ k → offset < entries[k].1) :
    countUpTo entries offset low high bound ≤ high ∧
    (∀ k (hk : k < entries.size), k < countUpTo entries offset low high bound →
      entries[k].1 ≤ offset) ∧
    (∀ k (hk : k < entries.size), countUpTo entries offset low high bound ≤ k →
      offset < entries[k].1) := by
  have mono : ∀ i j (hi : i < entries.size) (hj : j < entries.size), i < j →
      entries[i].1 < entries[j].1 := fun i j hi hj hij =>
    List.pairwise_iff_getElem.1 sorted i j hi hj hij
  fun_induction countUpTo entries offset low high bound with
  | case1 low high bound hlt middle inside hm ih =>
    refine ih (by omega) (fun k hk hkm => ?_) beyond
    rcases Nat.lt_or_eq_of_le (Nat.le_of_lt_succ hkm) with hlt | rfl
    · exact (mono k middle hk inside hlt).le.trans hm
    · exact hm
  | case2 low high bound hlt middle inside hm ih =>
    have hi := ih (by omega) below (fun k hk hkm => ?_)
    · exact ⟨hi.1.trans (by omega), hi.2⟩
    · rcases Nat.lt_or_eq_of_le hkm with hlt | rfl
      · exact (Nat.lt_of_not_le hm).trans (mono middle k inside hk hlt)
      · exact Nat.lt_of_not_le hm
  | case3 low high bound hlt =>
    exact ⟨hle, below, fun k hk hkl => beyond k hk (by omega)⟩

section Laid

variable {start : Nat} {v : SlotVec α}

/-- All elements up to the last one that begins at the offset or before it are counted. -/
theorem countUpTo_eq (h : v.LaidFrom start) {offset i : Nat} (hi : i < v.entries.size)
    (reached : v.entries[i].1 ≤ offset)
    (behind : ∀ hn : i + 1 < v.entries.size, offset < v.entries[i + 1].1) :
    countUpTo v.entries offset 0 v.entries.size le_rfl = i + 1 := by
  have hs := countUpTo_spec offset 0 v.entries.size le_rfl h.ascending (Nat.zero_le _)
    (fun k _ hk => absurd hk (Nat.not_lt_zero k)) (fun k hk hle => absurd hk (Nat.not_lt.2 hle))
  generalize countUpTo v.entries offset 0 v.entries.size le_rfl = count at hs ⊢
  obtain ⟨most, below, beyond⟩ := hs
  have hcounted : i < count := by
    by_contra hn
    exact Nat.not_le_of_lt (beyond i hi (by omega)) reached
  have hlast : ¬i + 1 < count := by
    intro hn
    exact Nat.not_le_of_lt (behind (by omega)) (below (i + 1) (by omega) hn)
  omega

/-- The answer of the search is read off the last element that begins at the offset or before. -/
theorem indexOf_eq (h : v.LaidFrom start) {offset i : Nat} (hi : i < v.entries.size)
    (reached : v.entries[i].1 ≤ offset)
    (behind : ∀ hn : i + 1 < v.entries.size, offset < v.entries[i + 1].1) :
    v.indexOf offset =
      if v.entries[i].1 = offset then .ok i
      else if i + 1 = v.entries.size then .error .tooLarge
      else .error (.invalidOffset (i + 1)) := by
  unfold indexOf
  simp only [countUpTo_eq h hi reached behind, Nat.add_sub_cancel, Array.getElem?_eq_getElem hi]

omit [HasWidth α] in
theorem getElem?_of_indexOf {offset i : Nat} (h : v.indexOf offset = .ok i) :
    ∃ x, v.entries[i]? = some (offset, x) := by
  unfold indexOf at h
  dsimp only at h
  split at h
  · cases h
  · rename_i address x hx
    split at h
    · rename_i ha
      cases h
      exact ⟨x, ha ▸ hx⟩
    · split at h <;> cases h

theorem get_ok_iff (h : v.LaidFrom start) {offset i : Nat} {x : α} :
    v.get offset = .ok (i, x) ↔ v.entries[i]? = some (offset, x) := by
  constructor
  · intro hg
    unfold get at hg
    split at hg
    · cases hg
    · rename_i index hi
      obtain ⟨y, hy⟩ := getElem?_of_indexOf hi
      rw [hy] at hg
      cases hg
      exact hy
  · intro hx
    obtain ⟨hi, he⟩ := Array.getElem?_eq_some_iff.1 hx
    have behind : ∀ hn : i + 1 < v.entries.size, offset < v.entries[i + 1].1 := by
      intro hn
      have ha := List.pairwise_iff_getElem.1 h.ascending i (i + 1) hi hn (Nat.lt_succ_self i)
      simpa [toList, he] using ha
    have hindex := indexOf_eq h hi (he ▸ le_rfl) behind
    rw [if_pos (congrArg Prod.fst he)] at hindex
    unfold get
    rw [hindex]
    simp only [hx]

theorem get_ok_iff_toList (h : v.LaidFrom start) {offset i : Nat} {x : α} :
    v.get offset = .ok (i, x) ↔ v.toList[i]? = some (offset, x) := by
  rw [get_ok_iff h, toList, Array.getElem?_toList]

theorem exists_get_iff (h : v.LaidFrom start) {offset : Nat} {x : α} :
    (∃ i, v.get offset = .ok (i, x)) ↔ (offset, x) ∈ v.toList := by
  simp only [get_ok_iff h, toList, Array.mem_toList_iff, Array.mem_iff_getElem?]

/-- A replacement that succeeds changes the element at its address and nothing else. -/
theorem set_ok (h : v.LaidFrom start) {w : SlotVec α} {offset i : Nat} {x : α}
    (hs : v.set offset x = (.ok i, w)) :
    (∃ old, (offset, old) ∈ v.toList ∧ width x = width old) ∧ w.next = v.next ∧
      w.toList = v.toList.map (replaced offset x) := by
  unfold set at hs
  split at hs
  · simp at hs
  · rename_i j old hg
    have hj := (get_ok_iff h).1 hg
    obtain ⟨hlt, he⟩ := Array.getElem?_eq_some_iff.1 hj
    split at hs
    · rename_i hw
      simp only [Prod.mk.injEq, Except.ok.injEq] at hs
      obtain ⟨rfl, rfl⟩ := hs
      refine ⟨⟨old, (exists_get_iff h).1 ⟨_, hg⟩, hw⟩, rfl, ?_⟩
      apply List.ext_getElem
      · simp [toList]
      · intro k hk hk'
        simp only [toList, Array.getElem_toList, Array.getElem_modify, List.getElem_map]
        split
        · rename_i hkj
          subst hkj
          simp [he, replaced]
        · rename_i hkj
          rw [replaced, if_neg]
          intro ha
          have hk' : k < v.entries.size := by simpa [toList] using hk
          exact hkj (h.index_eq (i := j) (j := k) hlt hk' (by simp [toList, he, ha]))
    · simp at hs

theorem set_error {w : SlotVec α} {offset : Nat} {x : α} {e : SlotError}
    (hs : v.set offset x = (.error e, w)) : w = v := by
  unfold set at hs
  split at hs
  · exact (Prod.mk.inj hs).2.symm
  · split at hs
    · simp at hs
    · exact (Prod.mk.inj hs).2.symm

theorem next_set {w : SlotVec α} {offset : Nat} {x : α} {result : Except SlotError Nat}
    (hs : v.set offset x = (result, w)) : w.next = v.next := by
  unfold set at hs
  split at hs
  · cases hs
    rfl
  · split at hs <;> cases hs <;> rfl

/-- A replacement succeeds where an element of the same width stands. -/
theorem set_ok_iff (h : v.LaidFrom start) {offset i : Nat} {x : α} :
    (v.set offset x).1 = .ok i ↔
      ∃ old, v.toList[i]? = some (offset, old) ∧ width x = width old := by
  unfold set
  cases hg : v.get offset with
  | error e =>
    refine iff_of_false (fun hok => by cases hok) ?_
    rintro ⟨old, hold, -⟩
    cases hg.symm.trans ((get_ok_iff_toList h).2 hold)
  | ok found =>
    obtain ⟨j, old⟩ := found
    constructor
    · intro hok
      dsimp only at hok
      split at hok
      · rename_i hw
        cases hok
        exact ⟨old, (get_ok_iff_toList h).1 hg, hw⟩
      · cases hok
    · rintro ⟨other, hi, hw⟩
      cases hg.symm.trans ((get_ok_iff_toList h).2 hi)
      dsimp only
      rw [if_pos hw]

/-- A replacement that succeeds puts the new value in the place of the old one. -/
theorem toList_set (h : v.LaidFrom start) {w : SlotVec α} {offset i : Nat} {x : α}
    (hs : v.set offset x = (.ok i, w)) : w.toList = v.toList.set i (offset, x) := by
  obtain ⟨old, hi, -⟩ := (set_ok_iff h).1 (congrArg Prod.fst hs)
  obtain ⟨hlt, he⟩ := List.getElem?_eq_some_iff.1 hi
  rw [(set_ok h hs).2.2]
  refine List.ext_getElem (by simp) fun k hk hk' => ?_
  rw [List.getElem_map, List.getElem_set]
  have hkv : k < v.toList.length := by simpa using hk
  by_cases hki : i = k
  · subst hki
    rw [if_pos rfl, he, replaced, if_pos rfl]
  · rw [if_neg hki, replaced, if_neg]
    intro ha
    exact hki (h.index_eq hlt hkv (by rw [he, ha]))

theorem LaidFrom.set (h : v.LaidFrom start) {w : SlotVec α} {offset : Nat} {x : α}
    {result : Except SlotError Nat} (hs : v.set offset x = (result, w)) : w.LaidFrom start := by
  cases result with
  | error e => exact set_error hs ▸ h
  | ok i =>
    obtain ⟨⟨old, hold, hw⟩, hn, hl⟩ := set_ok h hs
    rw [LaidFrom, hn, hl]
    exact Laid.map_replaced h fun y hy => hw.trans (congrArg width (h.eq_of_address hold hy))

end Laid

end JarRename.SlotVec
