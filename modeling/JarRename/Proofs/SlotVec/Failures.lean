import Mathlib
import JarRename.Proofs.ConstantPool

/-!
# What a search says that fails

From the start on, every offset is the address of an element, lies inside an element or lies beyond
all of them. Inside an element the search names the element behind it, or calls the offset too large
where there is none; so a failure is `Documented` beyond all elements and nowhere else.
-/
namespace JarRename.SlotVec

variable {α : Type} [HasWidth α]

/-- The offset lies in the element with the index, behind its first slot. -/
def Inside (v : SlotVec α) (i offset : Nat) : Prop :=
  ∃ address x, v.toList[i]? = some (address, x) ∧ address < offset ∧ offset < address + width x

/-- What an error is said to mean: an offset beyond all elements, or inside the one with the
index. -/
def Documented (v : SlotVec α) (offset : Nat) : SlotError → Prop
  | .tooLarge => v.next ≤ offset
  | .invalidOffset i => v.Inside i offset
  | .incompatibleWidth _ _ => False

/-- The elements cover all slots from the start to the end. -/
theorem Laid.exists_covering {start next offset : Nat} {entries : List (Nat × α)}
    (h : Laid start entries next) (hs : start ≤ offset) (hn : offset < next) :
    ∃ (i address : Nat) (x : α), entries[i]? = some (address, x) ∧ address ≤ offset ∧
      offset < address + width x := by
  induction h with
  | empty => omega
  | @push entries next x prior _ ih =>
    by_cases hp : offset < next
    · obtain ⟨i, address, y, hy, hcover⟩ := ih hp
      have hi := (List.getElem?_eq_some_iff.1 hy).1
      exact ⟨i, address, y, by rw [List.getElem?_append_left hi, hy], hcover⟩
    · exact ⟨entries.length, next, x, List.getElem?_concat_length, by omega, hn⟩

section Laid

variable {start offset : Nat} {v : SlotVec α}

theorem cases_of_start_le (h : v.LaidFrom start) (hs : start ≤ offset) :
    (∃ (i : Nat) (x : α), v.toList[i]? = some (offset, x)) ∨ (∃ i, v.Inside i offset) ∨
      v.next ≤ offset := by
  by_cases hn : offset < v.next
  · obtain ⟨i, address, x, hx, hle, hlt⟩ := Laid.exists_covering h hs hn
    rcases Nat.lt_or_eq_of_le hle with hin | rfl
    · exact .inr (.inl ⟨i, address, x, hx, hin, hlt⟩)
    · exact .inl ⟨i, x, hx⟩
  · exact .inr (.inr (Nat.le_of_not_lt hn))

omit [HasWidth α] in
theorem get_of_indexOf_error {e : SlotError} (h : v.indexOf offset = .error e) :
    v.get offset = .error e := by
  unfold get
  rw [h]

theorem Inside.lt_next (h : v.LaidFrom start) {i : Nat} (hi : v.Inside i offset) :
    offset < v.next := by
  obtain ⟨address, x, hx, -, hlt⟩ := hi
  have hend := (Laid.address_bounds h (List.mem_of_getElem? hx)).2
  dsimp only at hend
  omega

/-- The search passes the element that the offset lies in. -/
theorem get_inside (h : v.LaidFrom start) {i : Nat} (hi : v.Inside i offset) :
    v.get offset = .error (if i + 1 = v.size then .tooLarge else .invalidOffset (i + 1)) := by
  obtain ⟨address, x, hx, hlo, hhi⟩ := hi
  obtain ⟨hlt, he⟩ := List.getElem?_eq_some_iff.1 hx
  have haddress : v.entries[i].1 = address := congrArg Prod.fst he
  have behind : ∀ hn : i + 1 < v.entries.size, offset < v.entries[i + 1].1 := by
    intro hn
    have hascending := List.pairwise_iff_getElem.1 h.ascending i (i + 1) hlt hn i.lt_succ_self
    have hmem : (v.entries[i + 1].1, v.entries[i + 1].2) ∈ v.toList := List.getElem_mem hn
    have hapart := Laid.apart h (List.mem_of_getElem? hx) hmem
    rw [he] at hascending
    simp only [toList, Array.getElem_toList] at hascending
    omega
  have hindex := indexOf_eq h hlt (by omega) behind
  rw [if_neg (by omega)] at hindex
  refine get_of_indexOf_error (hindex.trans ?_)
  unfold size
  split <;> rfl

theorem get_beyond (h : v.LaidFrom start) (hn : v.next ≤ offset) :
    v.get offset = .error .tooLarge := by
  by_cases hempty : v.entries.size = 0
  · apply get_of_indexOf_error
    unfold indexOf
    simp [hempty]
  · obtain ⟨i, hsize⟩ := Nat.exists_eq_succ_of_ne_zero hempty
    have hi : i < v.entries.size := by omega
    have hlast := h.address_lt (List.getElem_mem (l := v.toList) hi)
    simp only [toList, Array.getElem_toList] at hlast
    have hindex := indexOf_eq h hi (hlast.le.trans hn) fun hmore => absurd hmore (by omega)
    rw [if_neg (by omega), if_pos hsize.symm] at hindex
    exact get_of_indexOf_error hindex

theorem Inside.lt_size {i : Nat} (hi : v.Inside i offset) : i < v.size := by
  obtain ⟨address, x, hx, -⟩ := hi
  exact (List.getElem?_eq_some_iff.1 hx).1

/-- An offset lies inside one element at most. -/
theorem Inside.unique (h : v.LaidFrom start) {i j : Nat} (hi : v.Inside i offset)
    (hj : v.Inside j offset) : i = j := by
  have hsame := (get_inside h hi).symm.trans (get_inside h hj)
  split_ifs at hsame
  · omega
  · cases hsame
  · cases hsame
  · cases hsame
    rfl

theorem get_tooLarge_iff (h : v.LaidFrom start) (hs : start ≤ offset) :
    v.get offset = .error .tooLarge ↔ v.next ≤ offset ∨ v.Inside (v.size - 1) offset := by
  constructor
  · intro hg
    rcases cases_of_start_le h hs with ⟨i, x, hx⟩ | ⟨i, hi⟩ | hn
    · cases hg.symm.trans ((get_ok_iff_toList h).2 hx)
    · have hget := get_inside h hi
      rw [hg] at hget
      split_ifs at hget with hlast
      · exact .inr (by rwa [← hlast, Nat.add_sub_cancel])
      · cases hget
    · exact .inl hn
  · rintro (hn | hi)
    · exact get_beyond h hn
    · have hlt := hi.lt_size
      rw [get_inside h hi, if_pos (by omega)]

theorem get_invalidOffset_iff (h : v.LaidFrom start) (hs : start ≤ offset) (i : Nat) :
    v.get offset = .error (.invalidOffset i) ↔
      ∃ j, i = j + 1 ∧ i < v.size ∧ v.Inside j offset := by
  constructor
  · intro hg
    rcases cases_of_start_le h hs with ⟨j, x, hx⟩ | ⟨j, hj⟩ | hn
    · cases hg.symm.trans ((get_ok_iff_toList h).2 hx)
    · have hlt := hj.lt_size
      have hget := get_inside h hj
      rw [hg] at hget
      split_ifs at hget with hlast
      · cases hget
      · cases hget
        exact ⟨j, rfl, by omega, hj⟩
    · cases hg.symm.trans (get_beyond h hn)
  · rintro ⟨j, rfl, hlt, hj⟩
    rw [get_inside h hj, if_neg (by omega)]

theorem documented_iff (h : v.LaidFrom start) (hs : start ≤ offset) {e : SlotError}
    (hg : v.get offset = .error e) : v.Documented offset e ↔ v.next ≤ offset := by
  rcases cases_of_start_le h hs with ⟨i, x, hx⟩ | ⟨i, hi⟩ | hn
  · cases hg.symm.trans ((get_ok_iff_toList h).2 hx)
  · have hlt := hi.lt_next h
    have hget := get_inside h hi
    rw [hg] at hget
    split_ifs at hget
    · cases hget
      exact Iff.rfl
    · cases hget
      -- The next element is named, and the offset cannot lie in that one as well.
      refine iff_of_false (fun hnext => ?_) (by omega)
      exact absurd (hi.unique h hnext) (by omega)
  · cases hg.symm.trans (get_beyond h hn)
    exact Iff.rfl

end Laid

/-- Whatever is pushed, the search fails with the index of the next element inside an element, and
as if the offset were too large inside the last one; so what a failure says is documented beyond all
elements only. -/
theorem failure_exact (start : Nat) (xs : List α) (wide : ∀ x ∈ xs, 0 < width x)
    (room : start + (xs.map width).sum < addressCount) {offset : Nat} (hs : start ≤ offset) :
    let v := xs.foldl push (emptyAt start)
    (v.get offset = .error .tooLarge ↔ v.next ≤ offset ∨ v.Inside (v.size - 1) offset) ∧
    (∀ i, v.get offset = .error (.invalidOffset i) ↔
      ∃ j, i = j + 1 ∧ i < v.size ∧ v.Inside j offset) ∧
    ∀ e, v.get offset = .error e → (v.Documented offset e ↔ v.next ≤ offset) := by
  intro v
  have h : v.LaidFrom start := (laidFrom_emptyAt start).foldl_push xs wide fun _ => room
  exact ⟨get_tooLarge_iff h hs, get_invalidOffset_iff h hs, fun _ => documented_iff h hs⟩

/-- An element of one slot, an element of two, and the same again. -/
def sampleVec : SlotVec Constant :=
  [.integer 1, .long 2, .integer 3, .long 4].foldl push (emptyAt 1)

theorem inside_sampleVec : sampleVec.Inside 1 3 ∧ sampleVec.Inside 3 6 :=
  ⟨⟨2, .long 2, rfl, by decide, by decide⟩, ⟨5, .long 4, rfl, by decide, by decide⟩⟩

theorem failure_exact_sample :
    (∀ x ∈ [Constant.integer 1, .long 2, .integer 3, .long 4], 0 < width x) ∧
      1 + ([Constant.integer 1, .long 2, .integer 3, .long 4].map width).sum < addressCount ∧
      sampleVec.get 3 = .error (.invalidOffset 2) ∧ ¬sampleVec.Documented 3 (.invalidOffset 2) ∧
      sampleVec.get 6 = .error .tooLarge ∧ ¬sampleVec.Documented 6 .tooLarge := by
  have wide : ∀ x ∈ [Constant.integer 1, .long 2, .integer 3, .long 4], 0 < width x :=
    fun x _ => x.width_pos
  have room : 1 + ([Constant.integer 1, .long 2, .integer 3, .long 4].map width).sum <
      addressCount := by decide
  obtain ⟨-, hinvalid, hdocumented⟩ := failure_exact 1 _ wide room (show 1 ≤ 3 by decide)
  obtain ⟨htoo, -, hdocumented'⟩ := failure_exact 1 _ wide room (show 1 ≤ 6 by decide)
  have hthree := (hinvalid 2).2 ⟨1, rfl, by decide, inside_sampleVec.1⟩
  have hsix := htoo.2 (.inr inside_sampleVec.2)
  exact ⟨wide, room, hthree, mt (hdocumented _ hthree).1 (by decide), hsix,
    mt (hdocumented' _ hsix).1 (by decide)⟩

/-- Before the end of the vector, but inside the last element, the offset counts as too large. -/
theorem last_element_missed :
    let v := [Constant.integer 1, .long 2].foldl push (emptyAt 1)
    v.Inside 1 3 ∧ v.get 3 ≠ .error (.invalidOffset 1) ∧
      v.get 3 = .error .tooLarge ∧ ¬v.next ≤ 3 := by
  intro v
  have h : v.LaidFrom 1 :=
    (laidFrom_emptyAt 1).foldl_push _ (fun x _ => x.width_pos) fun _ => by decide
  have hin : v.Inside 1 3 := ⟨2, .long 2, rfl, by decide, by decide⟩
  have hget : v.get 3 = .error .tooLarge := get_inside h hin
  refine ⟨hin, ?_, hget, by decide⟩
  rw [hget]
  decide

end JarRename.SlotVec
