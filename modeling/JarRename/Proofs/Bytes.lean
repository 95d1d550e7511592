import Mathlib
import JarRename.Bytes

/-!
# Readers that undo writers

`Accepts reader write valid` says that a reader accepts exactly what writing the valid values
produces, and leaves what follows. The law holds of words and is kept by lists behind their count.
A reader made of several parts is opened by `bind_ok_iff` and `pure_ok_iff`.
-/
namespace JarRename

namespace Bytes

theorem toNat_append (front back : Bytes) :
    toNat (front ++ back) = toNat front * 256 ^ back.length + toNat back := by
  induction back using List.reverseRecOn with
  | nil => simp [toNat]
  | append_singleton back b ih =>
    simp only [toNat, ← List.append_assoc, List.foldl_append, List.foldl_cons, List.foldl_nil,
      List.length_append, List.length_singleton, pow_succ] at ih ⊢
    rw [ih]
    ring

@[simp] theorem toNat_singleton (b : UInt8) : toNat [b] = b.toNat := by simp [toNat]

theorem toNat_lt (bytes : Bytes) : toNat bytes < 256 ^ bytes.length := by
  induction bytes using List.reverseRecOn with
  | nil => simp [toNat]
  | append_singleton bytes b ih =>
    have hb := b.toNat_lt
    simp only [toNat_append, toNat_singleton, List.length_append, List.length_singleton, pow_succ]
    omega

theorem toNat_word (k n : Nat) : toNat (word k n) = n % 256 ^ k := by
  induction k generalizing n with
  | zero => simp [word, toNat, Nat.mod_one]
  | succ k ih =>
    simp only [word, toNat_append, toNat_singleton, ih, List.length_singleton, pow_one]
    rw [pow_succ, mul_comm (256 ^ k), Nat.mod_mul, UInt8.toNat_ofNat']
    omega

theorem word_toNat (bytes : Bytes) : word bytes.length (toNat bytes) = bytes := by
  induction bytes using List.reverseRecOn with
  | nil => rfl
  | append_singleton bytes b ih =>
    have hb := b.toNat_lt
    have hd : (toNat bytes * 256 + b.toNat) / 256 = toNat bytes := by omega
    have hm : UInt8.ofNat (toNat bytes * 256 + b.toNat) = b := by
      apply UInt8.toNat_inj.1
      rw [UInt8.toNat_ofNat']
      omega
    simp [toNat_append, word, hd, hm, ih]

@[simp] theorem length_u2 (n : UInt16) : (u2 n).length = 2 := length_word _ _

@[simp] theorem length_u4 (n : UInt32) : (u4 n).length = 4 := length_word _ _

/-- No element of a list takes more room than the list. -/
theorem length_le_counted {α : Type} (k : Nat) (write : α → Bytes) {items : List α} {x : α}
    (hx : x ∈ items) : (write x).length ≤ (counted k write items).length := by
  have hm := List.le_sum_of_mem (List.mem_map_of_mem (f := fun y => (write y).length) hx)
  rw [counted, List.length_append, List.length_flatMap]
  omega

end Bytes

namespace Reader

variable {ε α β : Type} {reader : Reader ε α}

/-- The reader accepts exactly what writing valid values produces. -/
def Accepts (reader : Reader ε α) (write : α → Bytes) (valid : α → Prop) : Prop :=
  ∀ bytes x rest, reader bytes = .ok (x, rest) ↔ valid x ∧ bytes = write x ++ rest

theorem pure_ok_iff (x y : α) (bytes rest : Bytes) :
    (pure x : Reader ε α) bytes = .ok (y, rest) ↔ x = y ∧ bytes = rest := by
  simp [pure, StateT.pure, Except.pure]

theorem bind_ok_iff (reader : Reader ε α) (next : α → Reader ε β) (bytes : Bytes) (y : β)
    (rest : Bytes) :
    (reader >>= next) bytes = .ok (y, rest) ↔
      ∃ x mid, reader bytes = .ok (x, mid) ∧ next x mid = .ok (y, rest) := by
  simp only [bind, StateT.bind, Except.bind]
  cases reader bytes with
  | error e => simp
  | ok read => exact ⟨fun h => ⟨_, _, rfl, h⟩, fun ⟨x, mid, hr, h⟩ => by cases hr; exact h⟩

theorem throw_ok_iff (e : ε) (y : α) (bytes rest : Bytes) :
    (throw e : Reader ε α) bytes = .ok (y, rest) ↔ False := by
  simp [throw, throwThe, MonadExceptOf.throw, StateT.lift, bind, Except.bind]

section Words

variable [FormatError ε]

theorem take_ok_iff (n : Nat) (bytes taken rest : Bytes) :
    (take n : Reader ε Bytes) bytes = .ok (taken, rest) ↔
      taken.length = n ∧ bytes = taken ++ rest := by
  unfold take
  constructor
  · intro h
    split at h
    · rename_i found
      simp only [Except.ok.injEq, Prod.mk.injEq] at h
      obtain ⟨rfl, rfl⟩ := h
      obtain ⟨next, hn, ht, hb⟩ := Bytes.eq_append_of_split? found
      simp only [List.reverse_nil, List.nil_append] at ht
      exact ⟨ht ▸ hn, ht ▸ hb⟩
    · simp at h
  · rintro ⟨rfl, rfl⟩
    simp [Bytes.split?_append]

theorem word_ok_iff (k n : Nat) (bytes rest : Bytes) :
    (word k : Reader ε Nat) bytes = .ok (n, rest) ↔
      n < 256 ^ k ∧ bytes = Bytes.word k n ++ rest := by
  simp only [word, bind_ok_iff, pure_ok_iff, take_ok_iff]
  constructor
  · rintro ⟨taken, _, ⟨rfl, rfl⟩, rfl, rfl⟩
    exact ⟨Bytes.toNat_lt taken, by rw [Bytes.word_toNat]⟩
  · rintro ⟨hn, rfl⟩
    exact ⟨_, _, ⟨Bytes.length_word k n, rfl⟩, by rw [Bytes.toNat_word, Nat.mod_eq_of_lt hn], rfl⟩

theorem u1_ok_iff (n : UInt8) (bytes rest : Bytes) :
    (u1 : Reader ε UInt8) bytes = .ok (n, rest) ↔ bytes = n :: rest := by
  simp only [u1, bind_ok_iff, pure_ok_iff, word_ok_iff]
  constructor
  · rintro ⟨m, _, ⟨-, rfl⟩, rfl, rfl⟩
    simp [Bytes.word]
  · rintro rfl
    exact ⟨n.toNat, _, ⟨n.toNat_lt, by simp [Bytes.word]⟩, by simp, rfl⟩

theorem u2_ok_iff (n : UInt16) (bytes rest : Bytes) :
    (u2 : Reader ε UInt16) bytes = .ok (n, rest) ↔ bytes = Bytes.u2 n ++ rest := by
  simp only [u2, bind_ok_iff, pure_ok_iff, word_ok_iff]
  constructor
  · rintro ⟨m, _, ⟨hm, rfl⟩, rfl, rfl⟩
    rw [Bytes.u2, UInt16.toNat_ofNat_of_lt' hm]
  · rintro rfl
    exact ⟨n.toNat, _, ⟨n.toNat_lt, rfl⟩, by simp, rfl⟩

theorem u4_ok_iff (n : UInt32) (bytes rest : Bytes) :
    (u4 : Reader ε UInt32) bytes = .ok (n, rest) ↔ bytes = Bytes.u4 n ++ rest := by
  simp only [u4, bind_ok_iff, pure_ok_iff, word_ok_iff]
  constructor
  · rintro ⟨m, _, ⟨hm, rfl⟩, rfl, rfl⟩
    rw [Bytes.u4, UInt32.toNat_ofNat_of_lt' hm]
  · rintro rfl
    exact ⟨n.toNat, _, ⟨n.toNat_lt, rfl⟩, by simp, rfl⟩

theorem u8_ok_iff (n : UInt64) (bytes rest : Bytes) :
    (u8 : Reader ε UInt64) bytes = .ok (n, rest) ↔ bytes = Bytes.u8 n ++ rest := by
  simp only [u8, bind_ok_iff, pure_ok_iff, word_ok_iff]
  constructor
  · rintro ⟨m, _, ⟨hm, rfl⟩, rfl, rfl⟩
    rw [Bytes.u8, UInt64.toNat_ofNat_of_lt' hm]
  · rintro rfl
    exact ⟨n.toNat, _, ⟨n.toNat_lt, rfl⟩, by simp, rfl⟩

end Words

theorem times_ok_iff {write : α → Bytes} {valid : α → Prop} (h : Accepts reader write valid)
    (n : Nat) (seen xs : List α) (bytes rest : Bytes) :
    times reader n seen bytes = .ok (xs, rest) ↔
      ∃ ys, xs = seen.reverse ++ ys ∧ (ys.length = n ∧ ∀ y ∈ ys, valid y) ∧
        bytes = ys.flatMap write ++ rest := by
  induction n generalizing seen bytes with
  | zero =>
    simp only [times, Except.ok.injEq, Prod.mk.injEq]
    constructor
    · rintro ⟨rfl, rfl⟩
      exact ⟨[], by simp⟩
    · rintro ⟨ys, rfl, ⟨hy, -⟩, rfl⟩
      simp [List.length_eq_zero_iff.1 hy]
  | succ n ih =>
    simp only [times]
    constructor
    · intro hr
      split at hr
      · simp at hr
      · rename_i y mid hy
        obtain ⟨hv, rfl⟩ := (h _ _ _).1 hy
        obtain ⟨ys, rfl, ⟨hlen, hvs⟩, rfl⟩ := (ih _ _).1 hr
        exact ⟨y :: ys, by simp, ⟨by simp [hlen], by simpa using ⟨hv, hvs⟩⟩, by simp⟩
    · rintro ⟨ys, rfl, ⟨hlen, hvs⟩, rfl⟩
      obtain ⟨y, ys, rfl⟩ := List.exists_cons_of_length_eq_add_one hlen
      have hy := (h _ _ (ys.flatMap write ++ rest)).2 ⟨hvs y (by simp), rfl⟩
      have hys := (ih (y :: seen) (ys.flatMap write ++ rest)).2
        ⟨ys, by simp, ⟨by simpa using hlen, fun z hz => hvs z (by simp [hz])⟩, rfl⟩
      simp only [List.flatMap_cons, List.append_assoc, hy, hys]

/-- A list behind its count is accepted if the count fits and every element is valid. -/
theorem accepts_counted [FormatError ε] {write : α → Bytes} {valid : α → Prop}
    (h : Accepts reader write valid) (k : Nat) :
    Accepts (counted k reader) (Bytes.counted k write)
      (fun xs => xs.length < 256 ^ k ∧ ∀ x ∈ xs, valid x) := by
  intro bytes xs rest
  simp only [counted, bind_ok_iff, word_ok_iff, times_ok_iff h, Bytes.counted]
  constructor
  · rintro ⟨n, _, ⟨hn, rfl⟩, _, rfl, ⟨rfl, hv⟩, rfl⟩
    exact ⟨⟨hn, hv⟩, by simp⟩
  · rintro ⟨⟨hn, hv⟩, rfl⟩
    exact ⟨_, _, ⟨hn, by rw [List.append_assoc]⟩, xs, by simp, ⟨rfl, hv⟩, rfl⟩

theorem accepts_u2 [FormatError ε] : Accepts (u2 : Reader ε UInt16) Bytes.u2 (fun _ => True) := by
  intro bytes n rest
  simp [u2_ok_iff]

end Reader

end JarRename
