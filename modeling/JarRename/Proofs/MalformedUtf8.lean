import Mathlib
import JarRename.Proofs.ModifiedUtf8

/-!
# What modified UTF-8 refuses

A byte sequence is refused exactly if, behind the encoding of some text, it goes on with one of the
forms that `Malformed` lists: a zero byte, a byte that begins no unit, a form that is cut short, a
form that is longer than it needs to be, or a surrogate without its partner. Every other sequence is
the encoding of a text, and of one text only.
-/
namespace JarRename.Text.ModifiedUtf8

def IsContinuation (b : UInt8) : Prop := 0x80 ≤ b.toNat ∧ b.toNat < 0xC0

/-- The form of two bytes, in which units from 0x80 on have to be written. -/
def twoBytes (u : Nat) : List UInt8 :=
  [UInt8.ofNat (0xC0 + u / 0x40), UInt8.ofNat (0x80 + u % 0x40)]

/-- The form of three bytes, in which units from 0x800 on have to be written. -/
def threeBytes (u : Nat) : List UInt8 :=
  [UInt8.ofNat (0xE0 + u / 0x1000), UInt8.ofNat (0x80 + u / 0x40 % 0x40),
    UInt8.ofNat (0x80 + u % 0x40)]

/-- What no encoded text begins with. -/
inductive Malformed : List UInt8 → Prop
  | zero (rest : List UInt8) : Malformed (0 :: rest)
  /-- A continuation byte, or the first byte of a form of four bytes or more. -/
  | noUnit {b : UInt8} (rest : List UInt8) (h : IsContinuation b ∨ 0xF0 ≤ b.toNat) :
    Malformed (b :: rest)
  | truncatedTwo {a : UInt8} {rest : List UInt8} (lead : 0xC0 ≤ a.toNat ∧ a.toNat < 0xE0)
    (short : ∀ b tail, rest = b :: tail → ¬ IsContinuation b) : Malformed (a :: rest)
  | truncatedThree {a : UInt8} {rest : List UInt8} (lead : 0xE0 ≤ a.toNat ∧ a.toNat < 0xF0)
    (short : ∀ b c tail, rest = b :: c :: tail → ¬ (IsContinuation b ∧ IsContinuation c)) :
    Malformed (a :: rest)
  | overlongTwo {u : Nat} (rest : List UInt8) (pos : 0 < u) (small : u < 0x80) :
    Malformed (twoBytes u ++ rest)
  | overlongThree {u : Nat} (rest : List UInt8) (small : u < 0x800) :
    Malformed (threeBytes u ++ rest)
  | lowSurrogate {u : Nat} (rest : List UInt8) (low : isLow u) : Malformed (encodeUnit u ++ rest)
  | highSurrogate {u : Nat} {rest : List UInt8} (high : isHigh u)
    (alone : ∀ v tail, isLow v → rest ≠ encodeUnit v ++ tail) : Malformed (encodeUnit u ++ rest)

theorem continuation?_eq_none_iff {b : UInt8} : continuation? b = none ↔ ¬ IsContinuation b := by
  simp [continuation?, IsContinuation]

theorem isContinuation_iff {b : UInt8} :
    IsContinuation b ↔ ∃ n < 0x40, b = UInt8.ofNat (0x80 + n) := by
  simp only [← continuation?_eq_some_iff, ← Option.ne_none_iff_exists', ne_eq,
    continuation?_eq_none_iff, not_not]

section Units

variable {bytes rest : List UInt8} {u : Nat}

theorem decodeUnit?_of_noUnit {b : UInt8} (h : IsContinuation b ∨ 0xF0 ≤ b.toNat) :
    decodeUnit? (b :: rest) = none := by
  unfold IsContinuation at h
  simp only [decodeUnit?]
  rw [if_neg (by omega), if_neg (by omega), if_neg (by omega)]

theorem decodeUnit?_of_truncatedTwo {a : UInt8} (lead : 0xC0 ≤ a.toNat ∧ a.toNat < 0xE0)
    (short : ∀ b tail, rest = b :: tail → ¬ IsContinuation b) : decodeUnit? (a :: rest) = none := by
  simp only [decodeUnit?]
  rw [if_neg (by omega), if_pos lead]
  cases rest with
  | nil => rfl
  | cons b tail => simp [continuation?_eq_none_iff.2 (short b tail rfl)]

theorem decodeUnit?_of_truncatedThree {a : UInt8} (lead : 0xE0 ≤ a.toNat ∧ a.toNat < 0xF0)
    (short : ∀ b c tail, rest = b :: c :: tail → ¬ (IsContinuation b ∧ IsContinuation c)) :
    decodeUnit? (a :: rest) = none := by
  simp only [decodeUnit?]
  rw [if_neg (by omega), if_neg (by omega), if_pos lead]
  rcases rest with _ | ⟨b, _ | ⟨c, tail⟩⟩
  · rfl
  · rfl
  · rcases not_and_or.1 (short b c tail rfl) with h | h
    · simp [continuation?_eq_none_iff.2 h]
    · simp [continuation?_eq_none_iff.2 h]

theorem decodeUnit?_twoBytes (hu : u < 0x800) (rest : List UInt8) :
    decodeUnit? (twoBytes u ++ rest) = if u ≠ 0 ∧ u < 0x80 then none else some (u, rest) := by
  have hv : (UInt8.ofNat (0xC0 + u / 0x40)).toNat = 0xC0 + u / 0x40 := by
    rw [UInt8.toNat_ofNat']
    omega
  have hc : continuation? (UInt8.ofNat (0x80 + u % 0x40)) = some (u % 0x40) :=
    continuation?_eq_some_iff.2 ⟨by omega, rfl⟩
  have hs : (0xC0 + u / 0x40 - 0xC0) * 0x40 + u % 0x40 = u := by omega
  simp only [twoBytes, List.cons_append, List.nil_append, decodeUnit?, hv, hc]
  rw [if_neg (by omega), if_pos (by omega)]
  simp only [Option.bind_eq_bind, Option.bind_some, hs]

theorem decodeUnit?_threeBytes (hu : u < 0x10000) (rest : List UInt8) :
    decodeUnit? (threeBytes u ++ rest) = if u < 0x800 then none else some (u, rest) := by
  have hv : (UInt8.ofNat (0xE0 + u / 0x1000)).toNat = 0xE0 + u / 0x1000 := by
    rw [UInt8.toNat_ofNat']
    omega
  have hc : continuation? (UInt8.ofNat (0x80 + u / 0x40 % 0x40)) = some (u / 0x40 % 0x40) :=
    continuation?_eq_some_iff.2 ⟨by omega, rfl⟩
  have hd : continuation? (UInt8.ofNat (0x80 + u % 0x40)) = some (u % 0x40) :=
    continuation?_eq_some_iff.2 ⟨by omega, rfl⟩
  have hs : (0xE0 + u / 0x1000 - 0xE0) * 0x1000 + u / 0x40 % 0x40 * 0x40 + u % 0x40 = u := by omega
  simp only [threeBytes, List.cons_append, List.nil_append, decodeUnit?, hv, hc, hd]
  rw [if_neg (by omega), if_neg (by omega), if_pos (by omega)]
  simp only [Option.bind_eq_bind, Option.bind_some, hs]

theorem exists_twoBytes {a b : UInt8} (lead : 0xC0 ≤ a.toNat ∧ a.toNat < 0xE0)
    (hb : IsContinuation b) : ∃ u < 0x800, twoBytes u = [a, b] := by
  obtain ⟨x, hx, rfl⟩ := isContinuation_iff.1 hb
  have hq : 0xC0 + ((a.toNat - 0xC0) * 0x40 + x) / 0x40 = a.toNat := by omega
  have hr : ((a.toNat - 0xC0) * 0x40 + x) % 0x40 = x := by omega
  refine ⟨(a.toNat - 0xC0) * 0x40 + x, by omega, ?_⟩
  rw [twoBytes, hq, hr, UInt8.ofNat_toNat]

theorem exists_threeBytes {a b c : UInt8} (lead : 0xE0 ≤ a.toNat ∧ a.toNat < 0xF0)
    (hb : IsContinuation b) (hc : IsContinuation c) : ∃ u < 0x10000, threeBytes u = [a, b, c] := by
  obtain ⟨x, hx, rfl⟩ := isContinuation_iff.1 hb
  obtain ⟨y, hy, rfl⟩ := isContinuation_iff.1 hc
  have hp : 0xE0 + ((a.toNat - 0xE0) * 0x1000 + x * 0x40 + y) / 0x1000 = a.toNat := by omega
  have hq : ((a.toNat - 0xE0) * 0x1000 + x * 0x40 + y) / 0x40 % 0x40 = x := by omega
  have hr : ((a.toNat - 0xE0) * 0x1000 + x * 0x40 + y) % 0x40 = y := by omega
  refine ⟨(a.toNat - 0xE0) * 0x1000 + x * 0x40 + y, by omega, ?_⟩
  rw [threeBytes, hp, hq, hr, UInt8.ofNat_toNat]

/-- Where no unit can be taken off, the sequence is at its end or malformed. -/
theorem malformed_of_decodeUnit? (hne : bytes ≠ []) (h : decodeUnit? bytes = none) :
    Malformed bytes := by
  obtain ⟨a, rest, rfl⟩ := List.exists_cons_of_ne_nil hne
  by_cases hz : a.toNat = 0
  · obtain rfl : a = 0 := UInt8.toNat_inj.1 hz
    exact .zero rest
  by_cases hone : a.toNat < 0x80
  · simp only [decodeUnit?] at h
    rw [if_pos ⟨hz, hone⟩] at h
    cases h
  by_cases htail : a.toNat < 0xC0
  · exact .noUnit rest (.inl ⟨by omega, htail⟩)
  by_cases htwo : a.toNat < 0xE0
  · by_cases short : ∀ b tail, rest = b :: tail → ¬ IsContinuation b
    · exact .truncatedTwo ⟨by omega, htwo⟩ short
    push Not at short
    obtain ⟨b, tail, rfl, hb⟩ := short
    obtain ⟨u, hu, hform⟩ := exists_twoBytes ⟨by omega, htwo⟩ hb
    change decodeUnit? ([a, b] ++ tail) = none at h
    rw [← hform, decodeUnit?_twoBytes hu, ite_eq_left_iff] at h
    have hlong : u ≠ 0 ∧ u < 0x80 := by
      by_contra hn
      cases h hn
    have hm := Malformed.overlongTwo tail (by omega) hlong.2
    rwa [hform] at hm
  by_cases hthree : a.toNat < 0xF0
  · by_cases short : ∀ b c tail, rest = b :: c :: tail → ¬ (IsContinuation b ∧ IsContinuation c)
    · exact .truncatedThree ⟨by omega, hthree⟩ short
    push Not at short
    obtain ⟨b, c, tail, rfl, hb, hc⟩ := short
    obtain ⟨u, hu, hform⟩ := exists_threeBytes ⟨by omega, hthree⟩ hb hc
    change decodeUnit? ([a, b, c] ++ tail) = none at h
    rw [← hform, decodeUnit?_threeBytes hu, ite_eq_left_iff] at h
    have hlong : u < 0x800 := by
      by_contra hn
      cases h hn
    have hm := Malformed.overlongThree tail hlong
    rwa [hform] at hm
  · exact .noUnit rest (.inr (by omega))

end Units

@[simp] theorem encode_nil : encode [] = [] := rfl

theorem encode_cons (c : Char) (cs : List Char) :
    encode (c :: cs) = (unitsOf c).flatMap encodeUnit ++ encode cs := by
  simp [encode]

theorem encode_append (cs ds : List Char) : encode (cs ++ ds) = encode cs ++ encode ds := by
  simp [encode]

/-- The first unit of an encoded text is no low surrogate, and a low one follows a high one. -/
theorem exists_unit_of_decode? {bytes : List UInt8} {cs : List Char} (hne : bytes ≠ [])
    (h : decode? bytes = some cs) :
    ∃ u rest, u < 0x10000 ∧ bytes = encodeUnit u ++ rest ∧ isLow u = false ∧
      (isHigh u = true → ∃ v tail, isLow v = true ∧ rest = encodeUnit v ++ tail) := by
  have he := encode_of_decode? h
  cases cs with
  | nil => exact absurd he.symm hne
  | cons c cs =>
    have hc := toNat_valid c
    have hu := unitsOf_lt c
    rw [encode_cons] at he
    simp only [unitsOf] at he hu
    split at he
    · rename_i hlt
      refine ⟨c.toNat, encode cs, hlt, by simpa using he.symm, by simp [isLow]; omega, fun hh => ?_⟩
      simp only [isHigh, Bool.and_eq_true, decide_eq_true_eq] at hh
      omega
    · refine ⟨_, _, ?_, by rw [← he, List.flatMap_cons, List.append_assoc], ?_, fun _ =>
        ⟨_, encode cs, ?_, by rw [List.flatMap_cons, List.flatMap_nil, List.append_nil]⟩⟩
      · omega
      · simp [isLow]
        omega
      · simp [isLow]
        omega

theorem lt_of_isLow {u : Nat} (h : isLow u = true) : u < 0x10000 := by
  simp only [isLow, Bool.and_eq_true, decide_eq_true_eq] at h
  omega

theorem lt_of_isHigh {u : Nat} (h : isHigh u = true) : u < 0x10000 := by
  simp only [isHigh, Bool.and_eq_true, decide_eq_true_eq] at h
  omega

theorem encodeUnit_ne_nil (u : Nat) : encodeUnit u ≠ [] := by
  unfold encodeUnit
  split
  · simp
  · split <;> simp

/-- No encoded text begins with a malformed form. -/
theorem Malformed.decode?_eq_none {bytes : List UInt8} (h : Malformed bytes) :
    decode? bytes = none := by
  by_contra hsome
  obtain ⟨cs, hcs⟩ := Option.ne_none_iff_exists'.1 hsome
  have hne : bytes ≠ [] := by
    cases h with
    | lowSurrogate | highSurrogate => simp [encodeUnit_ne_nil]
    | overlongTwo | overlongThree => simp [twoBytes, threeBytes]
    | _ => simp
  obtain ⟨u, rest, hu, rfl, hl, hh⟩ := exists_unit_of_decode? hne hcs
  have hd := decodeUnit?_encodeUnit hu rest
  generalize hb : encodeUnit u ++ rest = bytes at h hd
  cases h with
  | zero => simp [decodeUnit?] at hd
  | noUnit _ h => simp [decodeUnit?_of_noUnit h] at hd
  | truncatedTwo lead short => simp [decodeUnit?_of_truncatedTwo lead short] at hd
  | truncatedThree lead short => simp [decodeUnit?_of_truncatedThree lead short] at hd
  | overlongTwo _ pos small =>
    rw [decodeUnit?_twoBytes (by omega), if_pos ⟨by omega, small⟩] at hd
    cases hd
  | overlongThree _ small =>
    rw [decodeUnit?_threeBytes (by omega), if_pos small] at hd
    cases hd
  | @lowSurrogate v tail low =>
    rw [decodeUnit?_encodeUnit (lt_of_isLow low)] at hd
    cases hd
    rw [low] at hl
    cases hl
  | @highSurrogate v tail high alone =>
    rw [decodeUnit?_encodeUnit (lt_of_isHigh high)] at hd
    cases hd
    obtain ⟨w, last, hw, hr⟩ := hh high
    exact alone w last hw hr

theorem width_pos (c : Char) : 0 < width c := by
  have hs := c.utf8Size_pos
  unfold width
  split_ifs <;> omega

/-- A sequence that does not begin with a character is malformed. -/
theorem malformed_or_encode {bytes : List UInt8} (hne : bytes ≠ []) :
    Malformed bytes ∨ ∃ c rest, bytes = encode [c] ++ rest := by
  rcases hd : decodeUnit? bytes with _ | ⟨u, tail⟩
  · exact .inl (malformed_of_decodeUnit? hne hd)
  obtain ⟨hu, rfl⟩ := eq_encodeUnit_of_decodeUnit? hd
  by_cases low : isLow u = true
  · exact .inl (.lowSurrogate tail low)
  by_cases high : isHigh u = true
  · by_cases alone : ∀ v rest, isLow v → tail ≠ encodeUnit v ++ rest
    · exact .inl (.highSurrogate high alone)
    push Not at alone
    obtain ⟨v, rest, hv, rfl⟩ := alone
    refine .inr ⟨Char.ofNat (0x10000 + (u - 0xD800) * 0x400 + (v - 0xDC00)), rest, ?_⟩
    simp [encode, unitsOf_ofNat_of_pair high hv]
  · refine .inr ⟨Char.ofNat u, tail, ?_⟩
    simp [encode, unitsOf_ofNat_of_lt hu (Bool.eq_false_iff.2 high) (Bool.eq_false_iff.2 low)]

/-- Exactly those sequences are refused that go on with a malformed form behind some text. -/
theorem decode?_eq_none_iff {bytes : List UInt8} :
    decode? bytes = none ↔ ∃ cs rest, bytes = encode cs ++ rest ∧ Malformed rest := by
  constructor
  · intro h
    induction hn : bytes.length using Nat.strong_induction_on generalizing bytes with
    | h n ih =>
      have hne : bytes ≠ [] := by
        intro hb
        rw [hb, ← encode_nil, decode?_encode] at h
        cases h
      rcases malformed_or_encode hne with hm | ⟨c, tail, rfl⟩
      · exact ⟨[], bytes, rfl, hm⟩
      have hw := width_pos c
      rw [List.length_append, encode_cons, encode_nil, List.append_nil,
        length_encode_singleton] at hn
      rw [decode?_encode_append, Option.map_eq_none_iff] at h
      obtain ⟨cs, rest, rfl, hm⟩ := ih tail.length (by omega) h rfl
      refine ⟨c :: cs, rest, ?_, hm⟩
      rw [← List.append_assoc, ← encode_append, List.singleton_append]
  · intro ⟨cs, rest, hb, hm⟩
    rw [hb, decode?_encode_append, hm.decode?_eq_none, Option.map_none]

/-- Texts and accepted byte sequences correspond one to one, with lengths as computed, and a byte
sequence is refused exactly for a malformed form. -/
theorem encode_bijective :
    Set.BijOn (fun text : String => encode text.toList) Set.univ {bytes | decode? bytes ≠ none} ∧
    (∀ text : String, decode? (encode text.toList) = some text.toList ∧
      (encode text.toList).length = length text.toList) ∧
    (∀ bytes cs, decode? bytes = some cs → encode cs = bytes) ∧
    ∀ bytes, decode? bytes = none ↔ ∃ cs rest, bytes = encode cs ++ rest ∧ Malformed rest := by
  refine ⟨⟨?_, ?_, ?_⟩, fun text => ⟨decode?_encode _, (length_eq _).symm⟩,
    fun bytes cs => encode_of_decode?, fun bytes => decode?_eq_none_iff⟩
  · intro text _
    simp [decode?_encode]
  · intro text _ other _ h
    have hd := congrArg decode? h
    simp only [decode?_encode, Option.some.injEq] at hd
    exact String.toList_inj.1 hd
  · intro bytes hb
    obtain ⟨cs, hcs⟩ := Option.ne_none_iff_exists'.1 hb
    exact ⟨String.ofList cs, trivial, by simpa using encode_of_decode? hcs⟩

/-- A text with characters of one, two, three and six bytes and with a zero. -/
def sample : String := "a\x00é€😀"

def sampleBytes : List UInt8 :=
  [0x61, 0xC0, 0x80, 0xC3, 0xA9, 0xE2, 0x82, 0xAC, 0xED, 0xA0, 0xBD, 0xED, 0xB8, 0x80]

theorem encode_bijective_sample : decode? sampleBytes = some sample.toList ∧
    encode sample.toList = sampleBytes ∧ sampleBytes.length = length sample.toList ∧
    decode? (sampleBytes ++ [0xED, 0xA0, 0xBD, 0x62]) = none := by
  have he : encode sample.toList = sampleBytes := by decide
  obtain ⟨-, htext, hbytes, hnone⟩ := encode_bijective
  obtain ⟨hd, hl⟩ := htext sample
  rw [he] at hd hl
  -- A high surrogate stands in front of a letter.
  have hmalformed : Malformed (encodeUnit 0xD83D ++ [0x62]) := by
    refine .highSurrogate rfl fun v tail low hv => ?_
    have hlen := congrArg List.length hv
    simp only [isLow, Bool.and_eq_true, decide_eq_true_eq] at low
    rw [List.length_append, length_encodeUnit, if_neg (by omega), if_neg (by omega),
      List.length_singleton] at hlen
    omega
  exact ⟨hd, hbytes _ _ hd, hl, (hnone _).2 ⟨sample.toList, _, by rw [he]; rfl, hmalformed⟩⟩

end JarRename.Text.ModifiedUtf8
