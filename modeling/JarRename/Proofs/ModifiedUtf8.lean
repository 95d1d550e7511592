import Mathlib
import JarRename.Text.ModifiedUtf8

/-!
# Modified UTF-8 is a bijection

Encoding and decoding undo each other: every text is decoded from its own encoding, and a byte
sequence that is accepted is the encoding of what it was decoded to. Both directions hold unit by
unit first, then for the characters that the units spell.
-/
namespace JarRename.Text.ModifiedUtf8

theorem continuation?_eq_some_iff {b : UInt8} {n : Nat} :
    continuation? b = some n ↔ n < 0x40 ∧ b = UInt8.ofNat (0x80 + n) := by
  have hb := b.toNat_lt
  unfold continuation?
  constructor
  · intro h
    split at h
    · simp only [Option.some.injEq] at h
      refine ⟨by omega, UInt8.toNat_inj.1 ?_⟩
      rw [UInt8.toNat_ofNat']
      omega
    · simp at h
  · rintro ⟨hn, rfl⟩
    have hv : (UInt8.ofNat (0x80 + n)).toNat = 0x80 + n := by
      rw [UInt8.toNat_ofNat']
      omega
    rw [hv, if_pos (by omega)]
    simp

theorem decodeUnit?_encodeUnit {u : Nat} (hu : u < 0x10000) (rest : List UInt8) :
    decodeUnit? (encodeUnit u ++ rest) = some (u, rest) := by
  unfold encodeUnit
  split
  · rename_i h
    have hv : (UInt8.ofNat u).toNat = u := by rw [UInt8.toNat_ofNat']; omega
    simp only [List.cons_append, List.nil_append, decodeUnit?, hv, if_pos h]
  · split
    · have hv : (UInt8.ofNat (0xC0 + u / 0x40)).toNat = 0xC0 + u / 0x40 := by
        rw [UInt8.toNat_ofNat']; omega
      have hc : continuation? (UInt8.ofNat (0x80 + u % 0x40)) = some (u % 0x40) :=
        continuation?_eq_some_iff.2 ⟨by omega, rfl⟩
      have hs : (0xC0 + u / 0x40 - 0xC0) * 0x40 + u % 0x40 = u := by omega
      simp only [List.cons_append, List.nil_append, decodeUnit?, hv, hc]
      rw [if_neg (by omega), if_pos (by omega)]
      simp only [Option.bind_eq_bind, Option.bind_some, hs]
      rw [if_neg (by omega)]
    · have hv : (UInt8.ofNat (0xE0 + u / 0x1000)).toNat = 0xE0 + u / 0x1000 := by
        rw [UInt8.toNat_ofNat']; omega
      have hc : continuation? (UInt8.ofNat (0x80 + u / 0x40 % 0x40)) = some (u / 0x40 % 0x40) :=
        continuation?_eq_some_iff.2 ⟨by omega, rfl⟩
      have hd : continuation? (UInt8.ofNat (0x80 + u % 0x40)) = some (u % 0x40) :=
        continuation?_eq_some_iff.2 ⟨by omega, rfl⟩
      have hs : (0xE0 + u / 0x1000 - 0xE0) * 0x1000 + u / 0x40 % 0x40 * 0x40 + u % 0x40 = u := by
        omega
      simp only [List.cons_append, List.nil_append, decodeUnit?, hv, hc, hd]
      rw [if_neg (by omega), if_neg (by omega), if_pos (by omega)]
      simp only [Option.bind_eq_bind, Option.bind_some, hs]
      rw [if_neg (by omega)]

theorem eq_encodeUnit_of_decodeUnit? {bytes rest : List UInt8} {u : Nat}
    (h : decodeUnit? bytes = some (u, rest)) : u < 0x10000 ∧ bytes = encodeUnit u ++ rest := by
  unfold decodeUnit? at h
  split at h
  · simp at h
  · rename_i a tail
    have ha := a.toNat_lt
    simp only at h
    split at h
    · rename_i hn
      simp only [Option.some.injEq, Prod.mk.injEq] at h
      obtain ⟨rfl, rfl⟩ := h
      refine ⟨by omega, ?_⟩
      rw [encodeUnit, if_pos hn, UInt8.ofNat_toNat, List.singleton_append]
    · split at h
      · split at h
        · simp only [Option.bind_eq_bind, Option.bind_eq_some_iff] at h
          obtain ⟨x, hx, h⟩ := h
          obtain ⟨hx, rfl⟩ := continuation?_eq_some_iff.1 hx
          split at h
          · simp at h
          · simp only [Option.some.injEq, Prod.mk.injEq] at h
            obtain ⟨rfl, rfl⟩ := h
            refine ⟨by omega, ?_⟩
            rw [encodeUnit, if_neg (by omega), if_pos (by omega)]
            have hq : 0xC0 + ((a.toNat - 0xC0) * 0x40 + x) / 0x40 = a.toNat := by omega
            have hr : ((a.toNat - 0xC0) * 0x40 + x) % 0x40 = x := by omega
            rw [hq, hr, UInt8.ofNat_toNat]
            rfl
        · simp at h
      · split at h
        · split at h
          · simp only [Option.bind_eq_bind, Option.bind_eq_some_iff] at h
            obtain ⟨x, hx, y, hy, h⟩ := h
            obtain ⟨hx, rfl⟩ := continuation?_eq_some_iff.1 hx
            obtain ⟨hy, rfl⟩ := continuation?_eq_some_iff.1 hy
            split at h
            · simp at h
            · simp only [Option.some.injEq, Prod.mk.injEq] at h
              obtain ⟨rfl, rfl⟩ := h
              refine ⟨by omega, ?_⟩
              rw [encodeUnit, if_neg (by omega), if_neg (by omega)]
              have hp : 0xE0 + ((a.toNat - 0xE0) * 0x1000 + x * 0x40 + y) / 0x1000 = a.toNat := by
                omega
              have hq : ((a.toNat - 0xE0) * 0x1000 + x * 0x40 + y) / 0x40 % 0x40 = x := by omega
              have hr : ((a.toNat - 0xE0) * 0x1000 + x * 0x40 + y) % 0x40 = y := by omega
              rw [hp, hq, hr, UInt8.ofNat_toNat]
              rfl
          · simp at h
        · simp at h

theorem decodeUnits?_encodeUnits {units : List Nat} (hu : ∀ u ∈ units, u < 0x10000)
    (seen : List Nat) (rest : List UInt8) :
    decodeUnits? seen (units.flatMap encodeUnit ++ rest) =
      decodeUnits? (units.reverse ++ seen) rest := by
  induction units generalizing seen with
  | nil => rfl
  | cons u units ih =>
    have hd := decodeUnit?_encodeUnit (hu u (by simp)) (units.flatMap encodeUnit ++ rest)
    have hi := ih (fun v hv => hu v (by simp [hv])) (u :: seen)
    rw [List.flatMap_cons, List.append_assoc, List.reverse_cons, List.append_assoc,
      List.singleton_append, ← hi]
    conv_lhs => unfold decodeUnits?
    split
    · rename_i he
      rw [he] at hd
      simp [decodeUnit?] at hd
    · rename_i he
      rw [he] at hd
      split
      · rename_i hn
        rw [hn] at hd
        simp at hd
      · rename_i hs
        rw [hs] at hd
        simp only [Option.some.injEq, Prod.mk.injEq] at hd
        obtain ⟨rfl, rfl⟩ := hd
        rfl

theorem eq_encodeUnits_of_decodeUnits? {seen units : List Nat} {bytes : List UInt8}
    (h : decodeUnits? seen bytes = some units) :
    ∃ next, units = seen.reverse ++ next ∧ (∀ u ∈ next, u < 0x10000) ∧
      bytes = next.flatMap encodeUnit := by
  fun_induction decodeUnits? seen bytes with
  | case1 seen =>
    simp only [Option.some.injEq] at h
    exact ⟨[], by simp [h]⟩
  | case2 => simp at h
  | case3 seen a tail u rest hd ih =>
    obtain ⟨next, hn, hu, hb⟩ := ih h
    obtain ⟨hlt, he⟩ := eq_encodeUnit_of_decodeUnit? hd
    exact ⟨u :: next, by simp [hn], by simpa using ⟨hlt, hu⟩, by simp [he, hb]⟩

theorem toNat_valid (c : Char) : c.toNat < 0xD800 ∨ 0xDFFF < c.toNat ∧ c.toNat < 0x110000 :=
  c.valid

theorem unitsOf_lt (c : Char) : ∀ u ∈ unitsOf c, u < 0x10000 := by
  have hc := toNat_valid c
  simp only [unitsOf]
  split
  · simpa
  · simp only [List.mem_cons, List.not_mem_nil, or_false]
    intro u hu
    rcases hu with hu | hu <;> omega

/-- The units of a character are read as that character. -/
theorem joinUnits?_unitsOf (seen : List Char) (c : Char) (rest : List Nat) :
    joinUnits? seen (unitsOf c ++ rest) = joinUnits? (c :: seen) rest := by
  have hc := toNat_valid c
  simp only [unitsOf]
  split
  · have hh : isHigh c.toNat = false := by simp [isHigh]; omega
    have hl : isLow c.toNat = false := by simp [isLow]; omega
    cases rest <;> simp [joinUnits?, hh, hl]
  · have hh : isHigh (0xD800 + (c.toNat - 0x10000) / 0x400) = true := by simp [isHigh]; omega
    have hl : isLow (0xDC00 + (c.toNat - 0x10000) % 0x400) = true := by simp [isLow]; omega
    have hs : 0x10000 + (0xD800 + (c.toNat - 0x10000) / 0x400 - 0xD800) * 0x400 +
        (0xDC00 + (c.toNat - 0x10000) % 0x400 - 0xDC00) = c.toNat := by omega
    simp only [List.cons_append, List.nil_append, joinUnits?, hh, hl, if_true, hs,
      Char.ofNat_toNat]

theorem joinUnits?_flatMap (seen cs : List Char) (rest : List Nat) :
    joinUnits? seen (cs.flatMap unitsOf ++ rest) = joinUnits? (cs.reverse ++ seen) rest := by
  induction cs generalizing seen with
  | nil => rfl
  | cons c cs ih => simp [joinUnits?_unitsOf, ih]

theorem unitsOf_ofNat_of_lt {u : Nat} (hu : u < 0x10000) (hh : isHigh u = false)
    (hl : isLow u = false) : unitsOf (Char.ofNat u) = [u] := by
  have hv : u.isValidChar := by
    simp only [isHigh, isLow, Bool.and_eq_false_iff, decide_eq_false_iff_not] at hh hl
    simp only [Nat.isValidChar]
    omega
  simp only [unitsOf, Char.toNat_ofNat, if_pos hv, if_pos hu]

theorem unitsOf_ofNat_of_pair {u v : Nat} (hu : isHigh u = true) (hv : isLow v = true) :
    unitsOf (Char.ofNat (0x10000 + (u - 0xD800) * 0x400 + (v - 0xDC00))) = [u, v] := by
  simp only [isHigh, isLow, Bool.and_eq_true, decide_eq_true_eq] at hu hv
  have hc : Nat.isValidChar (0x10000 + (u - 0xD800) * 0x400 + (v - 0xDC00)) := by
    simp only [Nat.isValidChar]
    omega
  have hq : 0xD800 + (0x10000 + (u - 0xD800) * 0x400 + (v - 0xDC00) - 0x10000) / 0x400 = u := by
    omega
  have hr : 0xDC00 + (0x10000 + (u - 0xD800) * 0x400 + (v - 0xDC00) - 0x10000) % 0x400 = v := by
    omega
  simp only [unitsOf, Char.toNat_ofNat, if_pos hc]
  rw [if_neg (by omega), hq, hr]

theorem eq_flatMap_of_joinUnits? {seen cs : List Char} {units : List Nat}
    (hu : ∀ u ∈ units, u < 0x10000) (h : joinUnits? seen units = some cs) :
    ∃ next, cs = seen.reverse ++ next ∧ units = next.flatMap unitsOf := by
  fun_induction joinUnits? seen units with
  | case1 seen =>
    simp only [Option.some.injEq] at h
    exact ⟨[], by simp [h]⟩
  | case2 => simp at h
  | case3 seen u hs ih =>
    simp only [Bool.or_eq_true, not_or, Bool.not_eq_true] at hs
    obtain ⟨next, hn, he⟩ := ih (by simp) h
    exact ⟨Char.ofNat u :: next, by simp [hn], by
      simp [unitsOf_ofNat_of_lt (hu u (by simp)) hs.1 hs.2, ← he]⟩
  | case4 seen u v rest hh hl ih =>
    obtain ⟨next, hn, he⟩ := ih (fun w hw => hu w (by simp [hw])) h
    refine ⟨Char.ofNat (0x10000 + (u - 0xD800) * 0x400 + (v - 0xDC00)) :: next, by simp [hn], ?_⟩
    rw [List.flatMap_cons, unitsOf_ofNat_of_pair hh hl, ← he]
    rfl
  | case5 => simp at h
  | case6 => simp at h
  | case7 seen u v rest hh hl ih =>
    simp only [Bool.not_eq_true] at hh hl
    obtain ⟨next, hn, he⟩ := ih (fun w hw => hu w (List.mem_cons_of_mem u hw)) h
    refine ⟨Char.ofNat u :: next, by simp [hn], ?_⟩
    rw [List.flatMap_cons, unitsOf_ofNat_of_lt (hu u (by simp)) hh hl, ← he]
    rfl

/-- What has been read before stays in front. -/
theorem decodeUnits?_append (next seen : List Nat) (bytes : List UInt8) :
    decodeUnits? (next ++ seen) bytes = (decodeUnits? next bytes).map (seen.reverse ++ ·) := by
  fun_induction decodeUnits? next bytes with
  | case1 => simp [decodeUnits?]
  | case2 next a rest hn =>
    unfold decodeUnits?
    split
    · rfl
    · rename_i hs
      simp [hn] at hs
  | case3 next a tail u rest hd ih =>
    rw [← ih, List.cons_append]
    conv_lhs => unfold decodeUnits?
    split
    · rename_i hn
      simp [hd] at hn
    · rename_i hs
      rw [hd] at hs
      cases hs
      rfl

theorem joinUnits?_append (next seen : List Char) (units : List Nat) :
    joinUnits? (next ++ seen) units = (joinUnits? next units).map (seen.reverse ++ ·) := by
  fun_induction joinUnits? next units with
  | case1 => simp [joinUnits?]
  | _ => simp_all [joinUnits?]

theorem units_lt (cs : List Char) : ∀ u ∈ cs.flatMap unitsOf, u < 0x10000 := by
  intro u hu
  obtain ⟨c, -, hc⟩ := List.mem_flatMap.1 hu
  exact unitsOf_lt c u hc

/-- Behind the encoding of a text, decoding goes on as it would have begun. -/
theorem decode?_encode_append (cs : List Char) (rest : List UInt8) :
    decode? (encode cs ++ rest) = (decode? rest).map (cs ++ ·) := by
  have hd := decodeUnits?_append [] (cs.flatMap unitsOf).reverse rest
  rw [List.nil_append, List.reverse_reverse] at hd
  rw [decode?, decode?, encode, decodeUnits?_encodeUnits (units_lt cs), List.append_nil, hd]
  cases decodeUnits? [] rest with
  | none => rfl
  | some units =>
    have hj := joinUnits?_append [] cs.reverse units
    rw [List.nil_append, List.reverse_reverse] at hj
    rw [Option.map_some, Option.bind_some, Option.bind_some, joinUnits?_flatMap, List.append_nil, hj]

/-- Every text is decoded from its own encoding. -/
theorem decode?_encode (cs : List Char) : decode? (encode cs) = some cs := by
  have h := decode?_encode_append cs []
  simpa [decode?, decodeUnits?, joinUnits?] using h

/-- Only encodings are decoded. -/
theorem encode_of_decode? {bytes : List UInt8} {cs : List Char} (h : decode? bytes = some cs) :
    encode cs = bytes := by
  obtain ⟨units, hu, hj⟩ := Option.bind_eq_some_iff.1 h
  obtain ⟨next, rfl, hlt, rfl⟩ := eq_encodeUnits_of_decodeUnits? hu
  obtain ⟨ds, rfl, hd⟩ := eq_flatMap_of_joinUnits? (by simpa using hlt) hj
  rw [encode, ← hd]

theorem length_encodeUnit (u : Nat) : (encodeUnit u).length =
    if u ≠ 0 ∧ u < 0x80 then 1 else if u < 0x800 then 2 else 3 := by
  unfold encodeUnit
  split
  · rfl
  · split <;> rfl

theorem utf8Size_eq (c : Char) : c.utf8Size =
    if c.toNat ≤ 0x7F then 1 else if c.toNat ≤ 0x7FF then 2
    else if c.toNat ≤ 0xFFFF then 3 else 4 := by
  simp only [Char.utf8Size, Char.toNat, UInt32.le_iff_toNat_le]
  rfl

theorem length_encode_singleton (c : Char) :
    ((unitsOf c).flatMap encodeUnit).length = width c := by
  have hc := toNat_valid c
  simp only [unitsOf, width, utf8Size_eq]
  split
  · simp only [List.flatMap_cons, List.flatMap_nil, List.append_nil, length_encodeUnit]
    split_ifs <;> omega
  · simp only [List.flatMap_cons, List.flatMap_nil, List.append_nil, List.length_append,
      length_encodeUnit]
    split_ifs <;> omega

theorem length_encode_cons (c : Char) (cs : List Char) :
    (encode (c :: cs)).length = width c + (encode cs).length := by
  simp only [encode, List.flatMap_cons, List.flatMap_append, List.length_append,
    length_encode_singleton]

theorem length_eq (cs : List Char) : length cs = (encode cs).length := by
  suffices general : ∀ n, cs.foldl (fun n c => n + width c) n = n + (encode cs).length by
    simpa [length] using general 0
  induction cs with
  | nil => simp [encode]
  | cons c cs ih =>
    intro n
    rw [List.foldl_cons, ih, length_encode_cons, Nat.add_assoc]

theorem length_encode_replicate (count : Nat) (c : Char) :
    (encode (List.replicate count c)).length = count * width c := by
  induction count with
  | zero => simp [encode]
  | succ count ih => rw [List.replicate_succ, length_encode_cons, ih, Nat.succ_mul, Nat.add_comm]

end JarRename.Text.ModifiedUtf8
