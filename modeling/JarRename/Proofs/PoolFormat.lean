import Mathlib
import JarRename.Proofs.ConstantPool
import JarRename.Proofs.ModifiedUtf8

/-!
# Constant pools are read as they were written

Writing a pool that was read gives the bytes back, and reading what was written gives every constant
back at its index. A constant has to be writable for the second half: a text must not be too long,
and undecoded bytes must not be the encoding of a text.
-/
namespace JarRename

open Reader

namespace Constant

/-- Constants that are read back from what is written for them. -/
def Writable : Constant → Prop
  | utf8 text => (Text.ModifiedUtf8.encode text.toList).length < 0x10000
  | rawUtf8 bytes => Text.ModifiedUtf8.decode? bytes = none ∧ bytes.length < 0x10000
  | _ => True

/-- The bytes of a writable constant. -/
def written (constant : Constant) : Bytes := constant.write.toOption.getD []

theorem write_eq_written {constant : Constant} (h : constant.Writable) :
    constant.write = .ok constant.written := by
  cases constant with
  | utf8 text => simp [written, write, writeText, show _ < _ from h, Except.toOption]
  | rawUtf8 bytes => simp [written, write, writeText, h.2, Except.toOption]
  | methodRef owner nat isInterface => cases isInterface <;> rfl
  | _ => rfl

theorem written_of_text {bytes : Bytes} (h : bytes.length < 0x10000) :
    (ofTextBytes bytes).Writable ∧
      (ofTextBytes bytes).written = 1 :: (Bytes.word 2 bytes.length ++ bytes) := by
  unfold ofTextBytes
  split
  · rename_i cs hd
    have he := Text.ModifiedUtf8.encode_of_decode? hd
    simp [Writable, written, write, writeText, he, h, Except.toOption]
  · rename_i hd
    simp [Writable, written, write, writeText, hd, h, Except.toOption]

theorem exists_reader {ε α : Type} {reader : Reader ε α} {bytes : Bytes}
    {result : Except ε (α × Bytes)} (h : reader bytes = result) :
    ∃ same, reader = same ∧ same bytes = result := ⟨_, rfl, h⟩

/-- What follows the tag of a method handle. -/
theorem handle_ok {index : PoolIndex} {bytes rest : Bytes} {constant : Constant}
    (h : (do
      let byte ← Reader.u1
      match HandleKind.ofByte? byte with
      | some kind => return methodHandle kind (← Reader.u2)
      | none => throw (.unknownTag index byte) : Reader ClassError Constant) bytes =
        .ok (constant, rest)) :
    ∃ kind member, constant = methodHandle kind member ∧
      bytes = kind.toByte :: (Bytes.u2 member ++ rest) := by
  simp only [bind_ok_iff, u1_ok_iff] at h
  obtain ⟨byte, after, rfl, h⟩ := h
  rcases hk : HandleKind.ofByte? byte with _ | kind
  · simp only [hk, throw_ok_iff] at h
  · simp only [hk, bind_ok_iff, pure_ok_iff, u2_ok_iff] at h
    obtain ⟨member, _, rfl, rfl, rfl⟩ := h
    exact ⟨kind, member, rfl, by rw [HandleKind.toByte_of_ofByte? hk]⟩

theorem read_sound {index : PoolIndex} {bytes rest : Bytes} {constant : Constant}
    (h : read index bytes = .ok (constant, rest)) :
    constant.Writable ∧ bytes = constant.written ++ rest := by
  simp only [read, bind_ok_iff, u1_ok_iff] at h
  obtain ⟨tag, mid, rfl, h⟩ := h
  have ht : tag = UInt8.ofNat tag.toNat := by simp
  obtain ⟨reader, hr, h⟩ := exists_reader h
  split at hr
  case h_18 =>
    subst hr
    exact ((throw_ok_iff _ _ _ _).1 h).elim
  all_goals
    rename_i hn
    rw [hn] at ht
    subst ht hr
  case h_12 =>
    obtain ⟨kind, member, rfl, rfl⟩ := handle_ok h
    exact ⟨trivial, rfl⟩
  all_goals simp only [bind_ok_iff, pure_ok_iff, word_ok_iff, take_ok_iff, u2_ok_iff, u4_ok_iff,
    u8_ok_iff] at h
  case h_1 =>
    obtain ⟨n, _, ⟨hlt, rfl⟩, text, _, ⟨rfl, rfl⟩, rfl, rfl⟩ := h
    obtain ⟨hw, he⟩ := written_of_text (by simpa using hlt)
    exact ⟨hw, by rw [he, List.cons_append, List.append_assoc]; rfl⟩
  -- one number
  case h_2 | h_3 | h_4 | h_5 | h_6 | h_7 | h_13 | h_16 | h_17 =>
    obtain ⟨n, _, rfl, rfl, rfl⟩ := h
    exact ⟨trivial, rfl⟩
  -- two indices
  case h_8 | h_9 | h_10 | h_11 | h_14 | h_15 =>
    obtain ⟨i, _, rfl, j, _, rfl, rfl, rfl⟩ := h
    exact ⟨trivial, rfl⟩

theorem read_complete {constant : Constant} (h : constant.Writable) (index : PoolIndex)
    (rest : Bytes) : read index (constant.written ++ rest) = .ok (constant, rest) := by
  simp only [read, bind_ok_iff, u1_ok_iff]
  cases constant with
  | utf8 text =>
    have hb : (utf8 text).written = 1 :: (Bytes.word 2 (Text.ModifiedUtf8.encode text.toList).length
        ++ Text.ModifiedUtf8.encode text.toList) := by
      simp [written, write, writeText, show _ < _ from h, Except.toOption]
    refine ⟨1, _, by rw [hb, List.cons_append, List.append_assoc], ?_⟩
    simp only [UInt8.reduceToNat, bind_ok_iff, pure_ok_iff, word_ok_iff, take_ok_iff]
    refine ⟨_, _, ⟨h, rfl⟩, _, _, ⟨rfl, rfl⟩, ?_, rfl⟩
    simp [ofTextBytes, Text.ModifiedUtf8.decode?_encode]
  | rawUtf8 bytes =>
    have hb : (rawUtf8 bytes).written = 1 :: (Bytes.word 2 bytes.length ++ bytes) := by
      simp [written, write, writeText, h.2, Except.toOption]
    refine ⟨1, _, by rw [hb, List.cons_append, List.append_assoc], ?_⟩
    simp only [UInt8.reduceToNat, bind_ok_iff, pure_ok_iff, word_ok_iff, take_ok_iff]
    refine ⟨_, _, ⟨h.2, rfl⟩, _, _, ⟨rfl, rfl⟩, ?_, rfl⟩
    simp [ofTextBytes, h.1]
  | methodHandle kind member =>
    refine ⟨15, _, rfl, ?_⟩
    simp only [UInt8.reduceToNat, bind_ok_iff, u1_ok_iff]
    refine ⟨kind.toByte, _, rfl, ?_⟩
    simp only [HandleKind.ofByte?_toByte, bind_ok_iff, pure_ok_iff, u2_ok_iff]
    exact ⟨_, _, rfl, rfl, rfl⟩
  | integer | float | long | double | classRef | string | methodType | module | package =>
    refine ⟨_, _, rfl, ?_⟩
    simp only [UInt8.reduceToNat, bind_ok_iff, pure_ok_iff, u2_ok_iff, u4_ok_iff, u8_ok_iff]
    exact ⟨_, _, rfl, rfl, rfl⟩
  | methodRef owner nat isInterface =>
    cases isInterface <;> refine ⟨_, _, rfl, ?_⟩ <;>
      simp only [UInt8.reduceToNat, bind_ok_iff, pure_ok_iff, u2_ok_iff] <;>
      exact ⟨_, _, List.append_assoc .., _, _, rfl, rfl, rfl⟩
  | fieldRef | nameAndType | dynamic | invokeDynamic =>
    refine ⟨_, _, rfl, ?_⟩
    simp only [UInt8.reduceToNat, bind_ok_iff, pure_ok_iff, u2_ok_iff]
    exact ⟨_, _, List.append_assoc .., _, _, rfl, rfl, rfl⟩

end Constant

namespace SlotVec

variable {α : Type} [HasWidth α]

theorem map_snd_foldl_push (v : SlotVec α) (xs : List α) :
    (xs.foldl push v).toList.map (·.2) = v.toList.map (·.2) ++ xs := by
  induction xs generalizing v with
  | nil => simp
  | cons x xs ih => simp [ih]

theorem length_le_sum_width (xs : List α) (hw : ∀ x : α, 0 < width x) :
    xs.length ≤ (xs.map width).sum := by
  induction xs with
  | nil => exact le_rfl
  | cons x xs ih =>
    have hx := hw x
    rw [List.length_cons, List.map_cons, List.sum_cons]
    omega

/-- A vector is its elements, pushed one after the other. -/
theorem LaidFrom.eq_foldl_push {start : Nat} {v : SlotVec α} (h : v.LaidFrom start)
    (room : v.next < addressCount) :
    (v.toList.map (·.2)).foldl SlotVec.push (emptyAt start) = v := by
  obtain ⟨⟨entries⟩, next⟩ := v
  change Laid start entries next at h
  show (entries.map (·.2)).foldl SlotVec.push (emptyAt start) = ⟨⟨entries⟩, next⟩
  induction h with
  | empty => rfl
  | push prior wide ih =>
    have hprior := ih (lt_of_le_of_lt (Nat.le_add_right ..) room)
    simp [List.foldl_append, hprior, SlotVec.push, Nat.mod_eq_of_lt room]

end SlotVec

namespace ConstantPool

open SlotVec

def Writable (pool : ConstantPool) : Prop := ∀ entry ∈ pool.slots.toList, entry.2.Writable

theorem writeAll_eq (seen : Bytes) {constants : List Constant}
    (h : ∀ constant ∈ constants, constant.Writable) :
    writeAll seen constants = .ok (seen.reverse ++ constants.flatMap Constant.written) := by
  induction constants generalizing seen with
  | nil => simp [writeAll]
  | cons constant constants ih =>
    have hc := Constant.write_eq_written (h constant (by simp))
    have hi := ih (constant.written.reverseAux seen) fun c hm => h c (by simp [hm])
    simp only [writeAll, hc, hi]
    simp [List.reverseAux_eq]

theorem write_eq {pool : ConstantPool} (h : pool.Writable) :
    pool.write = .ok (Bytes.u2 pool.slotCount ++
      (pool.slots.toList.map (·.2)).flatMap Constant.written) := by
  rw [write, writeAll_eq [] (List.forall_mem_map.2 h)]
  rfl

/-- What is read is put behind what is there. -/
theorem readUpTo_sound {count : UInt16} {fuel : Nat} {pool after : ConstantPool}
    {bytes rest : Bytes} (h : readUpTo count fuel pool bytes = .ok (after, rest)) :
    ∃ constants : List Constant, (∀ constant ∈ constants, constant.Writable) ∧
      after.slots = constants.foldl SlotVec.push pool.slots ∧
      bytes = constants.flatMap Constant.written ++ rest := by
  induction fuel generalizing pool bytes with
  | zero =>
    simp only [readUpTo, Except.ok.injEq, Prod.mk.injEq] at h
    exact ⟨[], by simp, by simp [h.1], by simp [h.2]⟩
  | succ fuel ih =>
    unfold readUpTo at h
    split at h
    · split at h
      · simp at h
      · rename_i constant left hr
        split at h
        · simp at h
        · rename_i index pushed hp
          obtain ⟨constants, hw, ha, rfl⟩ := ih h
          obtain ⟨hc, rfl⟩ := Constant.read_sound hr
          obtain ⟨-, -, hs, -⟩ := push_ok hp
          refine ⟨constant :: constants, by simpa using ⟨hc, hw⟩, ?_, by simp⟩
          rw [ha, hs, List.foldl_cons]
    · simp only [Except.ok.injEq, Prod.mk.injEq] at h
      exact ⟨[], by simp, by simp [h.1], by simp [h.2]⟩

theorem pushError?_eq_none {pool : ConstantPool} {constant : Constant} (hw : constant.Writable)
    (hb : pool.slots.next + width constant ≤ maxSlots) : pool.pushError? constant = none := by
  unfold pushError?
  rw [if_neg (by omega)]
  cases constant with
  | utf8 text =>
    have hl : (Text.ModifiedUtf8.encode text.toList).length < 0x10000 := hw
    rw [← Text.ModifiedUtf8.length_eq] at hl
    exact if_neg (by simp only [maxTextLength]; omega)
  | _ => rfl

/-- The constants of a pool are read back behind those that are there. -/
theorem readUpTo_complete {fuel : Nat} {pool : ConstantPool} (hs : pool.Sound)
    {constants : List Constant} (hw : ∀ constant ∈ constants, constant.Writable)
    (hb : pool.slots.next + (constants.map width).sum ≤ maxSlots)
    (hf : constants.length ≤ fuel) (rest : Bytes) :
    ∃ after, readUpTo (UInt16.ofNat (pool.slots.next + (constants.map width).sum)) fuel pool
        (constants.flatMap Constant.written ++ rest) = .ok (after, rest) ∧
      after.slots = constants.foldl SlotVec.push pool.slots := by
  induction constants generalizing fuel pool with
  | nil =>
    refine ⟨pool, ?_, rfl⟩
    cases fuel with
    | zero => rfl
    | succ fuel =>
      unfold readUpTo
      exact if_neg (by simp [slotCount])
  | cons constant constants ih =>
    obtain ⟨fuel, rfl⟩ : ∃ k, fuel = k + 1 := ⟨fuel - 1, by simp at hf; omega⟩
    have hpos := constant.width_pos
    rw [List.map_cons, List.sum_cons, ← Nat.add_assoc] at hb ⊢
    have hnone : pool.pushError? constant = none :=
      pushError?_eq_none (hw constant (by simp)) (by omega)
    obtain ⟨index, pushed, hp⟩ : ∃ index pushed, push constant pool = (.ok index, pushed) := by
      unfold push
      rw [hnone]
      exact ⟨_, _, rfl⟩
    obtain ⟨-, -, hps, -⟩ := push_ok hp
    have hnext : pushed.slots.next = pool.slots.next + width constant := by
      rw [hps, next_push (room_of_pushError? hnone)]
    have hlt : pool.slotCount < UInt16.ofNat
        (pool.slots.next + width constant + (constants.map width).sum) := by
      rw [UInt16.lt_iff_toNat_lt, hs.toNat_slotCount, UInt16.toNat_ofNat']
      simp only [maxSlots] at hb
      omega
    have hi := ih (sound_push hs hp) (fun c hc => hw c (by simp [hc])) (by rwa [hnext])
      (by simpa using hf)
    rw [hnext, hps] at hi
    obtain ⟨after, hr, ha⟩ := hi
    refine ⟨after, ?_, ha⟩
    unfold readUpTo
    rw [if_pos hlt, List.flatMap_cons, List.append_assoc,
      Constant.read_complete (hw constant (by simp))]
    simp only [hp]
    exact hr

/-- The constants of a pool that was read can be written, and were read from what is written. -/
theorem read_sound {pool : ConstantPool} {bytes rest : Bytes}
    (h : ConstantPool.read bytes = .ok (pool, rest)) :
    pool.Writable ∧ bytes = Bytes.u2 pool.slotCount ++
      ((pool.slots.toList.map (·.2)).flatMap Constant.written ++ rest) := by
  simp only [ConstantPool.read, Reader.bind_ok_iff, u2_ok_iff] at h
  obtain ⟨count, mid, rfl, filled, left, hr, h⟩ := h
  split at h
  · rename_i hc
    rw [Reader.pure_ok_iff] at h
    obtain ⟨rfl, rfl⟩ := h
    obtain ⟨constants, hw, hs, rfl⟩ := readUpTo_sound hr
    have hl : filled.slots.toList.map (·.2) = constants := by
      rw [hs, map_snd_foldl_push]
      rfl
    exact ⟨fun entry he => hw _ (hl ▸ List.mem_map_of_mem he), by rw [hl, hc]⟩
  · rw [Reader.throw_ok_iff] at h
    exact h.elim

/-- Writing a pool that was read gives the bytes it was read from. -/
theorem write_of_read {pool : ConstantPool} {bytes rest : Bytes}
    (h : ConstantPool.read bytes = .ok (pool, rest)) :
    ∃ written, pool.write = .ok written ∧ bytes = written ++ rest := by
  obtain ⟨hw, rfl⟩ := read_sound h
  exact ⟨_, write_eq hw, (List.append_assoc ..).symm⟩

/-- A pool is read back from what is written for it, with the same slots. -/
theorem read_of_write {pool : ConstantPool} (hs : pool.Sound) (hw : pool.Writable) :
    ∃ written, pool.write = .ok written ∧ ∀ rest, ∃ after,
      ConstantPool.read (written ++ rest) = .ok (after, rest) ∧ after.slots = pool.slots := by
  refine ⟨_, write_eq hw, fun rest => ?_⟩
  have hb := hs.bound
  have he := LaidFrom.eq_foldl_push hs.laid (lt_of_le_of_lt hb (by decide))
  have hn : empty.slots.next + ((pool.slots.toList.map (·.2)).map width).sum =
      pool.slots.next := by
    rw [Laid.next_eq hs.laid, List.map_map]
    rfl
  have hl := length_le_sum_width (pool.slots.toList.map (·.2)) Constant.width_pos
  have hf : (pool.slots.toList.map (·.2)).length ≤ pool.slotCount.toNat := by
    rw [hs.toNat_slotCount]
    omega
  have hr := readUpTo_complete sound_empty (List.forall_mem_map.2 hw) (hn ▸ hb) hf rest
  rw [hn, show empty.slots = emptyAt 1 from rfl, he] at hr
  obtain ⟨after, hr, ha⟩ := hr
  refine ⟨after, ?_, ha⟩
  simp only [ConstantPool.read, Reader.bind_ok_iff, u2_ok_iff]
  refine ⟨pool.slotCount, _, by rw [List.append_assoc], after, rest, hr, ?_⟩
  rw [if_pos (by rw [slotCount, slotCount, ha]), Reader.pure_ok_iff]
  exact ⟨rfl, rfl⟩

end ConstantPool

end JarRename
