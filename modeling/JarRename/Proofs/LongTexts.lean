import Mathlib
import JarRename.Proofs.FailedReplacements
import JarRename.Proofs.PoolFormat

/-!
# Texts that are too long to be written

A text is written behind its length, which takes two bytes. Only a decoded text that is added at the
end is checked for that: undecoded bytes are not, and neither is a text that replaces another
constant. No text ever makes way again, so a pool can be written exactly if no operation that
succeeded has brought in an unchecked text that is too long.
-/
namespace JarRename

open ConstantPool

/-- The length of a text that has more bytes than two bytes can count. -/
def Constant.overlong? : Constant → Option Nat
  | utf8 text => excess? (Text.ModifiedUtf8.encode text.toList).length
  | rawUtf8 bytes => excess? bytes.length
  | _ => none
where
  excess? (length : Nat) : Option Nat := if maxTextLength < length then some length else none

namespace Constant

theorem excess?_eq_some_iff {length n : Nat} :
    overlong?.excess? length = some n ↔ maxTextLength < length ∧ length = n := by
  unfold overlong?.excess?
  split
  · rename_i h
    simp [h]
  · rename_i h
    simp [h]

theorem writeText_error_iff {bytes : Bytes} {e : ClassError} :
    writeText bytes = .error e ↔
      ∃ n, overlong?.excess? bytes.length = some n ∧ e = .unwritableText n := by
  unfold writeText
  simp only [excess?_eq_some_iff, maxTextLength]
  split
  · rename_i h
    refine iff_of_false (by simp) ?_
    rintro ⟨n, ⟨hn, -⟩, -⟩
    omega
  · rename_i h
    constructor
    · rintro ⟨⟩
      exact ⟨_, ⟨by omega, rfl⟩, rfl⟩
    · rintro ⟨n, ⟨-, rfl⟩, rfl⟩
      rfl

/-- Only texts are refused when they are written. -/
theorem write_error_iff {constant : Constant} {e : ClassError} :
    constant.write = .error e ↔ ∃ n, constant.overlong? = some n ∧ e = .unwritableText n := by
  cases constant with
  | utf8 text => exact writeText_error_iff
  | rawUtf8 bytes => exact writeText_error_iff
  | methodRef owner nat isInterface => cases isInterface <;> simp [write, overlong?]
  | _ => simp [write, overlong?]

/-- What is read is short enough to be written. -/
theorem overlong?_of_writable {constant : Constant} (h : constant.Writable) :
    constant.overlong? = none := by
  cases hn : constant.overlong? with
  | none => rfl
  | some n => cases (write_eq_written h).symm.trans (write_error_iff.2 ⟨n, hn, rfl⟩)

theorem overlong?_eq_none_of_plain {constant : Constant} (hf : isFixed constant = false) :
    constant.overlong? = none := by
  cases constant with
  | utf8 | rawUtf8 | nameAndType => cases hf
  | _ => rfl

end Constant

namespace ConstantPool

open SlotVec Stateful

variable {pool after : ConstantPool} {constant : Constant} {n : Nat}

/-- A text of this length stands in the pool, and it is too long. -/
def HoldsOverlong (pool : ConstantPool) (n : Nat) : Prop :=
  ∃ constant ∈ pool.constants, constant.overlong? = some n

theorem holdsOverlong_iff :
    pool.HoldsOverlong n ↔ ∃ entry ∈ pool.slots.toList, entry.2.overlong? = some n := by
  simp only [HoldsOverlong, constants_eq, List.mem_map, exists_exists_and_eq_and]

theorem writeAll_error_iff {seen : Bytes} {constants : List Constant} {e : ClassError} :
    writeAll seen constants = .error e ↔
      ∃ n, constants.findSome? Constant.overlong? = some n ∧ e = .unwritableText n := by
  induction constants generalizing seen with
  | nil => simp [writeAll]
  | cons constant constants ih =>
    rw [writeAll, List.findSome?_cons]
    cases hw : constant.write with
    | error e' =>
      obtain ⟨n, hn, rfl⟩ := Constant.write_error_iff.1 hw
      simp [hn, eq_comm]
    | ok bytes =>
      have hnone : constant.overlong? = none := by
        cases hn : constant.overlong? with
        | none => rfl
        | some n => cases hw.symm.trans (Constant.write_error_iff.2 ⟨n, hn, rfl⟩)
      rw [hnone]
      exact ih

/-- Writing fails for the first text that is too long. -/
theorem write_error_iff {e : ClassError} :
    pool.write = .error e ↔
      ∃ n, pool.constants.findSome? Constant.overlong? = some n ∧ e = .unwritableText n := by
  rw [write, bind_pure_comp, Fallible.map_error_iff, writeAll_error_iff, constants_eq]

theorem write_ok_iff : (∃ bytes, pool.write = .ok bytes) ↔ ∀ n, ¬pool.HoldsOverlong n := by
  constructor
  · rintro ⟨bytes, hw⟩ n ⟨constant, hm, hn⟩
    have hsome : (pool.constants.findSome? Constant.overlong?).isSome :=
      List.findSome?_isSome_iff.2 ⟨constant, hm, Option.isSome_of_eq_some hn⟩
    obtain ⟨first, hfirst⟩ := Option.isSome_iff_exists.1 hsome
    cases hw.symm.trans (write_error_iff.2 ⟨first, hfirst, rfl⟩)
  · intro h
    cases hw : pool.write with
    | ok bytes => exact ⟨bytes, rfl⟩
    | error e =>
      obtain ⟨n, hn, rfl⟩ := write_error_iff.1 hw
      obtain ⟨constant, hm, hc⟩ := List.exists_of_findSome?_eq_some hn
      exact absurd ⟨constant, hm, hc⟩ (h n)

/-- Of the texts that are too long, only undecoded ones are added at the end. -/
theorem eq_rawUtf8_of_overlong? (hp : pool.pushError? constant = none)
    (hn : constant.overlong? = some n) : ∃ bytes, constant = .rawUtf8 bytes := by
  cases constant with
  | rawUtf8 bytes => exact ⟨bytes, rfl⟩
  | utf8 text =>
    obtain ⟨hlong, -⟩ := Constant.excess?_eq_some_iff.1 hn
    rw [← Text.ModifiedUtf8.length_eq] at hlong
    unfold pushError? at hp
    split at hp
    · cases hp
    · cases hp.symm.trans (if_pos hlong)
  | _ => cases hn

theorem holdsOverlong_push (constant : Constant) :
    (push constant pool).2.HoldsOverlong n ↔ pool.HoldsOverlong n ∨
      (∃ index, (push constant pool).1 = .ok index) ∧ constant.overlong? = some n := by
  rcases hr : push constant pool with ⟨e | index, after⟩
  · obtain rfl := push_error hr
    simp
  · obtain ⟨-, -, hslots, -⟩ := push_ok hr
    have hconstants : after.constants = pool.constants ++ [constant] := by
      rw [constants_eq, constants_eq, hslots, toList_push, List.map_append, List.map_singleton]
    simp [HoldsOverlong, hconstants, or_and_right, exists_or]

/-- What is shared is checked. -/
theorem keeps_holdsOverlong (pool : ConstantPool) (n : Nat) (hc : constant.isShared = true) :
    Keeps (fun later => later.HoldsOverlong n ↔ pool.HoldsOverlong n) (push constant) := by
  intro later hl
  rw [holdsOverlong_push, hl, or_iff_left]
  rintro ⟨⟨index, hok⟩, hn⟩
  obtain ⟨hp, -⟩ := push_ok (show push constant later = (.ok index, _) from Prod.ext hok rfl)
  obtain ⟨bytes, rfl⟩ := eq_rawUtf8_of_overlong? hp hn
  cases hc

/-- A text stays where it is, so only the new constant counts. -/
theorem holdsOverlong_set (hs : pool.Sound) (index : PoolIndex) (new : Constant) :
    (set index new pool).2.HoldsOverlong n ↔ pool.HoldsOverlong n ∨
      (set index new pool).1 = .ok () ∧ new.overlong? = some n := by
  rcases hr : set index new pool with ⟨e | ⟨⟩, after⟩
  · simp [holdsOverlong_iff, slots_of_set_error hr]
  obtain ⟨old, hg, hfixed, -, -, hlist⟩ := set_ok hs hr
  have hold := hs.get_ok_iff.1 hg
  simp only [holdsOverlong_iff, hlist, true_and]
  constructor
  · rintro ⟨_, hm, hn⟩
    obtain ⟨entry, hentry, rfl⟩ := List.mem_map.1 hm
    by_cases ha : entry.1 = index.toNat
    · rw [replaced, if_pos ha] at hn
      exact .inr hn
    · rw [replaced, if_neg ha] at hn
      exact .inl ⟨entry, hentry, hn⟩
  · rintro (⟨entry, hm, hn⟩ | hn)
    · refine ⟨_, List.mem_map_of_mem hm, ?_⟩
      rw [replaced, if_neg]
      · exact hn
      · intro ha
        -- The text would be `old`, the constant that is replaced, and that is no text.
        have hvalue := hs.laid.eq_of_address (show (index.toNat, entry.2) ∈ _ from ha ▸ hm) hold
        rw [hvalue, Constant.overlong?_eq_none_of_plain hfixed] at hn
        cases hn
    · exact ⟨_, List.mem_map_of_mem hold, by rwa [replaced, if_pos rfl]⟩

/-- The length of a text that is too long, where the operation adds it without a check: undecoded
bytes at the end, or any text in the place of another constant. -/
def Operation.unchecked? : Operation → Option Nat
  | push (.rawUtf8 bytes) => Constant.overlong? (.rawUtf8 bytes)
  | set _ constant => constant.overlong?
  | _ => none

/-- The answer is not an error. -/
def Succeeded (answer : Except ClassError PoolIndex) : Prop := ∃ index, answer = .ok index

/-- An operation brings in the text that it does not check, if it succeeds, and no other one that is
too long. -/
theorem Operation.holdsOverlong_iff (hs : pool.Sound) (operation : Operation) :
    (operation.run pool).2.HoldsOverlong n ↔ pool.HoldsOverlong n ∨
      Succeeded (operation.run pool).1 ∧ operation.unchecked? = some n := by
  cases operation with
  | push added =>
    rw [run, holdsOverlong_push]
    refine or_congr_right (and_congr_right ?_)
    rintro ⟨index, hok⟩
    obtain ⟨hp, -⟩ := push_ok (show ConstantPool.push added pool = (.ok index, _) from
      Prod.ext hok rfl)
    constructor
    · intro hn
      obtain ⟨bytes, rfl⟩ := eq_rawUtf8_of_overlong? hp hn
      exact hn
    · intro hn
      cases added with
      | rawUtf8 bytes => exact hn
      | _ => cases hn
  | set index new =>
    have hrun : (set index new).run pool = ((ConstantPool.set index new pool).1.map fun _ => index,
        (ConstantPool.set index new pool).2) := by
      rw [run, bind_apply]
      rcases ConstantPool.set index new pool with ⟨_ | _, _⟩ <;> rfl
    rw [hrun, holdsOverlong_set hs]
    refine or_congr_right (and_congr_left fun _ => ?_)
    rcases ConstantPool.set index new pool with ⟨_ | _, _⟩
    · simp [Succeeded, Except.map]
    · simp [Succeeded, Except.map]
  | _ => simpa [unchecked?] using keeps_get (fun _ => keeps_holdsOverlong pool n) rfl pool Iff.rfl

theorem Operation.runAll_cons (operation : Operation) (rest : List Operation)
    (pool : ConstantPool) :
    runAll (operation :: rest) pool =
      ((operation.run pool).1 :: (runAll rest (operation.run pool).2).1,
        (runAll rest (operation.run pool).2).2) := rfl

/-- What a run has brought in unchecked. -/
theorem Operation.holdsOverlong_runAll (hs : pool.Sound) (operations : List Operation) :
    (runAll operations pool).2.HoldsOverlong n ↔ pool.HoldsOverlong n ∨
      ∃ entry ∈ operations.zip (runAll operations pool).1,
        Succeeded entry.2 ∧ entry.1.unchecked? = some n := by
  induction operations generalizing pool with
  | nil => simp [runAll]
  | cons operation rest ih =>
    rw [runAll_cons, List.zip_cons_cons, List.exists_mem_cons_iff,
      ih (operation.keeps_sound pool hs), holdsOverlong_iff hs, or_assoc]

/-- A pool that nothing has been done to yet: an empty one, or one that has been read. -/
inductive Fresh : ConstantPool → Prop
  | empty : Fresh ConstantPool.empty
  | read {bytes rest : Bytes} {pool : ConstantPool}
      (h : ConstantPool.read bytes = .ok (pool, rest)) : Fresh pool

theorem Fresh.sound (h : pool.Fresh) : pool.Sound := by
  cases h with
  | empty => exact sound_empty
  | read h => exact (Reachable.read h).sound

theorem Fresh.not_holdsOverlong (h : pool.Fresh) : ¬pool.HoldsOverlong n := by
  rw [holdsOverlong_iff]
  rintro ⟨entry, hm, hn⟩
  cases h with
  | empty => cases hm
  | read h =>
    obtain ⟨hw, -⟩ := read_sound h
    cases (Constant.overlong?_of_writable (hw entry hm)).symm.trans hn

/-- After a run on a fresh pool the pool can be written exactly if no operation that succeeded has
brought in a text that it did not check and that is too long; otherwise writing names such a
text. -/
theorem write_run (h : pool.Fresh) (operations : List Operation) :
    let run := Operation.runAll operations pool
    ((∃ bytes, run.2.write = .ok bytes) ↔
      ∀ entry ∈ operations.zip run.1, Succeeded entry.2 → entry.1.unchecked? = none) ∧
    ∀ e, run.2.write = .error e → ∃ entry ∈ operations.zip run.1,
      ∃ n, Succeeded entry.2 ∧ entry.1.unchecked? = some n ∧ e = .unwritableText n := by
  intro run
  have hholds (n : Nat) : run.2.HoldsOverlong n ↔ ∃ entry ∈ operations.zip run.1,
      Succeeded entry.2 ∧ entry.1.unchecked? = some n :=
    (Operation.holdsOverlong_runAll h.sound operations).trans (or_iff_right h.not_holdsOverlong)
  constructor
  · simp only [write_ok_iff, hholds]
    constructor
    · intro hnone entry hm hsucceeded
      exact Option.eq_none_iff_forall_ne_some.2 fun n hn =>
        hnone n ⟨entry, hm, hsucceeded, hn⟩
    · rintro hnone n ⟨entry, hm, hsucceeded, hn⟩
      cases (hnone entry hm hsucceeded).symm.trans hn
  · intro e he
    obtain ⟨n, hn, rfl⟩ := write_error_iff.1 he
    obtain ⟨constant, hm, hc⟩ := List.exists_of_findSome?_eq_some hn
    obtain ⟨entry, hentry, hsucceeded, hu⟩ := (hholds n).1 ⟨constant, hm, hc⟩
    exact ⟨entry, hentry, n, hsucceeded, hu, rfl⟩

/-- A pool with a short undecoded text and a decoded one. -/
theorem write_run_short : empty.Fresh ∧ ∃ bytes,
    (Operation.runAll [.push (.rawUtf8 [0xFF]), .getUtf8 "A"] empty).2.write = .ok bytes := by
  refine ⟨.empty, (write_run .empty _).1.2 fun entry hm _ => ?_⟩
  have hoperation := (List.of_mem_zip hm).1
  simp only [List.mem_cons, List.not_mem_nil, or_false] at hoperation
  rcases hoperation with h | h
  · rw [h]
    rfl
  · rw [h]
    rfl

/-- Undecoded bytes, and a decoded text in the place of a number, are accepted with one byte more
than can be written. -/
theorem overlong_accepted :
    let bytes := List.replicate 65536 0xFF
    let text := String.ofList (List.replicate 65536 'a')
    let pushed := Operation.runAll [.push (.rawUtf8 bytes)] empty
    let replaced := Operation.runAll [.push (.integer 0), .set 1 (.utf8 text)] empty
    (pushed.1 = [.ok 1] ∧ pushed.2.write = .error (.unwritableText 65536)) ∧
      replaced.1 = [.ok 1, .ok 1] ∧ replaced.2.write = .error (.unwritableText 65536) := by
  intro bytes text pushed replaced
  have hbytes : (Constant.rawUtf8 bytes).overlong? = some 65536 :=
    Constant.excess?_eq_some_iff.2 ⟨by rw [List.length_replicate]; decide, List.length_replicate⟩
  have htext : (Constant.utf8 text).overlong? = some 65536 := by
    have hlength : (Text.ModifiedUtf8.encode text.toList).length = 65536 := by
      rw [String.toList_ofList, Text.ModifiedUtf8.length_encode_replicate]
      decide
    exact Constant.excess?_eq_some_iff.2 ⟨by rw [hlength]; decide, hlength⟩
  clear_value bytes text
  refine ⟨⟨rfl, write_error_iff.2 ⟨65536, ?_, rfl⟩⟩, ?_⟩
  · rw [show pushed.2.constants = [.rawUtf8 bytes] from rfl, List.findSome?_singleton, hbytes]
  have hs : (push (.integer 0) empty).2.Sound := keeps_push _ _ sound_empty
  have hg : (push (.integer 0) empty).2.get 1 = .ok (.integer 0) :=
    hs.get_ok_iff.2 (List.mem_singleton.2 rfl)
  obtain ⟨after, hset⟩ := @set_succeeds _ 1 _ (.utf8 text) hg rfl rfl
  have hanswer : (Operation.set 1 (.utf8 text)).run ((Operation.push (.integer 0)).run empty).2 =
      (.ok 1, after) := bind_ok_iff.2 ⟨(), after, hset, rfl⟩
  have hrun : replaced = ([.ok 1, .ok 1], after) := by
    show Operation.runAll _ _ = _
    rw [Operation.runAll_cons, Operation.runAll_cons, hanswer]
    rfl
  obtain ⟨-, -, -, -, -, hlist⟩ := set_ok hs hset
  have hconstants : after.constants = [.utf8 text] := by
    rw [constants_eq, hlist]
    rfl
  rw [hrun]
  refine ⟨rfl, write_error_iff.2 ⟨65536, ?_, rfl⟩⟩
  rw [hconstants, List.findSome?_singleton, htext]

end ConstantPool

end JarRename
