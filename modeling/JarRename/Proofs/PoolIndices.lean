import Mathlib
import JarRename.Proofs.ConstantPool

/-!
# Indices into a pool are stable

A constant stands behind the slots of the constants before it, and only the index of its first slot
finds it. Additions leave every constant where it stands, and a replacement changes the constant at
its own index at most. All this holds of operations that fail as well.
-/
namespace JarRename.ConstantPool

open SlotVec Stateful

variable {pool after : ConstantPool} {index : PoolIndex} {constant : Constant}

def constants (pool : ConstantPool) : List Constant := pool.toList.map (·.2)

theorem constants_eq (pool : ConstantPool) : pool.constants = pool.slots.toList.map (·.2) := by
  simp [constants, toList, Function.comp_def]

/-- The index is that of the first slot of the constant, behind the slots of those before it. -/
def FirstSlot (constants : List Constant) (index : PoolIndex) (constant : Constant) : Prop :=
  ∃ before after, constants = before ++ constant :: after ∧
    index.toNat = 1 + (before.map width).sum

/-- The second pool holds what the first one holds, at the same indices. -/
def Holds (pool after : ConstantPool) : Prop :=
  ∀ index constant, pool.get index = .ok constant → after.get index = .ok constant

theorem get_error {e : ClassError} (h : pool.get index = .error e) :
    e = .badIndex index .constant := by
  unfold get at h
  split at h
  · cases h
  · cases h
    rfl

theorem get_ext (h : ∀ constant, after.get index = .ok constant ↔ pool.get index = .ok constant) :
    after.get index = pool.get index := by
  cases hp : pool.get index with
  | ok constant => exact (h constant).2 hp
  | error e =>
    cases ha : after.get index with
    | ok constant =>
      have hok := (h constant).1 ha
      rw [hp] at hok
      cases hok
    | error e' => rw [get_error hp, get_error ha]

namespace Sound

theorem get_ok_iff_firstSlot (h : pool.Sound) :
    pool.get index = .ok constant ↔ FirstSlot pool.constants index constant := by
  rw [h.get_ok_iff, Laid.mem_iff h.laid, FirstSlot, constants_eq]

theorem slotCount_eq (h : pool.Sound) :
    pool.slotCount.toNat = 1 + (pool.constants.map width).sum := by
  rw [h.toNat_slotCount, Laid.next_eq h.laid, constants_eq, List.map_map]
  rfl

theorem get_bounds (h : pool.Sound) (hg : pool.get index = .ok constant) :
    1 ≤ index.toNat ∧ index.toNat + width constant ≤ pool.slotCount.toNat := by
  rw [h.toNat_slotCount]
  exact h.laid.address_bounds (h.get_ok_iff.1 hg)

/-- The second slot of a wide constant belongs to no other one. -/
theorem get_second_ne_ok (h : pool.Sound) (hg : pool.get index = .ok constant)
    (hw : width constant = 2) (other : Constant) : pool.get (index + 1) ≠ .ok other := by
  intro ho
  have hb := h.get_bounds hg
  have hmost := pool.slotCount.toNat_lt
  have hnext : (index + 1).toNat = index.toNat + 1 := by
    rw [UInt16.toNat_add, UInt16.toNat_one]
    omega
  have hapart := Laid.apart h.laid (h.get_ok_iff.1 hg) (h.get_ok_iff.1 ho)
  omega

end Sound

theorem keeps_holds (pool : ConstantPool) (constant : Constant) :
    Keeps (fun later => later.Sound ∧ pool.Holds later) (push constant) := by
  rintro later ⟨hs, hh⟩
  rcases hr : push constant later with ⟨e | i, next⟩
  · rw [push_error hr]
    exact ⟨hs, hh⟩
  · have hold := (get_push hs hr).2
    exact ⟨sound_push hs hr, fun index c hc => hold index c (hh index c hc)⟩

/-- What is found stays where it is as long as nothing is replaced. -/
theorem Operation.holds {operation : Operation} (hs : pool.Sound) (hn : operation.isSet = false) :
    pool.Holds (operation.run pool).2 := by
  have hk := Operation.keeps_of_push (keeps_holds pool) hn
  exact (hk pool ⟨hs, fun _ _ h => h⟩).2

section Set

variable {place : PoolIndex}

/-- A replacement changes one element, and none if it fails. -/
theorem slots_set (hs : pool.Sound) (place : PoolIndex) (constant : Constant) :
    (set place constant pool).2.slots.next = pool.slots.next ∧
      ((set place constant pool).2.slots.toList = pool.slots.toList ∨
        (set place constant pool).2.slots.toList =
          pool.slots.toList.map (replaced place.toNat constant)) := by
  rcases hr : set place constant pool with ⟨e | ⟨⟩, after⟩
  · have he := slots_of_set_error hr
    exact ⟨congrArg SlotVec.next he, .inl (congrArg SlotVec.toList he)⟩
  · obtain ⟨-, -, -, -, hn, hl⟩ := set_ok hs hr
    exact ⟨hn, .inr hl⟩

theorem addresses_set (hs : pool.Sound) (place : PoolIndex) (constant : Constant) :
    (set place constant pool).2.toList.map (·.1) = pool.toList.map (·.1) := by
  obtain ⟨-, hl | hl⟩ := slots_set hs place constant
  · simp [toList, hl]
  · simp [toList, hl, Function.comp_def]

theorem get_set_of_ne (hs : pool.Sound) (constant : Constant) (hne : index ≠ place) :
    (set place constant pool).2.get index = pool.get index := by
  have hn : index.toNat ≠ place.toNat := fun h => hne (UInt16.toNat_inj.1 h)
  apply get_ext
  intro c
  rw [(sound_set hs place constant).get_ok_iff, hs.get_ok_iff]
  obtain ⟨-, hl | hl⟩ := slots_set hs place constant
  · rw [hl]
  · rw [hl, List.mem_map]
    constructor
    · rintro ⟨entry, hm, he⟩
      have haddress : entry.1 = index.toNat := by rw [← replaced_fst place.toNat constant, he]
      rw [replaced, if_neg (haddress ▸ hn)] at he
      exact he ▸ hm
    · intro hm
      exact ⟨_, hm, if_neg hn⟩

end Set

/-- A pool of one wide constant. -/
def widePool : ConstantPool := ((Operation.push (.long 7)).run empty).2

/-- Indices are stable. The number of slots is one more than the widths of all constants, and a
constant is found at the index of its first slot and nowhere else. Additions leave what is found at
an index, a replacement changes no index and nothing at the others, and what is added is found. -/
theorem indices_stable (h : pool.Reachable) :
    (pool.slotCount.toNat = 1 + (pool.constants.map width).sum ∧
      pool.slots.next = pool.slotCount.toNat ∧ pool.slots.next ≤ 65535) ∧
    (∀ index constant, pool.get index = .ok constant ↔
      FirstSlot pool.constants index constant) ∧
    (∀ constant, pool.get 0 ≠ .ok constant) ∧
    (∀ index constant, pool.slotCount ≤ index → pool.get index ≠ .ok constant) ∧
    (∀ index constant other, pool.get index = .ok constant → width constant = 2 →
      pool.get (index + 1) ≠ .ok other) ∧
    (∀ operation : Operation, operation.isSet = false → pool.Holds (operation.run pool).2) ∧
    (∀ place constant,
      (set place constant pool).2.toList.map (·.1) = pool.toList.map (·.1) ∧
      (set place constant pool).2.slotCount = pool.slotCount ∧
      ∀ index, index ≠ place → (set place constant pool).2.get index = pool.get index) ∧
    ∀ constant index after, push constant pool = (.ok index, after) →
      after.get index = .ok constant := by
  have hs := h.sound
  refine ⟨⟨hs.slotCount_eq, hs.toNat_slotCount.symm, hs.bound⟩,
    fun _ _ => hs.get_ok_iff_firstSlot, ?_, ?_, ?_, ?_, ?_, ?_⟩
  · intro constant hg
    exact hs.index_ne_zero hg rfl
  · intro index constant hle hg
    have hb := hs.get_bounds hg
    have hw := constant.width_pos
    rw [UInt16.le_iff_toNat_le] at hle
    omega
  · intro index constant other hg hw
    exact hs.get_second_ne_ok hg hw other
  · intro operation hn
    exact operation.holds hs hn
  · intro place constant
    have hcount := congrArg UInt16.ofNat (slots_set hs place constant).1
    exact ⟨addresses_set hs place constant, hcount, fun index hne => get_set_of_ne hs constant hne⟩
  · intro constant index after hp
    exact (get_push hs hp).1

theorem indices_stable_sample :
    widePool.slotCount.toNat = 3 ∧ widePool.get 1 = .ok (.long 7) ∧
      (∀ other, widePool.get 2 ≠ .ok other) ∧
      ((Operation.getClass "A").run widePool).2.get 1 = .ok (.long 7) ∧
      (set 1 (.double 0) widePool).2.slotCount = widePool.slotCount := by
  have hreach : widePool.Reachable := .step .empty _
  obtain ⟨⟨hcount, -, -⟩, hfirst, -, -, hsecond, hholds, hset, -⟩ := indices_stable hreach
  have hone : widePool.get 1 = .ok (.long 7) := (hfirst 1 (.long 7)).2 ⟨[], [], rfl, rfl⟩
  exact ⟨hcount, hone, fun other => hsecond 1 (.long 7) other hone rfl,
    hholds (.getClass "A") rfl 1 _ hone, (hset 1 (.double 0)).2.1⟩

end JarRename.ConstantPool
