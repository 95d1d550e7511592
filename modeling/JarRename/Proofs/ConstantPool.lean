import Mathlib
import JarRename.ConstantPool
import JarRename.Proofs.Bytes
import JarRename.Proofs.Fallible
import JarRename.Proofs.SlotVec

/-!
# What holds of every constant pool

`Sound` is the invariant of a pool: addresses ascend from one, the slots are few enough for two-byte
indices, and a text or a name and type that is known stands where it is known to stand. Reading
establishes it and every operation keeps it, also one that fails.
-/
namespace JarRename

/-! Computations that keep their state when they fail. -/
namespace Stateful

variable {σ α β : Type}

theorem bind_apply (action : ExceptT ClassError (StateM σ) α)
    (next : α → ExceptT ClassError (StateM σ) β) (state : σ) :
    (action >>= next) state =
      match action state with
      | (.ok x, after) => next x after
      | (.error e, after) => (.error e, after) := by
  show (ExceptT.bindCont next (action state).1) (action state).2 = _
  rcases action state with ⟨_ | _, _⟩ <;> rfl

theorem bind_ok_iff {action : ExceptT ClassError (StateM σ) α}
    {next : α → ExceptT ClassError (StateM σ) β} {state after : σ} {y : β} :
    (action >>= next) state = (.ok y, after) ↔
      ∃ x mid, action state = (.ok x, mid) ∧ next x mid = (.ok y, after) := by
  rw [bind_apply]
  rcases action state with ⟨_ | x, mid⟩
  · constructor
    · intro h
      cases h
    · rintro ⟨_, _, hx, _⟩
      cases hx
  · exact ⟨fun h => ⟨x, mid, rfl, h⟩, fun ⟨z, p, hx, h⟩ => by cases hx; exact h⟩

/-- Whatever comes out, the state afterwards has the property if the state before has it. -/
def Keeps (property : σ → Prop) (action : ExceptT ClassError (StateM σ) α) : Prop :=
  ∀ state, property state → property (action state).2

theorem keeps_pure {property : σ → Prop} (x : α) :
    Keeps property (pure x : ExceptT ClassError (StateM σ) α) := fun _ h => h

theorem Keeps.bind {property : σ → Prop} {action : ExceptT ClassError (StateM σ) α}
    {next : α → ExceptT ClassError (StateM σ) β} (ha : Keeps property action)
    (hn : ∀ x, Keeps property (next x)) : Keeps property (action >>= next) := by
  intro state h
  have hp := ha state h
  rw [bind_apply]
  rcases hr : action state with ⟨_ | x, mid⟩
  · simpa [hr] using hp
  · exact hn x mid (by simpa [hr] using hp)

theorem keeps_mapM {property : σ → Prop} {action : α → ExceptT ClassError (StateM σ) β}
    (h : ∀ x, Keeps property (action x)) (items : List α) : Keeps property (items.mapM action) := by
  induction items with
  | nil => exact keeps_pure []
  | cons x items ih =>
    rw [List.mapM_cons]
    exact (h x).bind fun _ => ih.bind fun _ => keeps_pure _

end Stateful

theorem Constant.width_pos (constant : Constant) : 0 < width constant := by
  cases constant <;> simp [HasWidth.width]

namespace ConstantPool

open SlotVec Stateful

structure Sound (pool : ConstantPool) : Prop where
  laid : pool.slots.LaidFrom 1
  bound : pool.slots.next ≤ maxSlots
  found : ∀ constant index, isFixed constant = true → pool.known[constant]? = some index →
    pool.get index = .ok constant

theorem get_ok_iff_exists {pool : ConstantPool} {index : PoolIndex} {constant : Constant} :
    pool.get index = .ok constant ↔ ∃ i, pool.slots.get index.toNat = .ok (i, constant) := by
  unfold get
  split
  · rename_i i c h
    simp [h]
  · rename_i e h
    simp [h]

theorem get_ok_iff_mem {pool : ConstantPool} (laid : pool.slots.LaidFrom 1) {index : PoolIndex}
    {constant : Constant} :
    pool.get index = .ok constant ↔ (index.toNat, constant) ∈ pool.slots.toList := by
  rw [get_ok_iff_exists, exists_get_iff laid]

theorem text_ok_iff {pool : ConstantPool} {index : PoolIndex} {text : String} :
    pool.text index = .ok text ↔ pool.get index = .ok (.utf8 text) := by
  unfold ConstantPool.text
  split
  · rename_i h
    simp [h]
  · rename_i h
    simp [h]
  · rename_i hu hr
    constructor
    · intro h
      simp at h
    · intro h
      exact (hu text h).elim

theorem className_ok_iff {pool : ConstantPool} {index : PoolIndex} {name : String} :
    pool.className index = .ok name ↔
      ∃ i, pool.get index = .ok (.classRef i) ∧ pool.text i = .ok name := by
  rw [className, Fallible.bind_ok_iff]
  constructor
  · rintro ⟨constant, hg, h⟩
    cases constant with
    | classRef i => exact ⟨i, hg, h⟩
    | _ => cases h
  · rintro ⟨i, hg, ht⟩
    exact ⟨.classRef i, hg, ht⟩

theorem nameAndDescriptor_ok_iff {pool : ConstantPool} {index : PoolIndex}
    {name descriptor : String} :
    pool.nameAndDescriptor index = .ok (name, descriptor) ↔ ∃ i j,
      pool.get index = .ok (.nameAndType i j) ∧ pool.text i = .ok name ∧
        pool.text j = .ok descriptor := by
  rw [nameAndDescriptor, Fallible.bind_ok_iff]
  constructor
  · rintro ⟨constant, hg, h⟩
    cases constant with
    | nameAndType i j =>
      obtain ⟨found, hi, hrest⟩ := Fallible.bind_ok_iff.1 h
      obtain ⟨found', hj, hpure⟩ := Fallible.bind_ok_iff.1 hrest
      cases hpure
      exact ⟨i, j, hg, hi, hj⟩
    | _ => cases h
  · rintro ⟨i, j, hg, hi, hj⟩
    exact ⟨.nameAndType i j, hg,
      Fallible.bind_ok_iff.2 ⟨name, hi, Fallible.bind_ok_iff.2 ⟨descriptor, hj, rfl⟩⟩⟩

theorem sound_empty : empty.Sound :=
  ⟨laidFrom_emptyAt 1, by simp [empty, emptyAt, maxSlots], fun _ _ _ h => by simp [empty] at h⟩

namespace Sound

variable {pool : ConstantPool}

theorem get_ok_iff (h : pool.Sound) {index : PoolIndex} {constant : Constant} :
    pool.get index = .ok constant ↔ (index.toNat, constant) ∈ pool.slots.toList :=
  get_ok_iff_mem h.laid

theorem toNat_slotCount (h : pool.Sound) : pool.slotCount.toNat = pool.slots.next := by
  have hb : pool.slots.next ≤ 0xFFFF := h.bound
  rw [slotCount, UInt16.toNat_ofNat']
  omega

theorem index_ne_zero (h : pool.Sound) {index : PoolIndex} {constant : Constant}
    (hg : pool.get index = .ok constant) : index ≠ 0 := by
  rintro rfl
  have hb := h.laid.address_bounds (h.get_ok_iff.1 hg)
  simp at hb

end Sound

/-- A pool with the same slots and one more constant. -/
theorem push_ok {constant : Constant} {pool after : ConstantPool} {index : PoolIndex}
    (h : push constant pool = (.ok index, after)) :
    pool.pushError? constant = none ∧ index = pool.slotCount ∧
      after.slots = pool.slots.push constant ∧
      after.known = if constant.isShared then pool.known.insertIfNew constant index
        else pool.known := by
  unfold push at h
  split at h
  · cases h
  · rename_i hn
    cases h
    exact ⟨hn, rfl, rfl, rfl⟩

theorem push_error {constant : Constant} {pool after : ConstantPool} {e : ClassError}
    (h : push constant pool = (.error e, after)) : after = pool := by
  unfold push at h
  split at h
  · exact (Prod.mk.inj h).2.symm
  · cases h

theorem next_le_of_pushError? {pool : ConstantPool} {constant : Constant}
    (h : pool.pushError? constant = none) : pool.slots.next + width constant ≤ maxSlots := by
  unfold pushError? at h
  split at h
  · simp at h
  · omega

/-- A pool is full long before an address could wrap around. -/
theorem room_of_pushError? {pool : ConstantPool} {constant : Constant}
    (h : pool.pushError? constant = none) :
    pool.slots.next + width constant < SlotVec.addressCount :=
  lt_of_le_of_lt (next_le_of_pushError? h) (by decide)

theorem get_push {pool after : ConstantPool} (hs : pool.Sound) {constant : Constant}
    {index : PoolIndex} (h : push constant pool = (.ok index, after)) :
    after.get index = .ok constant ∧
      ∀ i c, pool.get i = .ok c → after.get i = .ok c := by
  obtain ⟨he, rfl, hp, -⟩ := push_ok h
  have hl : after.slots.LaidFrom 1 := hp ▸ hs.laid.push constant.width_pos (room_of_pushError? he)
  refine ⟨(get_ok_iff_mem hl).2 ?_, fun i c hi => (get_ok_iff_mem hl).2 ?_⟩
  · simp [hp, hs.toNat_slotCount]
  · simp [hp, hs.get_ok_iff.1 hi]

/-- What is known already stays as it is known. -/
theorem known_insertIfNew (known : Std.HashMap Constant PoolIndex) (added : Constant)
    (index : PoolIndex) (constant : Constant) :
    (known.insertIfNew added index)[constant]? =
      if constant = added then some (known[constant]?.getD index) else known[constant]? := by
  rw [Std.HashMap.getElem?_insertIfNew]
  by_cases hc : constant = added
  · subst hc
    have hmem : constant ∈ known ↔ known[constant]? ≠ none := by
      rw [Std.HashMap.mem_iff_isSome_getElem?, Option.isSome_iff_ne_none]
    simp only [BEq.rfl, true_and, hmem]
    cases known[constant]? <;> simp
  · simp [hc, Ne.symm hc]

/-- An addition makes known where the added constant stands, unless it is known already. -/
theorem getElem?_known_push (pool : ConstantPool) (added constant : Constant) :
    (push added pool).2.known[constant]? =
      if pool.pushError? added = none ∧ added.isShared = true ∧ constant = added then
        some (pool.known[constant]?.getD pool.slotCount)
      else pool.known[constant]? := by
  rcases hr : push added pool with ⟨e | index, after⟩
  · have hroom : pool.pushError? added ≠ none := by
      intro hn
      unfold push at hr
      rw [hn] at hr
      cases hr
    rw [push_error hr, if_neg fun h => hroom h.1]
  · obtain ⟨hn, rfl, -, hk⟩ := push_ok hr
    dsimp only
    rw [hk]
    cases hs : added.isShared with
    | false => simp
    | true => simp [known_insertIfNew, hn]

theorem known_push {pool after : ConstantPool} {constant c : Constant} {index i : PoolIndex}
    (h : push constant pool = (.ok index, after)) (hc : after.known[c]? = some i) :
    (c = constant ∧ i = index) ∨ pool.known[c]? = some i := by
  have hk := getElem?_known_push pool constant c
  obtain ⟨-, rfl, -⟩ := push_ok h
  rw [h, hc] at hk
  split_ifs at hk with hnew
  · cases ho : pool.known[c]? with
    | none =>
      rw [ho] at hk
      exact .inl ⟨hnew.2.2, Option.some.inj hk⟩
    | some j =>
      rw [ho] at hk
      exact .inr hk.symm
  · exact .inr hk.symm

theorem sound_push {pool after : ConstantPool} (hs : pool.Sound) {constant : Constant}
    {index : PoolIndex} (h : push constant pool = (.ok index, after)) : after.Sound := by
  obtain ⟨hnew, hold⟩ := get_push hs h
  obtain ⟨he, -, hp, -⟩ := push_ok h
  have room := room_of_pushError? he
  refine ⟨hp ▸ hs.laid.push constant.width_pos room, ?_, ?_⟩
  · rw [hp, next_push room]
    exact next_le_of_pushError? he
  · intro c i hc hf
    rcases known_push h hf with ⟨rfl, rfl⟩ | hk
    · exact hnew
    · exact hold i c (hs.found c i hc hk)

/-- Everything that is known stands where it is known to stand. -/
def Truthful (pool : ConstantPool) : Prop :=
  ∀ constant index, pool.known[constant]? = some index → pool.get index = .ok constant

theorem truthful_push {pool after : ConstantPool} (hs : pool.Sound) (ht : pool.Truthful)
    {constant : Constant} {index : PoolIndex} (h : push constant pool = (.ok index, after)) :
    after.Truthful := by
  obtain ⟨hnew, hold⟩ := get_push hs h
  intro c i hf
  rcases known_push h hf with ⟨rfl, rfl⟩ | hk
  · exact hnew
  · exact hold i c (ht c i hk)

/-- A constant that is looked for is found or added. -/
theorem share_ok {pool after : ConstantPool} (hs : pool.Sound) {constant : Constant}
    (hf : ∀ i, pool.known[constant]? = some i → pool.get i = .ok constant) {index : PoolIndex}
    (h : share constant pool = (.ok index, after)) :
    after.get index = .ok constant ∧
      (after = pool ∨ push constant pool = (.ok index, after)) := by
  unfold share at h
  split at h
  · rename_i i hi
    cases h
    exact ⟨hf _ hi, .inl rfl⟩
  · exact ⟨(get_push hs h).1, .inr h⟩

theorem share_new {pool : ConstantPool} {constant : Constant} (h : pool.known[constant]? = none) :
    share constant pool = push constant pool := by
  unfold share
  rw [h]

theorem share_known {pool : ConstantPool} {constant : Constant} {index : PoolIndex}
    (h : pool.known[constant]? = some index) : share constant pool = (.ok index, pool) := by
  unfold share
  rw [h]

theorem share_succeeds {pool : ConstantPool} {constant : Constant}
    (h : pool.pushError? constant = none) :
    ∃ index after, share constant pool = (.ok index, after) := by
  unfold share
  split
  · exact ⟨_, _, rfl⟩
  · unfold push
    rw [h]
    exact ⟨_, _, rfl⟩

theorem keeps_push (constant : Constant) : Keeps Sound (push constant) := by
  intro pool hs
  rcases hr : push constant pool with ⟨e | i, after⟩
  · exact push_error hr ▸ hs
  · exact sound_push hs hr

section Shared

variable {property : ConstantPool → Prop}

theorem keeps_share {constant : Constant} (h : Keeps property (push constant)) :
    Keeps property (share constant) := by
  intro pool hp
  unfold share
  split
  · exact hp
  · exact h pool hp

variable (h : ∀ constant, constant.isShared = true → Keeps property (push constant))
include h

theorem keeps_getUtf8 (text : String) : Keeps property (getUtf8 text) := keeps_share (h _ rfl)

theorem keeps_getClass (name : String) : Keeps property (getClass name) :=
  (keeps_getUtf8 h name).bind fun _ => keeps_share (h _ rfl)

theorem keeps_getString (value : String) : Keeps property (getString value) :=
  (keeps_getUtf8 h value).bind fun _ => keeps_share (h _ rfl)

theorem keeps_getNameAndType (name descriptor : PoolIndex) :
    Keeps property (getNameAndType name descriptor) := keeps_share (h _ rfl)

theorem keeps_getMember (owner name descriptor : String) :
    Keeps property (getMember owner name descriptor) :=
  (keeps_getClass h owner).bind fun _ => (keeps_getUtf8 h name).bind fun _ =>
    (keeps_getUtf8 h descriptor).bind fun _ => (keeps_getNameAndType h _ _).bind fun _ =>
      keeps_pure _

theorem keeps_getFieldRef (owner name descriptor : String) :
    Keeps property (getFieldRef owner name descriptor) :=
  (keeps_getMember h owner name descriptor).bind fun _ => keeps_share (h _ rfl)

theorem keeps_getMethodRef (owner name descriptor : String) (isInterface : Bool) :
    Keeps property (getMethodRef owner name descriptor isInterface) :=
  (keeps_getMember h owner name descriptor).bind fun _ => keeps_share (h _ rfl)

end Shared

/-- A new constant that is found again is known where it was known before, and else at the index. Of
the other ones the old constant is forgotten, if it was known there. -/
theorem getElem?_relearn (known : Std.HashMap Constant PoolIndex) (index : PoolIndex)
    (old new constant : Constant) :
    (relearn known index old new)[constant]? =
      if constant = new ∧ isFoundAfterSet new = true then some (known[constant]?.getD index)
      else if constant = old ∧ known[constant]? = some index then none
      else known[constant]? := by
  have hforget : (if known[old]? = some index then known.erase old else known)[constant]? =
      if constant = old ∧ known[constant]? = some index then none else known[constant]? := by
    by_cases ho : constant = old
    · subst ho
      split <;> simp_all
    · split <;> simp [Std.HashMap.getElem?_erase, ho, Ne.symm ho]
  simp only [relearn]
  generalize (if known[old]? = some index then known.erase old else known) = rest at hforget ⊢
  cases hf : isFoundAfterSet new with
  | false => simp [hforget]
  | true =>
    have hindex : rest[constant]?.getD index = known[constant]?.getD index := by
      rw [hforget]
      split
      · rename_i hold
        rw [hold.2]
        rfl
      · rfl
    rw [if_pos rfl, known_insertIfNew, hindex, hforget]
    simp only [and_true]

/-- A replacement does not touch what is known of texts, names and types. -/
theorem relearn_fixed {known : Std.HashMap Constant PoolIndex} {index : PoolIndex}
    {old new constant : Constant} (ho : isFixed old = false) (hc : isFixed constant = true) :
    (relearn known index old new)[constant]? = known[constant]? := by
  have hold : constant ≠ old := by
    rintro rfl
    rw [hc] at ho
    cases ho
  have hnew : ¬(constant = new ∧ isFoundAfterSet new = true) := by
    rintro ⟨rfl, hf⟩
    cases constant <;> simp_all [isFixed, isFoundAfterSet]
  rw [getElem?_relearn, if_neg hnew, if_neg fun h => hold h.1]

/-- What a replacement does that succeeds. -/
theorem set_ok {pool after : ConstantPool} (hs : pool.Sound) {index : PoolIndex}
    {constant : Constant} (h : set index constant pool = (.ok (), after)) :
    ∃ old, pool.get index = .ok old ∧ isFixed old = false ∧ width constant = width old ∧
      after.slots.next = pool.slots.next ∧
      after.slots.toList = pool.slots.toList.map (replaced index.toNat constant) := by
  unfold set at h
  split at h
  · cases h
  · rename_i old hg
    split at h
    · cases h
    · rename_i hf
      rcases hr : pool.slots.set index.toNat constant with ⟨e | i, slots⟩
      · simp only [hr] at h
        cases h
      · obtain ⟨⟨x, hx, hw⟩, hn, hl⟩ := SlotVec.set_ok hs.laid hr
        have hxo := hs.laid.eq_of_address hx (hs.get_ok_iff.1 hg)
        simp only [hr] at h
        cases h
        exact ⟨old, hg, by simpa using hf, hxo ▸ hw, hn, hl⟩

theorem set_succeeds {pool : ConstantPool} {index : PoolIndex} {old new : Constant}
    (hg : pool.get index = .ok old) (hf : isFixed old = false) (hw : width new = width old) :
    ∃ after, set index new pool = (.ok (), after) := by
  obtain ⟨i, hi⟩ := get_ok_iff_exists.1 hg
  obtain ⟨slots, hset⟩ : ∃ slots, pool.slots.set index.toNat new = (.ok i, slots) := by
    unfold SlotVec.set
    rw [hi]
    exact ⟨_, if_pos hw⟩
  unfold set
  rw [hg]
  simp only [hf, hset]
  exact ⟨_, rfl⟩

theorem slots_of_set_error {pool after : ConstantPool} {index : PoolIndex} {constant : Constant}
    {e : ClassError} (h : set index constant pool = (.error e, after)) :
    after.slots = pool.slots := by
  unfold set at h
  split at h
  · cases h
    rfl
  · split at h
    · cases h
      rfl
    · rcases hr : pool.slots.set index.toNat constant with ⟨_ | _, slots⟩
      · have he := set_error hr
        simp only [hr] at h
        cases h
        exact he
      · simp only [hr] at h
        cases h

theorem sound_set {pool : ConstantPool} (hs : pool.Sound) (index : PoolIndex)
    (constant : Constant) : (set index constant pool).2.Sound := by
  unfold set
  split
  · exact hs
  · rename_i old hg
    split
    · exact hs
    · rename_i hf
      have hf : isFixed old = false := by simpa using hf
      have hk : ∀ c i, isFixed c = true →
          (relearn pool.known index old constant)[c]? = some i → pool.get i = .ok c :=
        fun c i hc hi => hs.found c i hc (relearn_fixed hf hc ▸ hi)
      rcases hr : pool.slots.set index.toNat constant with ⟨e | i, slots⟩
      · have he := set_error hr
        subst he
        simp only [hr]
        exact ⟨hs.laid, hs.bound, hk⟩
      · have hl : slots.LaidFrom 1 := hs.laid.set hr
        obtain ⟨-, hn, ht⟩ := SlotVec.set_ok hs.laid hr
        simp only [hr]
        refine ⟨hl, hn ▸ hs.bound, fun c i hc hi => ?_⟩
        -- a fixed constant stands at another address than the one that is replaced
        have hm := hs.get_ok_iff.1 (hk c i hc hi)
        have hne : i.toNat ≠ index.toNat := by
          intro he
          have hco := hs.laid.eq_of_address hm (he ▸ hs.get_ok_iff.1 hg)
          rw [← hco, hc] at hf
          simp at hf
        refine (get_ok_iff_mem hl).2 ?_
        rw [ht]
        exact List.mem_map.2 ⟨_, hm, if_neg hne⟩

section Read

variable {property : ConstantPool → Prop} {pool after : ConstantPool} {bytes rest : Bytes}

/-- Reading adds one constant after the other. -/
theorem of_readUpTo (h : ∀ constant, Keeps property (push constant)) {count : UInt16} {fuel : Nat}
    (hp : property pool) (hr : readUpTo count fuel pool bytes = .ok (after, rest)) :
    property after := by
  induction fuel generalizing pool bytes with
  | zero =>
    simp only [readUpTo, Except.ok.injEq, Prod.mk.injEq] at hr
    exact hr.1 ▸ hp
  | succ fuel ih =>
    unfold readUpTo at hr
    split at hr
    · split at hr
      · simp at hr
      · rename_i constant left hread
        have hpushed := h constant pool hp
        split at hr
        · simp at hr
        · rename_i index next hpush
          rw [hpush] at hpushed
          exact ih hpushed hr
    · simp only [Except.ok.injEq, Prod.mk.injEq] at hr
      exact hr.1 ▸ hp

theorem of_read (h : ∀ constant, Keeps property (push constant)) (hempty : property empty)
    (hr : ConstantPool.read bytes = .ok (pool, rest)) : property pool := by
  simp only [ConstantPool.read, Reader.bind_ok_iff] at hr
  obtain ⟨count, mid, -, filled, left, hread, hr⟩ := hr
  split at hr
  · rw [Reader.pure_ok_iff] at hr
    exact hr.1 ▸ of_readUpTo h hempty hread
  · rw [Reader.throw_ok_iff] at hr
    exact hr.elim

end Read

/-- What can be done to a pool. -/
inductive Operation where
  | push (constant : Constant)
  | getUtf8 (text : String)
  | getClass (name : String)
  | getString (value : String)
  | getNameAndType (name descriptor : PoolIndex)
  | getFieldRef (owner name descriptor : String)
  | getMethodRef (owner name descriptor : String) (isInterface : Bool)
  | set (index : PoolIndex) (constant : Constant)

def Operation.run : Operation → PoolM PoolIndex
  | push constant => ConstantPool.push constant
  | getUtf8 text => ConstantPool.getUtf8 text
  | getClass name => ConstantPool.getClass name
  | getString value => ConstantPool.getString value
  | getNameAndType name descriptor => ConstantPool.getNameAndType name descriptor
  | getFieldRef owner name descriptor => ConstantPool.getFieldRef owner name descriptor
  | getMethodRef owner name descriptor isInterface =>
    ConstantPool.getMethodRef owner name descriptor isInterface
  | set index constant => do
    ConstantPool.set index constant
    return index

/-- Whether an operation looks for a constant by its contents before it adds one. -/
def Operation.isGet : Operation → Bool
  | push _ | set _ _ => false
  | _ => true

/-- Whether an operation replaces a constant. -/
def Operation.isSet : Operation → Bool
  | set _ _ => true
  | _ => false

/-- The pools that come out of reading or of nothing by operations, failed ones included. -/
inductive Reachable : ConstantPool → Prop
  | empty : Reachable ConstantPool.empty
  | read {bytes rest : Bytes} {pool : ConstantPool}
      (h : ConstantPool.read bytes = .ok (pool, rest)) : Reachable pool
  | step {pool : ConstantPool} (prior : Reachable pool) (operation : Operation) :
      Reachable (operation.run pool).2

theorem Operation.keeps_get {property : ConstantPool → Prop}
    (h : ∀ constant, constant.isShared = true → Keeps property (ConstantPool.push constant))
    {operation : Operation} (hg : operation.isGet = true) : Keeps property operation.run := by
  cases operation with
  | getUtf8 text => exact keeps_getUtf8 h text
  | getClass name => exact keeps_getClass h name
  | getString value => exact keeps_getString h value
  | getNameAndType name descriptor => exact keeps_getNameAndType h name descriptor
  | getFieldRef owner name descriptor => exact keeps_getFieldRef h owner name descriptor
  | getMethodRef owner name descriptor isInterface =>
    exact keeps_getMethodRef h owner name descriptor isInterface
  | push constant | set index constant => simp [isGet] at hg

/-- All operations but replacements only add constants. -/
theorem Operation.keeps_of_push {property : ConstantPool → Prop}
    (h : ∀ constant, Keeps property (ConstantPool.push constant)) {operation : Operation}
    (hn : operation.isSet = false) : Keeps property operation.run := by
  cases operation with
  | push constant => exact h constant
  | set index constant => simp [isSet] at hn
  | _ => exact keeps_get (fun constant _ => h constant) rfl

theorem Operation.keeps_sound (operation : Operation) : Keeps Sound operation.run := by
  cases operation with
  | set index constant =>
    have hset : Keeps Sound (ConstantPool.set index constant) :=
      fun pool hs => sound_set hs index constant
    exact hset.bind fun _ => keeps_pure index
  | _ => exact keeps_of_push keeps_push rfl

theorem Reachable.sound {pool : ConstantPool} (h : pool.Reachable) : pool.Sound := by
  induction h with
  | empty => exact sound_empty
  | read h => exact of_read keeps_push sound_empty h
  | step _ operation ih => exact operation.keeps_sound _ ih

end ConstantPool

end JarRename
