import Mathlib
import JarRename.Proofs.PoolIndices

/-!
# What a pool knows is true

A pool is `Exact` if everything that it knows stands where it is known to stand. Additions keep it
so, and a replacement does if it succeeds. `Lasting` says of a computation that its answer is right
in every later pool that still knows as much, and that it changes nothing when it is repeated there;
a lookup is put together from such computations.
-/
namespace JarRename.ConstantPool

open SlotVec Stateful

variable {pool after later : ConstantPool} {index : PoolIndex} {constant : Constant}

structure Exact (pool : ConstantPool) : Prop where
  sound : pool.Sound
  truthful : pool.Truthful

theorem exact_empty : empty.Exact := ⟨sound_empty, fun _ _ h => by simp [empty] at h⟩

theorem keeps_exact_push (constant : Constant) : Keeps Exact (push constant) := by
  intro pool h
  rcases hr : push constant pool with ⟨e | index, after⟩
  · exact push_error hr ▸ h
  · exact ⟨sound_push h.sound hr, truthful_push h.sound h.truthful hr⟩

section Set

variable {old new : Constant} {known : Std.HashMap Constant PoolIndex} {i : PoolIndex}

/-- A replacement learns where the new constant stands and forgets where the old one stood. -/
theorem known_relearn (h : (relearn known index old new)[constant]? = some i) :
    (constant = new ∧ i = index) ∨
      (known[constant]? = some i ∧ ¬(constant = old ∧ i = index)) := by
  rw [getElem?_relearn] at h
  split_ifs at h with hnew hforgotten
  · by_cases hi : i = index
    · exact .inl ⟨hnew.1, hi⟩
    · cases hk : known[constant]? with
      | none =>
        rw [hk] at h
        exact absurd (Option.some.inj h).symm hi
      | some j =>
        rw [hk] at h
        exact .inr ⟨h, fun hold => hi hold.2⟩
  · exact .inr ⟨h, fun hold => hforgotten ⟨hold.1, hold.2 ▸ h⟩⟩

theorem known_of_set (hg : pool.get index = .ok old)
    (h : set index constant pool = (.ok (), after)) :
    after.known = relearn pool.known index old constant := by
  unfold set at h
  rw [hg] at h
  dsimp only at h
  split at h
  · cases h
  · split at h
    · cases h
      rfl
    · cases h

theorem get_of_set (hs : pool.Sound) (h : set index constant pool = (.ok (), after)) :
    after.get index = .ok constant := by
  obtain ⟨old, hg, -, -, -, hl⟩ := set_ok hs h
  have hsound := sound_set hs index constant
  rw [h] at hsound
  rw [hsound.get_ok_iff, hl]
  exact List.mem_map.2 ⟨_, hs.get_ok_iff.1 hg, if_pos rfl⟩

/-- What is known after a replacement is known of the new constant, or of a constant that stands
elsewhere. -/
theorem Exact.set (h : pool.Exact) (hr : ConstantPool.set index constant pool = (.ok (), after)) :
    after.Exact := by
  have hsound := sound_set h.sound index constant
  rw [hr] at hsound
  refine ⟨hsound, fun c i hc => ?_⟩
  obtain ⟨old, hg, -⟩ := set_ok h.sound hr
  rw [known_of_set hg hr] at hc
  rcases known_relearn hc with ⟨rfl, rfl⟩ | ⟨hk, hother⟩
  · exact get_of_set h.sound hr
  · have hi := h.truthful c i hk
    have hne : i ≠ index := by
      rintro rfl
      rw [hg] at hi
      cases hi
      exact hother ⟨rfl, rfl⟩
    have hsame := @get_set_of_ne pool i index h.sound constant hne
    rw [hr] at hsame
    rw [hsame]
    exact hi

end Set

/-- The pools that come out of reading or of nothing by operations, among them no replacement that
fails. -/
inductive Undisturbed : ConstantPool → Prop
  | empty : Undisturbed ConstantPool.empty
  | read {bytes rest : Bytes} {pool : ConstantPool}
      (h : ConstantPool.read bytes = .ok (pool, rest)) : Undisturbed pool
  | step {pool : ConstantPool} (prior : Undisturbed pool) (operation : Operation)
      (h : operation.isSet = true → ∃ index, (operation.run pool).1 = .ok index) :
      Undisturbed (operation.run pool).2

theorem set_of_run {place : PoolIndex} (h : (Operation.set place constant).run pool =
    (.ok index, after)) : set place constant pool = (.ok (), after) ∧ index = place := by
  obtain ⟨⟨⟩, mid, hset, hpure⟩ := bind_ok_iff.1 h
  cases hpure
  exact ⟨hset, rfl⟩

theorem Undisturbed.exact (h : pool.Undisturbed) : pool.Exact := by
  induction h with
  | empty => exact exact_empty
  | read h => exact of_read keeps_exact_push exact_empty h
  | @step pool prior operation h ih =>
    cases hset : operation.isSet with
    | false => exact Operation.keeps_of_push keeps_exact_push hset pool ih
    | true =>
      obtain ⟨index, hok⟩ := h hset
      cases operation with
      | set place constant =>
        have hrun : (Operation.set place constant).run pool = (.ok index, _) := Prod.ext hok rfl
        exact ih.set (set_of_run hrun).1
      | _ => cases hset

/-- The second pool holds and knows what the first one does. -/
structure Recalls (pool later : ConstantPool) : Prop where
  holds : pool.Holds later
  known : ∀ (constant : Constant) (index : PoolIndex), pool.known[constant]? = some index →
    later.known[constant]? = some index

namespace Recalls

theorem refl (pool : ConstantPool) : pool.Recalls pool := ⟨fun _ _ h => h, fun _ _ h => h⟩

theorem trans (h : pool.Recalls after) (h' : after.Recalls later) : pool.Recalls later where
  holds := fun index constant hg => h'.holds index constant (h.holds index constant hg)
  known := fun constant index hk => h'.known constant index (h.known constant index hk)

theorem text (h : pool.Recalls later) {text : String} (ht : pool.text index = .ok text) :
    later.text index = .ok text :=
  text_ok_iff.2 (h.holds index _ (text_ok_iff.1 ht))

end Recalls

theorem recalls_push (hs : pool.Sound) (h : push constant pool = (.ok index, after)) :
    pool.Recalls after := by
  refine ⟨(get_push hs h).2, fun c i hc => ?_⟩
  have hk := getElem?_known_push pool constant c
  rw [h, hc] at hk
  rw [hk]
  split
  · rfl
  · rfl

section Lasting

variable {α β : Type} {action : PoolM α} {post : ConstantPool → α → Prop}

/-- What the computation gives is right in the pool that it leaves and in every later one, and there
it gives the same again and changes nothing. -/
def Lasting (action : PoolM α) (post : ConstantPool → α → Prop) : Prop :=
  ∀ pool x after, pool.Exact → action pool = (.ok x, after) →
    after.Exact ∧ pool.Recalls after ∧
      ∀ later, after.Recalls later → later.Exact → action later = (.ok x, later) ∧ post later x

theorem Lasting.mono {post' : ConstantPool → α → Prop} (h : Lasting action post)
    (hp : ∀ pool x, post pool x → post' pool x) : Lasting action post' := by
  intro pool x after hpool ha
  obtain ⟨hexact, hrecalls, hagain⟩ := h pool x after hpool ha
  refine ⟨hexact, hrecalls, fun later hl hlater => ?_⟩
  obtain ⟨hsame, hpost⟩ := hagain later hl hlater
  exact ⟨hsame, hp later x hpost⟩

theorem lasting_pure {x : α} (h : ∀ pool, post pool x) : Lasting (pure x) post := by
  intro pool y after hpool ha
  cases ha
  exact ⟨hpool, .refl pool, fun later _ _ => ⟨rfl, h later⟩⟩

theorem Lasting.bind {next : α → PoolM β} {post' : ConstantPool → β → Prop}
    (ha : Lasting action post)
    (hn : ∀ x, Lasting (next x) fun pool y => post pool x → post' pool y) :
    Lasting (action >>= next) post' := by
  intro pool y after hpool h
  obtain ⟨x, mid, hx, hy⟩ := bind_ok_iff.1 h
  obtain ⟨hmid, hfirst, hagain⟩ := ha pool x mid hpool hx
  obtain ⟨hafter, hsecond, hagain'⟩ := hn x mid y after hmid hy
  refine ⟨hafter, hfirst.trans hsecond, fun later hl hlater => ?_⟩
  obtain ⟨hsame, hpost⟩ := hagain later (hsecond.trans hl) hlater
  obtain ⟨hsame', hpost'⟩ := hagain' later hl hlater
  exact ⟨bind_ok_iff.2 ⟨x, later, hsame, hsame'⟩, hpost' hpost⟩

theorem lasting_share (hc : constant.isShared = true) :
    Lasting (share constant) fun pool index => pool.get index = .ok constant := by
  intro pool index after hpool h
  have hagain : ∀ before : ConstantPool, before.known[constant]? = some index →
      ∀ later, before.Recalls later → later.Exact →
        share constant later = (.ok index, later) ∧ later.get index = .ok constant := by
    intro before hk later hl hlater
    have hknown := hl.known constant index hk
    exact ⟨share_known hknown, hlater.truthful constant index hknown⟩
  cases hk : pool.known[constant]? with
  | some found =>
    rw [share_known hk] at h
    cases h
    exact ⟨hpool, .refl _, hagain _ hk⟩
  | none =>
    rw [share_new hk] at h
    have hexact := keeps_exact_push constant pool hpool
    rw [h] at hexact
    have hknown : after.known[constant]? = some index := by
      have hafter := getElem?_known_push pool constant constant
      obtain ⟨hroom, rfl, -⟩ := push_ok h
      rw [h, if_pos ⟨hroom, hc, rfl⟩, hk] at hafter
      exact hafter
    exact ⟨hexact, recalls_push hpool.sound h, hagain _ hknown⟩

end Lasting

section Lookups

theorem lasting_getUtf8 (text : String) :
    Lasting (getUtf8 text) fun pool index => pool.text index = .ok text :=
  (lasting_share rfl).mono fun _ _ hg => text_ok_iff.2 hg

theorem lasting_getClass (name : String) :
    Lasting (getClass name) fun pool index => pool.className index = .ok name :=
  (lasting_getUtf8 name).bind fun text =>
    (lasting_share rfl).mono fun _ _ hg ht => className_ok_iff.2 ⟨text, hg, ht⟩

theorem lasting_getString (value : String) :
    Lasting (getString value) fun pool index =>
      ∃ i, pool.get index = .ok (.string i) ∧ pool.text i = .ok value :=
  (lasting_getUtf8 value).bind fun text => (lasting_share rfl).mono fun _ _ hg ht => ⟨text, hg, ht⟩

theorem lasting_getNameAndType (name descriptor : PoolIndex) :
    Lasting (getNameAndType name descriptor) fun pool index =>
      pool.get index = .ok (.nameAndType name descriptor) := lasting_share rfl

/-- The indices lead to the texts of a member. -/
def SpellsMember (pool : ConstantPool) (member : PoolIndex × PoolIndex)
    (owner name descriptor : String) : Prop :=
  pool.className member.1 = .ok owner ∧ pool.nameAndDescriptor member.2 = .ok (name, descriptor)

theorem lasting_getMember (owner name descriptor : String) :
    Lasting (getMember owner name descriptor) fun pool member =>
      SpellsMember pool member owner name descriptor := by
  refine (lasting_getClass owner).bind fun ownerIndex => ?_
  refine (lasting_getUtf8 name).bind fun nameIndex => ?_
  refine (lasting_getUtf8 descriptor).bind fun descriptorIndex => ?_
  refine (lasting_getNameAndType nameIndex descriptorIndex).bind fun nat => ?_
  refine lasting_pure fun pool hg hd hn ho => ?_
  exact ⟨ho, nameAndDescriptor_ok_iff.2 ⟨nameIndex, descriptorIndex, hg, hn, hd⟩⟩

theorem lasting_getFieldRef (owner name descriptor : String) :
    Lasting (getFieldRef owner name descriptor) fun pool index =>
      ∃ member, pool.get index = .ok (.fieldRef member.1 member.2) ∧
        SpellsMember pool member owner name descriptor :=
  (lasting_getMember owner name descriptor).bind fun member =>
    (lasting_share rfl).mono fun _ _ hg hm => ⟨member, hg, hm⟩

theorem lasting_getMethodRef (owner name descriptor : String) (isInterface : Bool) :
    Lasting (getMethodRef owner name descriptor isInterface) fun pool index =>
      ∃ member, pool.get index = .ok (.methodRef member.1 member.2 isInterface) ∧
        SpellsMember pool member owner name descriptor :=
  (lasting_getMember owner name descriptor).bind fun member =>
    (lasting_share rfl).mono fun _ _ hg hm => ⟨member, hg, hm⟩

end Lookups

/-- The constant at the index is what the operation asks for. -/
def Operation.Meets (pool : ConstantPool) (index : PoolIndex) : Operation → Prop
  | push constant => pool.get index = .ok constant
  | getUtf8 text => pool.text index = .ok text
  | getClass name => pool.className index = .ok name
  | getString value => ∃ i, pool.get index = .ok (.string i) ∧ pool.text i = .ok value
  | getNameAndType name descriptor => pool.get index = .ok (.nameAndType name descriptor)
  | getFieldRef owner name descriptor =>
    ∃ member, pool.get index = .ok (.fieldRef member.1 member.2) ∧
      SpellsMember pool member owner name descriptor
  | getMethodRef owner name descriptor isInterface =>
    ∃ member, pool.get index = .ok (.methodRef member.1 member.2 isInterface) ∧
      SpellsMember pool member owner name descriptor
  | set place constant => index = place ∧ pool.get index = .ok constant

theorem Operation.lasting {operation : Operation} (h : operation.isGet = true) :
    Lasting operation.run fun pool index => operation.Meets pool index := by
  cases operation with
  | getUtf8 text => exact lasting_getUtf8 text
  | getClass name => exact lasting_getClass name
  | getString value => exact lasting_getString value
  | getNameAndType name descriptor => exact lasting_getNameAndType name descriptor
  | getFieldRef owner name descriptor => exact lasting_getFieldRef owner name descriptor
  | getMethodRef owner name descriptor isInterface =>
    exact lasting_getMethodRef owner name descriptor isInterface
  | push constant | set place constant => simp [isGet] at h

section Sample

/-- A pool with the class `A`. -/
def classPool : ConstantPool :=
  ⟨⟨#[(1, .utf8 "A"), (2, .classRef 1), (3, .utf8 "B")], 4⟩,
    ((Std.HashMap.emptyWithCapacity.insertIfNew (.utf8 "A") 1).insertIfNew
      (.classRef 1) 2).insertIfNew (.utf8 "B") 3⟩

/-- The same pool with the class `B` in the place of `A`. -/
def movedPool : ConstantPool := (set 2 (.classRef 3) classPool).2

theorem undisturbed_classPool : classPool.Undisturbed := by
  have h : ∀ {pool : ConstantPool} (constant : Constant), pool.Undisturbed →
      (push constant pool).2.Undisturbed :=
    fun constant hp => .step hp (.push constant) (by simp [Operation.isSet])
  exact h (.utf8 "B") (h (.classRef 1) (h (.utf8 "A") .empty))

theorem get_classPool : classPool.get 2 = .ok (.classRef 1) :=
  undisturbed_classPool.exact.sound.get_ok_iff.2 (by simp [classPool, SlotVec.toList])

theorem set_classPool : set 2 (.classRef 3) classPool = (.ok (), movedPool) := by
  obtain ⟨after, h⟩ := @set_succeeds classPool 2 _ (.classRef 3) get_classPool rfl rfl
  rw [movedPool, h]

theorem undisturbed_movedPool : movedPool.Undisturbed := by
  have hrun : (Operation.set 2 (.classRef 3)).run classPool = (.ok 2, movedPool) :=
    bind_ok_iff.2 ⟨(), movedPool, set_classPool, rfl⟩
  have h := undisturbed_classPool.step (.set 2 (.classRef 3)) fun _ => ⟨2, by rw [hrun]⟩
  rwa [hrun] at h

theorem known_classPool (constant : Constant) : classPool.known[constant]? =
    if constant = .utf8 "A" then some 1 else if constant = .classRef 1 then some 2
    else if constant = .utf8 "B" then some 3 else none := by
  simp only [classPool, Std.HashMap.getElem?_insertIfNew, Std.HashMap.mem_insertIfNew]
  by_cases ha : constant = .utf8 "A"
  · subst ha
    simp
  · by_cases hc : constant = .classRef 1
    · subst hc
      simp
    · by_cases hb : constant = .utf8 "B"
      · subst hb
        simp
      · simp [ha, hc, hb, Ne.symm ha, Ne.symm hc, Ne.symm hb]

/-- The texts are known as before, and the class of `B` in the place of that of `A`. -/
theorem known_movedPool (constant : Constant) : movedPool.known[constant]? =
    if constant = .utf8 "A" then some 1 else if constant = .classRef 3 then some 2
    else if constant = .utf8 "B" then some 3 else none := by
  have hold : classPool.known[Constant.classRef 1]? = some 2 := by
    rw [known_classPool]
    rfl
  have hnew : Constant.classRef 3 ∉ classPool.known.erase (.classRef 1) := by
    rw [Std.HashMap.mem_erase, Std.HashMap.mem_iff_isSome_getElem?, known_classPool]
    simp
  rw [known_of_set get_classPool set_classPool, relearn, if_pos hold]
  simp only [isFoundAfterSet, if_true, Std.HashMap.getElem?_insertIfNew, hnew,
    Std.HashMap.getElem?_erase, known_classPool]
  by_cases hc : constant = .classRef 3
  · subst hc
    simp
  · by_cases hother : constant = .classRef 1
    · subst hother
      simp
    · simp [hc, hother, Ne.symm hc, Ne.symm hother]

/-- The class `A` is not known any more, so it is added. -/
theorem getClass_movedPool :
    (∃ after, (Operation.getClass "A").run movedPool = (.ok 4, after)) ∧
      (Operation.getClass "B").run movedPool = (.ok 2, movedPool) := by
  have hnext : movedPool.slots.next = 4 :=
    (slots_set undisturbed_classPool.exact.sound 2 (.classRef 3)).1
  have hroom : movedPool.pushError? (.classRef 1) = none := by
    simp [pushError?, hnext, maxSlots, HasWidth.width]
  have hadd : (push (.classRef 1) movedPool).1 = .ok 4 := by
    simp [push, hroom, slotCount, hnext]
  have hclass : share (.classRef 1) movedPool = push (.classRef 1) movedPool :=
    share_new (by simp [known_movedPool])
  constructor
  · refine ⟨(push (.classRef 1) movedPool).2, bind_ok_iff.2 ⟨1, movedPool, ?_, ?_⟩⟩
    · exact share_known (by simp [known_movedPool])
    · rw [hclass]
      exact Prod.ext hadd rfl
  · refine bind_ok_iff.2 ⟨3, movedPool, share_known ?_, share_known ?_⟩
    · simp [known_movedPool]
    · simp [known_movedPool]

end Sample

/-- Lookups never lie. The constant at the index that an operation gives is what was asked for, and
a lookup that is repeated gives the same index and leaves the pool as it is. -/
theorem lookups_exact (h : pool.Undisturbed) {operation : Operation}
    (hr : operation.run pool = (.ok index, after)) :
    operation.Meets after index ∧
      (operation.isGet = true → operation.run after = (.ok index, after)) := by
  have hpool := h.exact
  cases hget : operation.isGet with
  | true =>
    obtain ⟨hafter, -, hagain⟩ := operation.lasting hget pool index after hpool hr
    obtain ⟨hsame, hmeets⟩ := hagain after (.refl after) hafter
    exact ⟨hmeets, fun _ => hsame⟩
  | false =>
    refine ⟨?_, by simp⟩
    cases operation with
    | push constant => exact (get_push hpool.sound hr).1
    | set place constant =>
      obtain ⟨hset, rfl⟩ := set_of_run hr
      exact ⟨rfl, get_of_set hpool.sound hset⟩
    | _ => cases hget

theorem lookups_exact_sample :
    ∃ after, (Operation.getClass "A").run movedPool = (.ok 4, after) ∧
      after.className 4 = .ok "A" ∧ (Operation.getClass "A").run after = (.ok 4, after) ∧
      movedPool.className 2 = .ok "B" := by
  obtain ⟨⟨after, hadded⟩, hfound⟩ := getClass_movedPool
  obtain ⟨hname, hagain⟩ := lookups_exact undisturbed_movedPool hadded
  obtain ⟨hmoved, -⟩ := lookups_exact undisturbed_movedPool hfound
  exact ⟨after, hadded, hname, hagain rfl, hmoved⟩

end JarRename.ConstantPool
