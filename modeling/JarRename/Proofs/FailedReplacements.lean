import Mathlib
import JarRename.Proofs.PoolLookups

/-!
# Replacements that fail

A replacement that fails changes no constant. If it fails for the widths, though, the pool has
already forgotten where the old constant stands, or learned that the new one stands there. No
operation tells a pool from one that is `Alike`, and where no constant is `Disturbed` the failure
leaves an alike pool. A lookup notices the failure exactly if it comes to a disturbed constant.
-/
namespace JarRename.ConstantPool

open SlotVec Stateful

variable {pool other after : ConstantPool} {index : PoolIndex} {constant added old new : Constant}

section Slots

/-! What an operation reads off the slots is the same for pools with the same slots. -/

variable (h : other.slots = pool.slots)
include h

theorem slotCount_of_slots : other.slotCount = pool.slotCount := by
  rw [slotCount, slotCount, h]

theorem get_of_slots (index : PoolIndex) : other.get index = pool.get index := by
  rw [get, get, h]

theorem pushError?_of_slots (added : Constant) :
    other.pushError? added = pool.pushError? added := by
  unfold pushError?
  rw [h]

theorem push_of_slots (added : Constant) :
    (push added other).1 = (push added pool).1 ∧
      (push added other).2.slots = (push added pool).2.slots := by
  unfold push
  rw [pushError?_of_slots h]
  split
  · exact ⟨rfl, h⟩
  · exact ⟨congrArg Except.ok (slotCount_of_slots h), congrArg (SlotVec.push · added) h⟩

theorem share_of_slots (hk : other.known[added]? = pool.known[added]?) :
    (share added other).1 = (share added pool).1 ∧
      (share added other).2.slots = (share added pool).2.slots := by
  unfold share
  rw [hk]
  split
  · exact ⟨rfl, h⟩
  · exact push_of_slots h added

end Slots

theorem known_share_of_ne (hne : constant ≠ added) :
    (share added pool).2.known[constant]? = pool.known[constant]? := by
  unfold share
  split
  · rfl
  · rw [getElem?_known_push, if_neg fun h => hne h.2.2]

/-- The pools hold the same constants and know the same of each. -/
structure Alike (pool other : ConstantPool) : Prop where
  slots : other.slots = pool.slots
  known : ∀ constant : Constant, other.known[constant]? = pool.known[constant]?

section Blind

variable {α β : Type}

/-- The computation gives the same for alike pools, and what it leaves is alike. -/
def Blind (action : PoolM α) : Prop :=
  ∀ pool other, pool.Alike other →
    (action other).1 = (action pool).1 ∧ (action pool).2.Alike (action other).2

theorem blind_pure (x : α) : Blind (pure x) := fun _ _ h => ⟨rfl, h⟩

theorem Blind.bind {action : PoolM α} {next : α → PoolM β} (ha : Blind action)
    (hn : ∀ x, Blind (next x)) : Blind (action >>= next) := by
  intro pool other h
  obtain ⟨hanswer, hmid⟩ := ha pool other h
  rw [bind_apply, bind_apply]
  generalize action pool = run at hanswer hmid ⊢
  generalize action other = run' at hanswer hmid ⊢
  obtain ⟨answer, mid⟩ := run
  obtain ⟨answer', mid'⟩ := run'
  obtain rfl : answer' = answer := hanswer
  cases answer' with
  | error e => exact ⟨rfl, hmid⟩
  | ok x => exact hn x mid mid' hmid

theorem blind_push (added : Constant) : Blind (push added) := by
  intro pool other h
  obtain ⟨hanswer, hslots⟩ := push_of_slots h.slots added
  refine ⟨hanswer, hslots, fun constant => ?_⟩
  rw [getElem?_known_push, getElem?_known_push, h.known, slotCount_of_slots h.slots,
    pushError?_of_slots h.slots]

theorem blind_share (added : Constant) : Blind (share added) := by
  intro pool other h
  unfold share
  rw [h.known]
  split
  · exact ⟨rfl, h⟩
  · exact blind_push added pool other h

theorem blind_set (index : PoolIndex) (new : Constant) : Blind (set index new) := by
  intro pool other h
  have hknown (old constant : Constant) : (relearn other.known index old new)[constant]? =
      (relearn pool.known index old new)[constant]? := by
    rw [getElem?_relearn, getElem?_relearn, h.known]
  unfold set
  rw [get_of_slots h.slots]
  cases pool.get index with
  | error e => exact ⟨rfl, h⟩
  | ok old =>
    dsimp only
    split
    · exact ⟨rfl, h⟩
    · rw [h.slots]
      rcases pool.slots.set index.toNat new with ⟨e | i, slots⟩
      · exact ⟨rfl, rfl, hknown old⟩
      · exact ⟨rfl, rfl, hknown old⟩

theorem blind_getUtf8 (text : String) : Blind (getUtf8 text) := blind_share _

theorem blind_getClass (name : String) : Blind (getClass name) :=
  (blind_getUtf8 name).bind fun _ => blind_share _

theorem blind_getString (value : String) : Blind (getString value) :=
  (blind_getUtf8 value).bind fun _ => blind_share _

theorem blind_getMember (owner name descriptor : String) :
    Blind (getMember owner name descriptor) :=
  (blind_getClass owner).bind fun _ => (blind_getUtf8 name).bind fun _ =>
    (blind_getUtf8 descriptor).bind fun _ => (blind_share _).bind fun _ => blind_pure _

/-- No operation tells alike pools apart. -/
theorem Operation.blind (operation : Operation) : Blind operation.run := by
  cases operation with
  | push constant => exact blind_push constant
  | getUtf8 text => exact blind_getUtf8 text
  | getClass name => exact blind_getClass name
  | getString value => exact blind_getString value
  | getNameAndType name descriptor => exact blind_share _
  | getFieldRef owner name descriptor =>
    exact (blind_getMember owner name descriptor).bind fun _ => blind_share _
  | getMethodRef owner name descriptor isInterface =>
    exact (blind_getMember owner name descriptor).bind fun _ => blind_share _
  | set index constant => exact (blind_set index constant).bind fun _ => blind_pure _

/-- What operations give that are run one after the other, and the pool that they leave. One that
fails does not stop the others. -/
def Operation.runAll : List Operation → ConstantPool →
    List (Except ClassError PoolIndex) × ConstantPool
  | [], pool => ([], pool)
  | operation :: rest, pool =>
    let (answer, next) := operation.run pool
    let (answers, last) := runAll rest next
    (answer :: answers, last)

theorem Alike.runAll (h : pool.Alike other) (operations : List Operation) :
    (Operation.runAll operations other).1 = (Operation.runAll operations pool).1 ∧
      (Operation.runAll operations pool).2.Alike (Operation.runAll operations other).2 := by
  induction operations generalizing pool other with
  | nil => exact ⟨rfl, h⟩
  | cons operation rest ih =>
    obtain ⟨hanswer, hnext⟩ := operation.blind pool other h
    obtain ⟨hanswers, hlast⟩ := ih hnext
    exact ⟨congrArg₂ List.cons hanswer hanswers, hlast⟩

end Blind

section Disturbed

/-- The constant `old` stands at the index and may be replaced, but `new` is not as wide. -/
structure Clashes (pool : ConstantPool) (index : PoolIndex) (old new : Constant) : Prop where
  stands : pool.get index = .ok old
  replaceable : isFixed old = false
  widths : width new ≠ width old

/-- The constant was known to stand where it should have made way for `new`. -/
structure Forgotten (pool : ConstantPool) (index : PoolIndex) (new constant : Constant) :
    Prop where
  clash : pool.Clashes index constant new
  known : pool.known[constant]? = some index

/-- The new constant is said to stand where one of another width does. -/
structure Misplaced (pool : ConstantPool) (index : PoolIndex) (new : Constant) : Prop where
  clash : ∃ old, pool.Clashes index old new
  found : isFoundAfterSet new = true
  unknown : pool.known[new]? = none

/-- What the pool knows of the constant changes with a replacement that fails. -/
def Disturbed (pool : ConstantPool) (index : PoolIndex) (new constant : Constant) : Prop :=
  pool.Forgotten index new constant ∨ constant = new ∧ pool.Misplaced index new

theorem Clashes.ne (h : pool.Clashes index old new) : old ≠ new :=
  fun he => h.widths (he ▸ rfl)

/-- Only the slots are left as they were. -/
theorem Clashes.set (h : pool.Clashes index old new) :
    ConstantPool.set index new pool =
      (.error (.badIndex index .replaceable), ⟨pool.slots, relearn pool.known index old new⟩) := by
  obtain ⟨i, hi⟩ := get_ok_iff_exists.1 h.stands
  have hfail : pool.slots.set index.toNat new =
      (.error (.incompatibleWidth (width new) (width old)), pool.slots) := by
    unfold SlotVec.set
    rw [hi]
    exact if_neg h.widths
  unfold ConstantPool.set
  rw [h.stands]
  simp only [h.replaceable, hfail]
  rfl

variable {e : ClassError}

/-- A failure for another reason than the widths leaves the pool as it was. -/
theorem eq_of_set_error (hf : set index new pool = (.error e, after))
    (hc : ∀ old, ¬pool.Clashes index old new) : after = pool := by
  cases hg : pool.get index with
  | error e' =>
    unfold set at hf
    rw [hg] at hf
    cases hf
    rfl
  | ok old =>
    cases hfixed : isFixed old with
    | true =>
      unfold set at hf
      simp only [hg, hfixed] at hf
      cases hf
      rfl
    | false =>
      have hw : width new = width old := by
        by_contra hne
        exact hc old ⟨hg, hfixed, hne⟩
      obtain ⟨done, hok⟩ := set_succeeds hg hfixed hw
      cases hf.symm.trans hok

/-- What the pool learns of a constant, though the old one does not make way. -/
theorem Clashes.known_relearn (h : pool.Clashes index old new) (constant : Constant) :
    let known := relearn pool.known index old new
    (pool.Forgotten index new constant ∧ known[constant]? = none) ∨
      (constant = new ∧ pool.Misplaced index new ∧ known[constant]? = some index) ∨
        (¬pool.Disturbed index new constant ∧ known[constant]? = pool.known[constant]?) := by
  intro known
  have hold : ∀ {other}, pool.Clashes index other new → other = old :=
    fun hother => Except.ok.inj (hother.stands.symm.trans h.stands)
  rw [getElem?_relearn]
  by_cases hnew : constant = new ∧ isFoundAfterSet new = true
  · obtain ⟨rfl, hfound⟩ := hnew
    rw [if_pos ⟨rfl, hfound⟩]
    cases hk : pool.known[constant]? with
    | none => exact .inr (.inl ⟨rfl, ⟨⟨old, h⟩, hfound, hk⟩, rfl⟩)
    | some i =>
      -- It is known already, and it is not the old one, as it has another width.
      refine .inr (.inr ⟨?_, rfl⟩)
      rintro (hforgotten | ⟨-, hmisplaced⟩)
      · exact hforgotten.clash.ne rfl
      · cases hk.symm.trans hmisplaced.unknown
  rw [if_neg hnew]
  by_cases hgone : constant = old ∧ pool.known[constant]? = some index
  · rw [if_pos hgone]
    obtain ⟨rfl, hk⟩ := hgone
    exact .inl ⟨⟨h, hk⟩, rfl⟩
  · rw [if_neg hgone]
    refine .inr (.inr ⟨?_, rfl⟩)
    rintro (hforgotten | ⟨rfl, hmisplaced⟩)
    · exact hgone ⟨hold hforgotten.clash, hforgotten.known⟩
    · exact hnew ⟨rfl, hmisplaced.found⟩

/-- What is known of a constant after a replacement that fails. -/
theorem known_of_set_error (hf : set index new pool = (.error e, after)) (constant : Constant) :
    (pool.Forgotten index new constant ∧ after.known[constant]? = none) ∨
      (constant = new ∧ pool.Misplaced index new ∧ after.known[constant]? = some index) ∨
        (¬pool.Disturbed index new constant ∧ after.known[constant]? = pool.known[constant]?) := by
  by_cases hc : ∃ old, pool.Clashes index old new
  · obtain ⟨old, hclash⟩ := hc
    rw [hclash.set] at hf
    cases hf
    exact hclash.known_relearn constant
  · have hnone : ∀ old, ¬pool.Clashes index old new := fun old h => hc ⟨old, h⟩
    refine .inr (.inr ⟨?_, by rw [eq_of_set_error hf hnone]⟩)
    rintro (hforgotten | ⟨-, hmisplaced⟩)
    · exact hnone _ hforgotten.clash
    · exact hc hmisplaced.clash

/-- The failure changes what is known of the disturbed constants, and of no other one. -/
theorem known_eq_iff (hf : set index new pool = (.error e, after)) (constant : Constant) :
    after.known[constant]? = pool.known[constant]? ↔ ¬pool.Disturbed index new constant := by
  obtain ⟨hforgotten, hk⟩ | ⟨rfl, hmisplaced, hk⟩ | ⟨hnot, hk⟩ := known_of_set_error hf constant
  · refine iff_of_false ?_ fun hnot => hnot (.inl hforgotten)
    simp [hk, hforgotten.known]
  · refine iff_of_false ?_ fun hnot => hnot (.inr ⟨rfl, hmisplaced⟩)
    simp [hk, hmisplaced.unknown]
  · exact iff_of_true hk hnot

theorem alike_of_set_error (hf : set index new pool = (.error e, after))
    (hnone : ∀ constant, ¬pool.Disturbed index new constant) : pool.Alike after :=
  ⟨slots_of_set_error hf, fun constant => (known_eq_iff hf constant).2 (hnone constant)⟩

/-- After the failure everything that is known is true, unless the new constant is misplaced. -/
theorem truthful_iff_of_set_error (hf : set index new pool = (.error e, after))
    (ht : pool.Truthful) : after.Truthful ↔ ¬pool.Misplaced index new := by
  have hget := get_of_slots (slots_of_set_error hf)
  constructor
  · intro hafter hmisplaced
    obtain ⟨old, hclash⟩ := hmisplaced.clash
    obtain ⟨hforgotten, -⟩ | ⟨-, -, hk⟩ | ⟨hnot, -⟩ := known_of_set_error hf new
    · exact hforgotten.clash.ne rfl
    · have hnew := hafter new index hk
      rw [hget, hclash.stands] at hnew
      exact hclash.ne (Except.ok.inj hnew)
    · exact hnot (.inr ⟨rfl, hmisplaced⟩)
  · intro hnot constant i hi
    obtain ⟨-, hk⟩ | ⟨-, hmisplaced, -⟩ | ⟨-, hk⟩ := known_of_set_error hf constant
    · cases hk.symm.trans hi
    · exact absurd hmisplaced hnot
    · rw [hget]
      exact ht constant i (hk ▸ hi)

end Disturbed

section Lookups

variable {e : ClassError}

/-- Where a constant is known in one pool only, a lookup tells the pools apart, as it does not add
the constant where it is known in the other one. -/
theorem share_ne {i : PoolIndex} (hk : pool.known[constant]? = some i)
    (hu : other.known[constant]? = none) (hi : i ≠ other.slotCount) :
    (share constant other).1 ≠ (share constant pool).1 := by
  rw [share_known hk, share_new hu]
  intro hsame
  have hpush : push constant other = (.ok i, (push constant other).2) := Prod.ext hsame rfl
  exact hi (push_ok hpush).2.1

/-- Where a constant stands no other one is added. -/
theorem Sound.ne_slotCount (hs : pool.Sound) (hg : pool.get index = .ok constant) :
    index ≠ pool.slotCount := by
  rintro rfl
  have hb := hs.get_bounds hg
  have hw := constant.width_pos
  omega

/-- The constants of texts are looked for as without the failure. -/
theorem known_utf8_of_set_error (hf : set index new pool = (.error e, after)) (text : String) :
    after.known[Constant.utf8 text]? = pool.known[Constant.utf8 text]? := by
  refine (known_eq_iff hf _).2 ?_
  rintro (hforgotten | ⟨rfl, hmisplaced⟩)
  · cases hforgotten.clash.replaceable
  · cases hmisplaced.found

/-- As long as both pools hold the same and the constant is known as right after the failure, a
search for it notices the failure exactly if it is disturbed. -/
theorem share_same_iff (hf : set index new pool = (.error e, after)) {later later' : ConstantPool}
    (hs : later.Sound) (hh : pool.Holds later) (hslots : later'.slots = later.slots)
    (hk : later.known[constant]? = pool.known[constant]?)
    (hk' : later'.known[constant]? = after.known[constant]?) :
    (share constant later').1 = (share constant later).1 ↔
      ¬pool.Disturbed index new constant := by
  have hend : ∀ {old}, pool.Clashes index old new → index ≠ later.slotCount :=
    fun hclash => hs.ne_slotCount (hh _ _ hclash.stands)
  obtain ⟨h, hafter⟩ | ⟨rfl, h, hafter⟩ | ⟨hnot, hafter⟩ := known_of_set_error hf constant
  · refine iff_of_false ?_ fun hnot => hnot (.inl h)
    refine share_ne (hk.trans h.known) (hk'.trans hafter) ?_
    rw [slotCount_of_slots hslots]
    exact hend h.clash
  · obtain ⟨old, hclash⟩ := h.clash
    refine iff_of_false ?_ fun hnot => hnot (.inr ⟨rfl, h⟩)
    exact (share_ne (hk'.trans hafter) (hk.trans h.unknown) (hend hclash)).symm
  · refine iff_of_true (share_of_slots hslots ?_).1 hnot
    exact hk'.trans (hafter.trans hk.symm)

/-- A lookup by way of a text notices the failure exactly if what it comes to is disturbed. -/
theorem lookup_same_iff (hs : pool.Sound) (hf : set index new pool = (.error e, after))
    (text : String) {wrap : PoolIndex → Constant} (hw : ∀ i, wrap i ≠ .utf8 text) :
    ((getUtf8 text >>= fun i => share (wrap i)) after).1 =
        ((getUtf8 text >>= fun i => share (wrap i)) pool).1 ↔
      ∀ i, (getUtf8 text pool).1 = .ok i → ¬pool.Disturbed index new (wrap i) := by
  obtain ⟨hanswer, hslots⟩ : (getUtf8 text after).1 = (getUtf8 text pool).1 ∧
      (getUtf8 text after).2.slots = (getUtf8 text pool).2.slots :=
    share_of_slots (slots_of_set_error hf) (known_utf8_of_set_error hf text)
  obtain ⟨hsound, hholds⟩ :=
    keeps_getUtf8 (fun c _ => keeps_holds pool c) text pool ⟨hs, fun _ _ h => h⟩
  have hsame : ∀ i, (share (wrap i) (getUtf8 text after).2).1 =
      (share (wrap i) (getUtf8 text pool).2).1 ↔ ¬pool.Disturbed index new (wrap i) := fun i =>
    share_same_iff hf hsound hholds hslots (known_share_of_ne (hw i)) (known_share_of_ne (hw i))
  rw [bind_apply, bind_apply]
  generalize getUtf8 text pool = run at hanswer hsame ⊢
  generalize getUtf8 text after = run' at hanswer hsame ⊢
  obtain ⟨answer, mid⟩ := run
  obtain ⟨answer', mid'⟩ := run'
  obtain rfl : answer' = answer := hanswer
  cases answer' with
  | error e => simp
  | ok i => simpa using hsame i

end Lookups

section Sample

/-- A pool with a wide constant and a text. -/
def textPool : ConstantPool :=
  ⟨⟨#[(1, .long 7), (3, .utf8 "A")], 4⟩, Std.HashMap.emptyWithCapacity.insertIfNew (.utf8 "A") 3⟩

theorem reachable_textPool : textPool.Reachable :=
  .step (.step .empty (.push (.long 7))) (.push (.utf8 "A"))

theorem get_textPool : textPool.get 1 = .ok (.long 7) :=
  reachable_textPool.sound.get_ok_iff.2 (by simp [textPool, SlotVec.toList])

theorem known_textPool (constant : Constant) : textPool.known[constant]? =
    if constant = .utf8 "A" then some 3 else none := by
  simp [textPool, known_insertIfNew]

theorem getUtf8_textPool : getUtf8 "A" textPool = (.ok 3, textPool) :=
  share_known (by simp [known_textPool])

/-- A constant of one slot cannot take the place of the wide one. -/
theorem clashes_textPool (h : width new = 1) : textPool.Clashes 1 (.long 7) new :=
  ⟨get_textPool, rfl, by rw [h]; decide⟩

end Sample

/-- A replacement that fails leaves what stands at every index, and if it fails for another reason
than the widths, it leaves the pool as it was. Where it disturbs no constant, all later operations
give what they would give without it, and leave an alike pool. In any case a class or a string is
found as it would be found without it, unless the constant that the lookup comes to is disturbed;
then it is not. And where everything that was known was true, it stays so unless the new constant is
misplaced. -/
theorem failed_set_noticed_iff {e : ClassError} (h : pool.Reachable)
    (hf : set index new pool = (.error e, after)) :
    (∀ i, after.get i = pool.get i) ∧
    ((∀ old, ¬pool.Clashes index old new) → after = pool) ∧
    ((∀ constant, ¬pool.Disturbed index new constant) → ∀ operations,
      (Operation.runAll operations after).1 = (Operation.runAll operations pool).1 ∧
        (Operation.runAll operations pool).2.Alike (Operation.runAll operations after).2) ∧
    (∀ name, (getClass name after).1 = (getClass name pool).1 ↔
      ∀ i, (getUtf8 name pool).1 = .ok i → ¬pool.Disturbed index new (.classRef i)) ∧
    (∀ value, (getString value after).1 = (getString value pool).1 ↔
      ∀ i, (getUtf8 value pool).1 = .ok i → ¬pool.Disturbed index new (.string i)) ∧
    (pool.Truthful → (after.Truthful ↔ ¬pool.Misplaced index new)) :=
  ⟨get_of_slots (slots_of_set_error hf),
    eq_of_set_error hf,
    fun hnone operations => (alike_of_set_error hf hnone).runAll operations,
    fun name => lookup_same_iff h.sound hf name (by simp),
    fun value => lookup_same_iff h.sound hf value (by simp),
    truthful_iff_of_set_error hf⟩

/-- The constant that fails to take the place of the wide one is looked for by no lookup. -/
theorem failed_set_noticed_iff_sample :
    ∃ e after, set 1 (.integer 5) textPool = (.error e, after) ∧
      (getClass "A" after).1 = (getClass "A" textPool).1 ∧
      (Operation.runAll [.getString "A", .push (.integer 5)] after).1 =
        (Operation.runAll [.getString "A", .push (.integer 5)] textPool).1 := by
  have hclash : textPool.Clashes 1 (.long 7) (.integer 5) := clashes_textPool rfl
  have hnone : ∀ constant, ¬textPool.Disturbed 1 (.integer 5) constant := by
    rintro constant (h | ⟨-, h⟩)
    · have hk := h.known
      rw [known_textPool] at hk
      split_ifs at hk
      cases hk
    · cases h.found
  obtain ⟨-, -, hlater, hclass, -⟩ := failed_set_noticed_iff reachable_textPool hclash.set
  exact ⟨_, _, hclash.set, (hclass "A").2 fun i _ => hnone _, (hlater hnone _).1⟩

/-- A class fails to take the place of the wide constant, and is then found there; without the
failure it is added behind the text. -/
theorem failed_set_noticed :
    textPool.Reachable ∧ ∃ e after, set 1 (.classRef 3) textPool = (.error e, after) ∧
      (getClass "A" after).1 = .ok 1 ∧ after.get 1 = .ok (.long 7) ∧
      (getClass "A" textPool).1 = .ok 4 := by
  have hclash : textPool.Clashes 1 (.long 7) (.classRef 3) := clashes_textPool rfl
  refine ⟨reachable_textPool, _, _, hclash.set, ?_, get_textPool, ?_⟩
  · generalize hafter : ConstantPool.mk textPool.slots
      (relearn textPool.known 1 (.long 7) (.classRef 3)) = after
    have htext : after.known[Constant.utf8 "A"]? = some 3 := by
      simp [← hafter, getElem?_relearn, known_textPool]
    have hclass : after.known[Constant.classRef 3]? = some 1 := by
      simp [← hafter, getElem?_relearn, known_textPool, isFoundAfterSet]
    have hrun : getClass "A" after = (.ok 1, after) :=
      bind_ok_iff.2 ⟨3, after, share_known htext, share_known hclass⟩
    rw [hrun]
  · have hnew : share (.classRef 3) textPool = push (.classRef 3) textPool :=
      share_new (by simp [known_textPool])
    have hroom : textPool.pushError? (.classRef 3) = none := by decide
    have hrun : getClass "A" textPool = (.ok 4, (push (.classRef 3) textPool).2) := by
      refine bind_ok_iff.2 ⟨3, textPool, getUtf8_textPool, ?_⟩
      have hcount : textPool.slotCount = 4 := rfl
      rw [hnew]
      exact Prod.ext (by simp [push, hroom, hcount]) rfl
    rw [hrun]

end JarRename.ConstantPool
