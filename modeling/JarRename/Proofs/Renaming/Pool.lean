import Mathlib
import JarRename.Proofs.ConstantPool
import JarRename.Proofs.Fallible
import JarRename.Renaming.Text

/-!
# Pools that only grow

Apart from one round of replacements, renaming only adds texts, names and types to a pool. What a
step reads therefore still stands in every later pool, and so does what it hands on. `Yields` says
this of a step: it speaks of the pool `old`, in which the symbols have their old names, and of the
pool `new` that comes out at the end.
-/
namespace JarRename

namespace SlotVec

variable {α : Type} [HasWidth α]

/-- The same elements get the same addresses behind vectors that end at the same address. -/
theorem exists_toList_foldl_push (next : Nat) (xs : List α) :
    ∃ entries : List (Nat × α), entries.map (·.2) = xs ∧
      (Room next xs → ∀ entry ∈ entries, next ≤ entry.1) ∧
      ∀ v : SlotVec α, v.next = next → (xs.foldl SlotVec.push v).toList = v.toList ++ entries := by
  induction xs generalizing next with
  | nil => exact ⟨[], rfl, by simp, fun v _ => by simp⟩
  | cons x xs ih =>
    obtain ⟨entries, hm, hle, hl⟩ := ih ((next + width x) % addressCount)
    refine ⟨(next, x) :: entries, by simp [hm], fun room entry he => ?_, fun v hv => ?_⟩
    · obtain ⟨hx, hxs⟩ := room.of_cons
      rw [Nat.mod_eq_of_lt hx] at hle
      rcases List.mem_cons.1 he with rfl | he
      · exact le_rfl
      · have := hle hxs entry he
        omega
    · rw [List.foldl_cons, hl (v.push x) (by rw [← hv]; rfl), toList_push, hv]
      simp

end SlotVec

namespace ConstantPool

open SlotVec Renaming

theorem nameAndTypeParts_ok_iff {pool : ConstantPool} {index i j : PoolIndex} :
    nameAndTypeParts pool index = .ok (i, j) ↔ pool.get index = .ok (.nameAndType i j) := by
  rw [nameAndTypeParts, Fallible.bind_ok_iff]
  constructor
  · rintro ⟨constant, hg, h⟩
    cases constant with
    | nameAndType i j =>
      cases h
      exact hg
    | _ => cases h
  · intro hg
    exact ⟨.nameAndType i j, hg, rfl⟩

/-- What renaming adds to a pool. -/
def isAddition : Constant → Bool
  | .utf8 _ | .nameAndType _ _ => true
  | _ => false

theorem isFixed_of_isAddition {constant : Constant} (h : isAddition constant = true) :
    isFixed constant = true := by
  cases constant <;> simp_all [isAddition, isFixed]

/-- The second pool is the first one with texts, names and types added at the end. -/
def Grows (pool after : ConstantPool) : Prop :=
  ∃ added : List Constant, (∀ constant ∈ added, isAddition constant = true) ∧
    after.slots = added.foldl SlotVec.push pool.slots ∧ Room pool.slots.next added

namespace Grows

variable {pool mid after : ConstantPool}

theorem refl (pool : ConstantPool) : pool.Grows pool :=
  ⟨[], by simp, rfl, fun h => absurd rfl h⟩

theorem trans (h : pool.Grows mid) (h' : mid.Grows after) : pool.Grows after := by
  obtain ⟨xs, hx, hm, hroom⟩ := h
  obtain ⟨ys, hy, ha, hroom'⟩ := h'
  rw [hm, next_foldl_push hroom] at hroom'
  refine ⟨xs ++ ys, ?_, by rw [ha, hm, List.foldl_append], hroom.append hroom'⟩
  intro constant hc
  rcases List.mem_append.1 hc with hc | hc
  · exact hx constant hc
  · exact hy constant hc

theorem toList (h : pool.Grows after) :
    ∃ entries : List (Nat × Constant), after.slots.toList = pool.slots.toList ++ entries ∧
      ∀ entry ∈ entries, isAddition entry.2 = true ∧ pool.slots.next ≤ entry.1 := by
  obtain ⟨xs, hx, ha, hroom⟩ := h
  obtain ⟨entries, hm, hle, hl⟩ := exists_toList_foldl_push pool.slots.next xs
  refine ⟨entries, by rw [ha, hl _ rfl], fun entry he => ⟨hx _ ?_, hle hroom entry he⟩⟩
  rw [← hm]
  exact List.mem_map_of_mem he

theorem laid (h : pool.Grows after) (hl : pool.slots.LaidFrom 1) : after.slots.LaidFrom 1 := by
  obtain ⟨xs, -, ha, hroom⟩ := h
  rw [ha]
  exact hl.foldl_push xs (fun x _ => x.width_pos) hroom

theorem get (h : pool.Grows after) (hl : pool.slots.LaidFrom 1) {index : PoolIndex}
    {constant : Constant} (hg : pool.get index = .ok constant) :
    after.get index = .ok constant := by
  obtain ⟨entries, he, -⟩ := h.toList
  rw [get_ok_iff_mem (h.laid hl), he]
  exact List.mem_append_left _ ((get_ok_iff_mem hl).1 hg)

theorem text (h : pool.Grows after) (hl : pool.slots.LaidFrom 1) {index : PoolIndex}
    {text : String} (ht : pool.text index = .ok text) : after.text index = .ok text :=
  text_ok_iff.2 (h.get hl (text_ok_iff.1 ht))

theorem className (h : pool.Grows after) (hl : pool.slots.LaidFrom 1) {index : PoolIndex}
    {name : String} (hn : pool.className index = .ok name) : after.className index = .ok name := by
  obtain ⟨i, hg, ht⟩ := className_ok_iff.1 hn
  exact className_ok_iff.2 ⟨i, h.get hl hg, h.text hl ht⟩

end Grows

/-- The name of a class constant, looked up among the names given first. -/
def nameBefore (names : Std.HashMap PoolIndex String) (pool : ConstantPool) (index : PoolIndex) :
    Except ClassError String :=
  match names[index]? with
  | some name => .ok name
  | none => pool.className index

@[simp] theorem nameBefore_empty (pool : ConstantPool) (index : PoolIndex) :
    nameBefore ∅ pool index = pool.className index := by
  simp [nameBefore]

/-- Texts, names and types stand in `old` and in `new` as they stand in the pool, and `old` has the
old names of the classes. -/
structure Between (names : Std.HashMap PoolIndex String) (pool old new : ConstantPool) : Prop where
  fixed : ∀ index constant, isFixed constant = true → pool.get index = .ok constant →
    old.get index = .ok constant ∧ new.get index = .ok constant
  owner : ∀ index name, nameBefore names pool index = .ok name → old.className index = .ok name
  sound : new.Sound

namespace Between

variable {names : Std.HashMap PoolIndex String} {pool after old new : ConstantPool}

theorem self (h : pool.Sound) : Between ∅ pool pool pool :=
  ⟨fun _ _ _ hg => ⟨hg, hg⟩, fun _ _ hn => by simpa using hn, h⟩

theorem of_grows (h : Between names after old new) (hg : pool.Grows after)
    (hl : pool.slots.LaidFrom 1) : Between names pool old new := by
  refine ⟨fun index constant hc hi => h.fixed index constant hc (hg.get hl hi), ?_, h.sound⟩
  intro index name hn
  apply h.owner
  unfold nameBefore at hn ⊢
  split at hn
  · exact hn
  · exact hg.className hl hn

theorem text (h : Between names pool old new) {index : PoolIndex} {text : String}
    (ht : pool.text index = .ok text) : old.text index = .ok text ∧ new.text index = .ok text := by
  simp only [text_ok_iff] at ht ⊢
  exact h.fixed index _ rfl ht

theorem nameAndTypeParts (h : Between names pool old new) {index : PoolIndex}
    {parts : PoolIndex × PoolIndex} (hp : Renaming.nameAndTypeParts pool index = .ok parts) :
    Renaming.nameAndTypeParts old index = .ok parts ∧
      Renaming.nameAndTypeParts new index = .ok parts := by
  obtain ⟨i, j⟩ := parts
  simp only [nameAndTypeParts_ok_iff] at hp ⊢
  exact h.fixed index _ rfl hp

theorem nameAndDescriptor (h : Between names pool old new) {index : PoolIndex}
    {texts : String × String} (ht : pool.nameAndDescriptor index = .ok texts) :
    old.nameAndDescriptor index = .ok texts ∧ new.nameAndDescriptor index = .ok texts := by
  obtain ⟨name, descriptor⟩ := texts
  obtain ⟨i, j, hg, hi, hj⟩ := nameAndDescriptor_ok_iff.1 ht
  have hf := h.fixed index _ rfl hg
  exact ⟨nameAndDescriptor_ok_iff.2 ⟨i, j, hf.1, (h.text hi).1, (h.text hj).1⟩,
    nameAndDescriptor_ok_iff.2 ⟨i, j, hf.2, (h.text hi).2, (h.text hj).2⟩⟩

end Between

end ConstantPool

namespace Renaming

open ConstantPool Stateful

variable {α β : Type} {names : Std.HashMap PoolIndex String}

/-- A step that succeeds only adds to the pool, and what it gives has the property with regard to
every `old` and every `new` that the pool lies between. -/
def Yields (names : Std.HashMap PoolIndex String) (action : PoolM α)
    (post : ConstantPool → ConstantPool → α → Prop) : Prop :=
  ∀ pool x after, pool.Sound → action pool = (.ok x, after) →
    after.Sound ∧ pool.Grows after ∧ ∀ old new, Between names after old new → post old new x

variable {action : PoolM α} {post : ConstantPool → ConstantPool → α → Prop}

theorem Yields.mono {post' : ConstantPool → ConstantPool → α → Prop} (h : Yields names action post)
    (hp : ∀ old new x, new.Sound → post old new x → post' old new x) :
    Yields names action post' := by
  intro pool x after hs ha
  obtain ⟨hs', hg, hb⟩ := h pool x after hs ha
  exact ⟨hs', hg, fun old new h => hp old new x h.sound (hb old new h)⟩

theorem yields_pure {x : α} (h : ∀ old new, post old new x) : Yields names (pure x) post := by
  intro pool y after hs ha
  cases ha
  exact ⟨hs, .refl pool, fun old new _ => h old new⟩

theorem Yields.bind {next : α → PoolM β} {post' : ConstantPool → ConstantPool → β → Prop}
    (ha : Yields names action post)
    (hn : ∀ x, Yields names (next x) fun old new y => post old new x → post' old new y) :
    Yields names (action >>= next) post' := by
  intro pool y after hs h
  obtain ⟨x, mid, hx, hy⟩ := bind_ok_iff.1 h
  obtain ⟨hm, hg, hp⟩ := ha pool x mid hs hx
  obtain ⟨hs', hg', hp'⟩ := hn x mid y after hm hy
  exact ⟨hs', hg.trans hg', fun old new hb =>
    hp' old new hb (hp old new (hb.of_grows hg' hm.laid))⟩

theorem yields_look {read : ConstantPool → Except ClassError α}
    (h : ∀ pool old new x, Between names pool old new → read pool = .ok x → post old new x) :
    Yields names (look read) post := by
  intro pool x after hs ha
  have hr : read pool = .ok x := congrArg Prod.fst ha
  have hp : pool = after := congrArg Prod.snd ha
  subst hp
  exact ⟨hs, .refl pool, fun old new hb => h pool old new x hb hr⟩

theorem yields_lift {result : Except ClassError α}
    (h : ∀ x old new, result = .ok x → post old new x) :
    Yields names (liftM result : PoolM α) post := by
  intro pool x after hs ha
  have hr : result = .ok x := congrArg Prod.fst ha
  have hp : pool = after := congrArg Prod.snd ha
  subst hp
  exact ⟨hs, .refl pool, fun old new _ => h x old new hr⟩

theorem yields_lift_bind {result : Except ClassError α} {next : α → PoolM β}
    {post : ConstantPool → ConstantPool → β → Prop}
    (h : ∀ x, result = .ok x → Yields names (next x) post) :
    Yields names ((liftM result : PoolM α) >>= next) post := by
  intro pool y after hs ha
  obtain ⟨x, mid, hx, hy⟩ := bind_ok_iff.1 ha
  have hr : result = .ok x := congrArg Prod.fst hx
  have hp : pool = mid := congrArg Prod.snd hx
  subst hp
  exact h x hr pool y after hs hy

theorem yields_mapM {step : α → PoolM β} {rel : ConstantPool → ConstantPool → α → β → Prop}
    (items : List α) (h : ∀ x ∈ items, Yields names (step x) fun old new y => rel old new x y) :
    Yields names (items.mapM step) fun old new ys => List.Forall₂ (rel old new) items ys := by
  induction items with
  | nil => exact yields_pure fun _ _ => .nil
  | cons x items ih =>
    rw [List.mapM_cons]
    refine (h x (by simp)).bind fun y => ?_
    refine (ih fun z hz => h z (by simp [hz])).bind fun ys => ?_
    exact yields_pure fun _ _ hys hy => .cons hy hys

/-- A text, or a name with a type, that is looked for stands at the index that comes out. -/
theorem yields_share {constant : Constant} (hc : isAddition constant = true) :
    Yields names (share constant) fun _ new index => new.get index = .ok constant := by
  intro pool index after hs h
  have hf := isFixed_of_isAddition hc
  obtain ⟨hg, ha⟩ := share_ok hs (fun i hi => hs.found constant i hf hi) h
  rcases ha with rfl | hp
  · exact ⟨hs, .refl _, fun old new hb => (hb.fixed index constant hf hg).2⟩
  · obtain ⟨he, -, hps, -⟩ := push_ok hp
    have hroom : SlotVec.Room pool.slots.next [constant] := fun _ => by
      simpa using room_of_pushError? he
    exact ⟨sound_push hs hp, ⟨[constant], by simpa using hc, hps, hroom⟩,
      fun old new hb => (hb.fixed index constant hf hg).2⟩

end Renaming

end JarRename
