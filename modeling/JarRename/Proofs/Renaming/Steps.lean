import Mathlib
import JarRename.Proofs.Renaming.Attributes
import JarRename.Proofs.Renaming.Constants
import JarRename.Renaming.Class

/-!
# Steps that keep an invariant

Outside of its one round of replacements, renaming changes a pool only by looking for a text or for
a name with a type that may have to be added. What such a search keeps is kept by every step. A
remapper that maps all symbols to themselves does not even search, so each step then gives back what
it was given. `Returns` says both of a step, the second half under the condition `same`.
-/
namespace JarRename.Renaming

open ConstantPool Stateful

variable {α β : Type}

/-- A step that succeeds keeps the invariant, and what it gives is `x` if `same` holds. -/
def Returns (inv : ConstantPool → Prop) (same : Prop) (action : PoolM α) (x : α) : Prop :=
  ∀ pool y after, inv pool → action pool = (.ok y, after) → inv after ∧ (same → y = x)

variable {inv : ConstantPool → Prop} {same : Prop}

theorem returns_pure {x y : α} (h : same → y = x) : Returns inv same (pure y) x := by
  intro pool z after hi ha
  cases ha
  exact ⟨hi, h⟩

theorem Returns.mono {action : PoolM α} {x z : α} (h : Returns inv same action x)
    (hz : same → x = z) : Returns inv same action z := by
  intro pool y after hi ha
  obtain ⟨hi', hy⟩ := h pool y after hi ha
  exact ⟨hi', fun hs => (hy hs).trans (hz hs)⟩

theorem Returns.bind {action : PoolM α} {next : α → PoolM β} {x : α} {z : β}
    (h : Returns inv same action x)
    (hn : ∀ y, (same → y = x) → Returns inv same (next y) z) :
    Returns inv same (action >>= next) z := by
  intro pool w after hi hw
  obtain ⟨y, mid, ha, hb⟩ := bind_ok_iff.1 hw
  obtain ⟨hm, hy⟩ := h pool y mid hi ha
  exact hn y hy mid w after hm hb

theorem returns_look_bind {read : ConstantPool → Except ClassError α} {next : α → PoolM β} {z : β}
    (h : ∀ y, Returns inv same (next y) z) : Returns inv same (look read >>= next) z := by
  intro pool w after hi hw
  obtain ⟨y, mid, ha, hb⟩ := bind_ok_iff.1 hw
  have hp : pool = mid := congrArg Prod.snd ha
  subst hp
  exact h y pool w after hi hb

theorem returns_lift_bind {result : Except ClassError α} {next : α → PoolM β} {z : β}
    (h : ∀ y, result = .ok y → Returns inv same (next y) z) :
    Returns inv same ((liftM result : PoolM α) >>= next) z := by
  intro pool w after hi hw
  obtain ⟨y, mid, ha, hb⟩ := bind_ok_iff.1 hw
  have hr : result = .ok y := congrArg Prod.fst ha
  have hp : pool = mid := congrArg Prod.snd ha
  subst hp
  exact h y hr pool w after hi hb

theorem returns_lookOption_bind {read : PoolIndex → ConstantPool → Except ClassError α}
    {index : Option PoolIndex} {next : Option α → PoolM β} {z : β}
    (h : ∀ y, Returns inv same (next y) z) :
    Returns inv same (index.mapM (fun i => look (read i)) >>= next) z := by
  cases index with
  | none => exact h none
  | some i =>
    rw [Option.mapM_some, map_eq_pure_bind, bind_assoc]
    apply returns_look_bind
    intro y
    rw [pure_bind]
    exact h (some y)

theorem returns_mapM {step : α → PoolM α} {items : List α}
    (h : ∀ x ∈ items, Returns inv same (step x) x) :
    Returns inv same (items.mapM step) items := by
  induction items with
  | nil => exact returns_pure fun _ => rfl
  | cons x items ih =>
    rw [List.mapM_cons]
    apply (h x (by simp)).bind
    intro y hy
    apply (ih fun z hz => h z (by simp [hz])).bind
    intro ys hys
    exact returns_pure fun hs => by rw [hy hs, hys hs]

/-- What the steps rest on: either no symbol gets another text, or searches keep the invariant. -/
structure Steady (r : Remapper) (inv : ConstantPool → Prop) (same : Prop) : Prop where
  text : same → ∀ kind text mapped, mapText r kind text = .ok mapped → mapped = text
  className : same → ∀ name mapped, r.mapClassConstant name = .ok mapped → mapped = name
  memberName : same → ∀ kind owner name descriptor mapped,
    mapMemberName r kind owner name descriptor = .ok mapped → mapped = name
  share : ¬same → ∀ constant, isAddition constant = true → ∀ index,
    Returns inv same (share constant) index

section Texts

variable {r : Remapper}

theorem returns_replaceText (h : Steady r inv same) (index : PoolIndex) {old new : String}
    (hn : same → new = old) : Returns inv same (replaceText index old new) index := by
  unfold replaceText
  by_cases heq : new = old
  · rw [if_pos heq]
    exact returns_pure fun _ => rfl
  · rw [if_neg heq]
    exact h.share (fun hs => heq (hn hs)) _ rfl index

theorem returns_renameText (h : Steady r inv same) (kind : TextKind) (index : PoolIndex) :
    Returns inv same (renameText r kind index) index := by
  apply returns_look_bind
  intro old
  apply returns_lift_bind
  intro mapped hm
  exact returns_replaceText h index fun hs => h.text hs kind old mapped hm

theorem returns_renameMember (h : Steady r inv same) (kind : MemberKind) (owner : String)
    (index : PoolIndex) : Returns inv same (renameMember r kind owner index) index := by
  apply returns_look_bind
  intro texts
  apply returns_lift_bind
  intro newName hname
  apply returns_lift_bind
  intro newDescriptor htype
  by_cases heq : newName = texts.1 ∧ newDescriptor = texts.2
  · dsimp only
    rw [if_pos heq]
    exact returns_pure fun _ => rfl
  · have hs : ¬same := fun hs =>
      heq ⟨h.memberName hs kind owner _ _ _ hname, h.text hs _ _ _ htype⟩
    dsimp only
    rw [if_neg heq]
    apply returns_look_bind
    intro parts
    apply (returns_replaceText h parts.1 fun h' => absurd h' hs).bind
    intro i _
    apply (returns_replaceText h parts.2 fun h' => absurd h' hs).bind
    intro j _
    exact h.share hs _ rfl index

theorem returns_renameDynamic (h : Steady r inv same) (kind : TextKind) (index : PoolIndex) :
    Returns inv same (renameDynamic r kind index) index := by
  apply returns_look_bind
  intro parts
  apply (returns_renameText h kind parts.2).bind
  intro descriptor hd
  by_cases heq : descriptor = parts.2
  · rw [if_pos heq]
    exact returns_pure fun _ => rfl
  · rw [if_neg heq]
    exact h.share (fun hs => heq (hd hs)) _ rfl index

theorem returns_renameConstant (h : Steady r inv same) (constant : Constant) :
    Returns inv same (renameConstant r constant) constant := by
  cases constant with
  | classRef i =>
    apply returns_look_bind
    intro name
    apply returns_lift_bind
    intro mapped hm
    apply (returns_replaceText h i fun hs => h.className hs name mapped hm).bind
    intro j hj
    exact returns_pure fun hs => by rw [hj hs]
  | fieldRef owner i =>
    apply returns_look_bind
    intro name
    apply (returns_renameMember h .field name i).bind
    intro j hj
    exact returns_pure fun hs => by rw [hj hs]
  | methodRef owner i isInterface =>
    apply returns_look_bind
    intro name
    apply (returns_renameMember h .method name i).bind
    intro j hj
    exact returns_pure fun hs => by rw [hj hs]
  | methodType i =>
    apply (returns_renameText h .methodDescriptor i).bind
    intro j hj
    exact returns_pure fun hs => by rw [hj hs]
  | dynamic bootstrap i =>
    apply (returns_renameDynamic h .fieldDescriptor i).bind
    intro j hj
    exact returns_pure fun hs => by rw [hj hs]
  | invokeDynamic bootstrap i =>
    apply (returns_renameDynamic h .methodDescriptor i).bind
    intro j hj
    exact returns_pure fun hs => by rw [hj hs]
  | _ => exact returns_pure fun _ => rfl

/-- Where every constant is given back, there is nothing to replace. -/
theorem returns_changes (h : Steady r inv same) (found : List (PoolIndex × Constant × Constant))
    (constants : List (PoolIndex × Constant)) :
    Returns inv same (changes r found constants) found := by
  induction constants generalizing found with
  | nil => exact returns_pure fun _ => rfl
  | cons constant constants ih =>
    apply (returns_renameConstant h constant.2).bind
    intro new hnew
    exact (ih _).mono fun hs => if_pos (hnew hs)

end Texts

variable {ctx : Context}

theorem returns_fieldName (h : Steady ctx.remapper inv same) (owner : String) (name : PoolIndex)
    (nameText descriptor : String) :
    Returns inv same (ctx.fieldName owner name nameText descriptor) name := by
  apply returns_lift_bind
  intro mapped hm
  exact returns_replaceText h name fun hs => h.memberName hs .field owner _ _ _ hm

theorem returns_renameEnumConstant (h : Steady ctx.remapper inv same) (type name : PoolIndex) :
    Returns inv same (renameEnumConstant ctx type name) (.enumConstant type name) := by
  apply returns_look_bind
  intro descriptor
  apply returns_look_bind
  intro nameText
  cases descriptorClass? descriptor with
  | none =>
    apply (returns_renameText h .fieldDescriptor type).bind
    intro type' ht
    exact returns_pure fun hs => by rw [ht hs]
  | some owner =>
    apply (returns_fieldName h owner name nameText descriptor).bind
    intro name' hn
    apply (returns_renameText h .fieldDescriptor type).bind
    intro type' ht
    exact returns_pure fun hs => by rw [hn hs, ht hs]

theorem returns_elements {elements : List (PoolIndex × ElementValue)}
    (h : ∀ element ∈ elements, Returns inv same (renameValue ctx element.2) element.2) :
    Returns inv same (elements.mapM fun element => do
      return (element.1, ← renameValue ctx element.2)) elements := by
  apply returns_mapM
  intro element he
  apply (h element he).bind
  intro value hv
  exact returns_pure fun hs => by rw [hv hs]

theorem returns_renameValue (h : Steady ctx.remapper inv same) (value : ElementValue) :
    Returns inv same (renameValue ctx value) value := by
  induction value using renameValue.induct with
  | case1 tag index =>
    rw [renameValue]
    exact returns_pure fun _ => rfl
  | case2 type name =>
    rw [renameValue]
    exact returns_renameEnumConstant h type name
  | case3 descriptor =>
    rw [renameValue]
    apply (returns_renameText h .resultDescriptor descriptor).bind
    intro i hi
    exact returns_pure fun hs => by rw [hi hs]
  | case4 type elements ih =>
    rw [renameValue_nested]
    apply (returns_renameText h .fieldDescriptor type).bind
    intro type' ht
    apply (returns_elements fun element he => ih element.1 element.2 he).bind
    intro elements' he
    exact returns_pure fun hs => by rw [ht hs, he hs]
  | case5 values ih =>
    rw [renameValue_array]
    apply (returns_mapM fun value hv => ih value hv).bind
    intro values' hv
    exact returns_pure fun hs => by rw [hv hs]

theorem returns_renameUse (h : Steady ctx.remapper inv same) (entry : AnnotationUse) :
    Returns inv same (renameUse ctx entry) entry := by
  apply (returns_renameText h .fieldDescriptor entry.type).bind
  intro type ht
  apply (returns_elements fun element _ => returns_renameValue h element.2).bind
  intro elements he
  exact returns_pure fun hs => by rw [ht hs, he hs]

/-- Simple names are read off new names, so a class table is given back only if no class is known to
have changed its name. -/
theorem returns_renameInnerClass (h : Steady ctx.remapper inv same)
    (hn : same → ctx.oldNames = ∅) (entry : InnerClass) :
    Returns inv same (renameInnerClass ctx entry) entry := by
  unfold renameInnerClass
  cases hname : entry.simpleName with
  | none => exact returns_pure fun _ => rfl
  | some i =>
    by_cases hc : ctx.oldNames.contains entry.inner = true
    · have hs : ¬same := fun hs => by simp [hn hs] at hc
      dsimp only
      rw [if_pos hc]
      apply returns_look_bind
      intro inner
      apply returns_lookOption_bind
      intro outer
      apply returns_look_bind
      intro old
      apply (returns_replaceText h i fun h' => absurd h' hs).bind
      intro j _
      exact returns_pure fun h' => absurd h' hs
    · dsimp only
      rw [if_neg hc]
      exact returns_pure fun _ => rfl

theorem returns_variables (h : Steady ctx.remapper inv same) (kind : TextKind)
    (entries : List LocalVariable) : Returns inv same
      (entries.mapM fun entry => do return { entry with type := ← ctx.text kind entry.type })
      entries := by
  apply returns_mapM
  intro entry _
  apply (returns_renameText h kind entry.type).bind
  intro type ht
  exact returns_pure fun hs => by rw [ht hs]

variable {nested : Attribute → PoolM Attribute}

theorem returns_renameComponent (h : Steady ctx.remapper inv same) (entry : RecordComponent)
    (hi : ∀ a ∈ entry.attributes, Returns inv same (nested a) a) :
    Returns inv same (renameComponent ctx nested entry) entry := by
  apply returns_look_bind
  intro nameText
  apply returns_look_bind
  intro descriptorText
  apply (returns_fieldName h ctx.className entry.name nameText descriptorText).bind
  intro name hn
  apply (returns_renameText h .fieldDescriptor entry.descriptor).bind
  intro descriptor hd
  apply (returns_mapM hi).bind
  intro attributes ha
  exact returns_pure fun hs => by rw [hn hs, hd hs, ha hs]

theorem returns_renameBody (h : Steady ctx.remapper inv same) (hn : same → ctx.oldNames = ∅)
    (body : AttributeBody) (hi : ∀ a ∈ innerAttributes body, Returns inv same (nested a) a) :
    Returns inv same (renameBody ctx nested body) body := by
  cases body with
  | code body =>
    have hi' : ∀ a ∈ body.attributes, Returns inv same (nested a) a := hi
    apply (returns_mapM hi').bind
    intro attributes ha
    exact returns_pure fun hs => by rw [ha hs]
  | signature i =>
    apply (returns_renameText h .signature i).bind
    intro j hj
    exact returns_pure fun hs => by rw [hj hs]
  | enclosingMethod owner method =>
    cases method with
    | none => exact returns_pure fun _ => rfl
    | some i =>
      have hlast : ∀ name, Returns inv same (do
          return AttributeBody.enclosingMethod owner
            (some (← renameMember ctx.remapper .method name i)))
          (.enclosingMethod owner (some i)) := by
        intro name
        apply (returns_renameMember h .method name i).bind
        intro j hj
        exact returns_pure fun hs => by rw [hj hs]
      rw [renameBody, Context.oldClassName]
      cases ctx.oldNames[owner]? with
      | none => exact returns_look_bind hlast
      | some name => exact hlast name
  | innerClasses classes =>
    apply (returns_mapM fun entry _ => returns_renameInnerClass h hn entry).bind
    intro out ho
    exact returns_pure fun hs => by rw [ho hs]
  | localVariables entries =>
    apply (returns_variables h .fieldDescriptor entries).bind
    intro out ho
    exact returns_pure fun hs => by rw [ho hs]
  | localVariableTypes entries =>
    apply (returns_variables h .signature entries).bind
    intro out ho
    exact returns_pure fun hs => by rw [ho hs]
  | record components =>
    have hstep : ∀ entry ∈ components,
        Returns inv same (renameComponent ctx nested entry) entry := by
      intro entry he
      apply returns_renameComponent h
      intro a ha
      exact hi a (List.mem_flatMap.2 ⟨entry, he, ha⟩)
    apply (returns_mapM hstep).bind
    intro out ho
    exact returns_pure fun hs => by rw [ho hs]
  | annotations entries =>
    apply (returns_mapM fun entry _ => returns_renameUse h entry).bind
    intro out ho
    exact returns_pure fun hs => by rw [ho hs]
  | parameterAnnotations parameters =>
    apply (returns_mapM fun entries _ => returns_mapM fun entry _ => returns_renameUse h entry).bind
    intro out ho
    exact returns_pure fun hs => by rw [ho hs]
  | typeAnnotations entries =>
    have hstep : ∀ entry ∈ entries, Returns inv same
        (do return { entry with use := ← renameUse ctx entry.use }) entry := by
      intro entry _
      apply (returns_renameUse h entry.use).bind
      intro use hu
      exact returns_pure fun hs => by rw [hu hs]
    apply (returns_mapM hstep).bind
    intro out ho
    exact returns_pure fun hs => by rw [ho hs]
  | annotationDefault value =>
    apply (returns_renameValue h value).bind
    intro out ho
    exact returns_pure fun hs => by rw [ho hs]

/-- A body that is given back is written as it was read. -/
theorem returns_renameNested (h : Steady ctx.remapper inv same) (hn : same → ctx.oldNames = ∅)
    (fuel : Nat) (entry : Attribute) : Returns inv same (renameNested ctx fuel entry) entry := by
  induction fuel generalizing entry with
  | zero => exact returns_pure fun _ => rfl
  | succ fuel ih =>
    apply returns_look_bind
    intro name
    cases hk : AttributeKind.ofName? name with
    | none => exact returns_pure fun _ => rfl
    | some kind =>
      apply returns_lift_bind
      intro body hd
      apply (returns_renameBody h hn body fun a _ => ih a).bind
      intro body' hb
      have hinfo := (AttributeBody.decode_ok_iff.1 hd).2.2
      exact returns_pure fun hs => by rw [hb hs, ← hinfo]

theorem returns_renameMemberDeclaration (h : Steady ctx.remapper inv same)
    (hn : same → ctx.oldNames = ∅) (kind : MemberKind) (member : Member) :
    Returns inv same (renameMemberDeclaration ctx kind member) member := by
  apply returns_look_bind
  intro nameText
  apply returns_look_bind
  intro descriptorText
  apply returns_lift_bind
  intro newName hname
  apply (returns_replaceText h member.name fun hs => h.memberName hs kind _ _ _ _ hname).bind
  intro name hi
  apply (returns_renameText h (descriptorKind kind) member.descriptor).bind
  intro descriptor hd
  apply (returns_mapM fun entry _ => returns_renameNested h hn _ entry).bind
  intro attributes ha
  exact returns_pure fun hs => by rw [hi hs, hd hs, ha hs]

/-- The parts of a class, once its constants have been renamed. -/
theorem returns_members (h : Steady ctx.remapper inv same) (hn : same → ctx.oldNames = ∅)
    (fields methods : List Member) (attributes : List Attribute) :
    Returns inv same (do
      let fields ← fields.mapM (renameMemberDeclaration ctx .field)
      let methods ← methods.mapM (renameMemberDeclaration ctx .method)
      return (fields, methods, ← attributes.mapM (renameAttribute ctx)))
      (fields, methods, attributes) := by
  apply (returns_mapM fun field _ => returns_renameMemberDeclaration h hn .field field).bind
  intro fields' hf
  apply (returns_mapM fun method _ => returns_renameMemberDeclaration h hn .method method).bind
  intro methods' hm
  apply (returns_mapM fun entry _ => returns_renameNested h hn _ entry).bind
  intro attributes' ha
  exact returns_pure fun hs => by rw [hf hs, hm hs, ha hs]

end JarRename.Renaming
