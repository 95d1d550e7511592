import Mathlib
import JarRename.Proofs.Renaming.Annotations

/-!
# Renamed attributes

`AttributeRenamed` says what becomes of an attribute: its body still has the same layout, every
place for a symbol in it leads to the mapped text, and all the rest is the same. Attributes inside
of other attributes are renamed in the same way.
-/
namespace JarRename.Renaming

open ConstantPool

section Relations

variable (r : Remapper) (className : String) (old new : ConstantPool)

def VariableRenamed (kind : TextKind) (before after : LocalVariable) : Prop :=
  after = { before with type := after.type } ∧
    TextRenamed r kind old new before.type after.type

/-- Only the simple name may change, and only for another one. -/
def InnerClassRenamed (before after : InnerClass) : Prop :=
  after = before ∨ ∃ i j text, before.simpleName = some i ∧ new.text j = .ok text ∧
    after = { before with simpleName := some j }

/-- What a component of a record of the class becomes. -/
inductive ComponentRenamed (nested : Attribute → Attribute → Prop) :
    RecordComponent → RecordComponent → Prop
  | mk {name name' descriptor descriptor' : PoolIndex} {attributes attributes' : List Attribute}
      (named : NameRenamed r .field className old new descriptor name name')
      (typed : TextRenamed r .fieldDescriptor old new descriptor descriptor')
      (inner : List.Forall₂ nested attributes attributes') :
      ComponentRenamed nested ⟨name, descriptor, attributes⟩ ⟨name', descriptor', attributes'⟩

/-- What a decoded body becomes, with `nested` for the attributes inside it. -/
inductive BodyRenamed (nested : Attribute → Attribute → Prop) : AttributeBody → AttributeBody → Prop
  | code {before after : Code} (frame : after = { before with attributes := after.attributes })
      (attributes : List.Forall₂ nested before.attributes after.attributes) :
      BodyRenamed nested (.code before) (.code after)
  | signature {i j : PoolIndex} (renamed : TextRenamed r .signature old new i j) :
      BodyRenamed nested (.signature i) (.signature j)
  | enclosingClass {owner : PoolIndex} :
      BodyRenamed nested (.enclosingMethod owner none) (.enclosingMethod owner none)
  | enclosingMethod {owner i j : PoolIndex} {name : String}
      (before : old.className owner = .ok name) (renamed : MemberRenamed r .method name old new i j) :
      BodyRenamed nested (.enclosingMethod owner (some i)) (.enclosingMethod owner (some j))
  | innerClasses {before after : List InnerClass}
      (renamed : List.Forall₂ (InnerClassRenamed new) before after) :
      BodyRenamed nested (.innerClasses before) (.innerClasses after)
  | localVariables {before after : List LocalVariable}
      (renamed : List.Forall₂ (VariableRenamed r old new .fieldDescriptor) before after) :
      BodyRenamed nested (.localVariables before) (.localVariables after)
  | localVariableTypes {before after : List LocalVariable}
      (renamed : List.Forall₂ (VariableRenamed r old new .signature) before after) :
      BodyRenamed nested (.localVariableTypes before) (.localVariableTypes after)
  | record {before after : List RecordComponent}
      (renamed : List.Forall₂ (ComponentRenamed r className old new nested) before after) :
      BodyRenamed nested (.record before) (.record after)
  | annotations {before after : List AnnotationUse}
      (renamed : List.Forall₂ (UseRenamed r old new) before after) :
      BodyRenamed nested (.annotations before) (.annotations after)
  | parameterAnnotations {before after : List (List AnnotationUse)}
      (renamed : List.Forall₂ (List.Forall₂ (UseRenamed r old new)) before after) :
      BodyRenamed nested (.parameterAnnotations before) (.parameterAnnotations after)
  | typeAnnotations {before after : List TypeAnnotationUse}
      (renamed : List.Forall₂ (fun a b => b = { a with use := b.use } ∧
        UseRenamed r old new a.use b.use) before after) :
      BodyRenamed nested (.typeAnnotations before) (.typeAnnotations after)
  | annotationDefault {before after : ElementValue}
      (renamed : ValueRenamed r old new before after) :
      BodyRenamed nested (.annotationDefault before) (.annotationDefault after)

/-- What an attribute becomes. An attribute of an unknown name stays as it is. -/
inductive AttributeRenamed : Attribute → Attribute → Prop
  | unknown {entry : Attribute} {name : String} (text : old.text entry.name = .ok name)
      (kind : AttributeKind.ofName? name = none) : AttributeRenamed entry entry
  | decoded {before after : Attribute} {name : String} {kind : AttributeKind}
      {body body' : AttributeBody} (text : old.text before.name = .ok name)
      (known : AttributeKind.ofName? name = some kind) (same : after.name = before.name)
      (size : after.info.length = before.info.length)
      (decodes : AttributeBody.decode kind name before.info = .ok body)
      (decodes' : AttributeBody.decode kind name after.info = .ok body')
      (renamed : BodyRenamed r className old new AttributeRenamed body body') :
      AttributeRenamed before after

end Relations

/-- The body of an attribute that can be decoded can be decoded afterwards. -/
theorem AttributeRenamed.exists_body {r : Remapper} {className : String} {old new : ConstantPool}
    {before after : Attribute} (h : AttributeRenamed r className old new before after)
    {name : String} {kind : AttributeKind} {body : AttributeBody}
    (text : old.text before.name = .ok name) (known : AttributeKind.ofName? name = some kind)
    (decodes : AttributeBody.decode kind name before.info = .ok body) :
    after.name = before.name ∧ ∃ body', AttributeBody.decode kind name after.info = .ok body' ∧
      BodyRenamed r className old new (AttributeRenamed r className old new) body body' := by
  cases h with
  | unknown text' unknown =>
    obtain rfl := Except.ok.inj (text.symm.trans text')
    rw [known] at unknown
    cases unknown
  | decoded text' known' same _ decodes' after renamed =>
    obtain rfl := Except.ok.inj (text.symm.trans text')
    obtain rfl := Option.some.inj (known.symm.trans known')
    obtain rfl := Except.ok.inj (decodes.symm.trans decodes')
    exact ⟨same, _, after, renamed⟩

variable {names : Std.HashMap PoolIndex String} {ctx : Context}
  {nested : Attribute → PoolM Attribute}
  {rel : ConstantPool → ConstantPool → Attribute → Attribute → Prop}

theorem yields_oldClassName (h : ctx.oldNames = names) (index : PoolIndex) :
    Yields names (ctx.oldClassName index) fun old _ name => old.className index = .ok name := by
  have he : ctx.oldClassName index = look (nameBefore names · index) := by
    funext pool
    subst h
    unfold Context.oldClassName nameBefore
    rcases hn : ctx.oldNames[index]? with _ | name
    · rfl
    · rfl
  rw [he]
  exact yields_look fun _ _ _ _ hb hn => hb.owner index _ hn

theorem yields_anyLook {α : Type} (read : ConstantPool → Except ClassError α) :
    Yields names (look read) fun _ _ _ => True := yields_look fun _ _ _ _ _ _ => trivial

theorem yields_anyLookOption {α : Type} (read : PoolIndex → ConstantPool → Except ClassError α)
    (index : Option PoolIndex) :
    Yields names (index.mapM fun i => look (read i)) fun _ _ _ => True := by
  cases index with
  | none => exact yields_pure fun _ _ => trivial
  | some i => exact (yields_anyLook (read i)).bind fun _ => yields_pure fun _ _ _ => trivial

theorem yields_renameInnerClass (entry : InnerClass) :
    Yields names (renameInnerClass ctx entry) fun _ new entry' =>
      InnerClassRenamed new entry entry' := by
  unfold renameInnerClass
  split
  · exact yields_pure fun _ _ => .inl rfl
  · rename_i i hi
    split
    · refine (yields_anyLook _).bind fun inner => ?_
      refine (yields_anyLookOption _ entry.outer).bind fun outer => ?_
      refine (yields_text i).bind fun text => ?_
      refine (yields_replaceText i text _).bind fun j => ?_
      exact yields_pure fun _ _ hj ht _ _ => .inr ⟨i, j, _, hi, hj ht.2, rfl⟩
    · exact yields_pure fun _ _ => .inl rfl

theorem yields_renameComponent (entry : RecordComponent)
    (h : ∀ a ∈ entry.attributes, Yields names (nested a) fun old new b => rel old new a b) :
    Yields names (renameComponent ctx nested entry) fun old new entry' =>
      ComponentRenamed ctx.remapper ctx.className old new (rel old new) entry entry' := by
  refine (yields_text entry.name).bind fun nameText => ?_
  refine (yields_text entry.descriptor).bind fun descriptorText => ?_
  refine (yields_fieldName ctx.className entry.name nameText descriptorText).bind fun name => ?_
  refine (yields_contextText .fieldDescriptor entry.descriptor).bind fun descriptor => ?_
  refine (yields_mapM entry.attributes h).bind fun attributes => ?_
  refine yields_pure fun old new ha hd hn ht hnt => ?_
  obtain ⟨mapped, hm, hname⟩ := hn hnt.2
  exact .mk ⟨nameText, descriptorText, mapped, hnt.1, ht.1, hm, hname⟩ hd ha

/-- The attributes inside a body. -/
def innerAttributes : AttributeBody → List Attribute
  | .code body => body.attributes
  | .record components => components.flatMap (·.attributes)
  | _ => []

theorem yields_renameBody (hc : ctx.oldNames = names) (body : AttributeBody)
    (h : ∀ a ∈ innerAttributes body, Yields names (nested a) fun old new b => rel old new a b) :
    Yields names (renameBody ctx nested body) fun old new body' =>
      BodyRenamed ctx.remapper ctx.className old new (rel old new) body body' := by
  cases body with
  | code body =>
    refine (yields_mapM body.attributes h).bind fun attributes => ?_
    exact yields_pure fun _ _ ha => .code rfl ha
  | signature i =>
    refine (yields_contextText .signature i).bind fun j => ?_
    exact yields_pure fun _ _ hj => .signature hj
  | enclosingMethod owner method =>
    cases method with
    | none => exact yields_pure fun _ _ => .enclosingClass
    | some i =>
      refine (yields_oldClassName hc owner).bind fun name => ?_
      refine (yields_renameMember ctx.remapper .method name i).bind fun j => ?_
      exact yields_pure fun _ _ hj hn => .enclosingMethod hn hj
  | innerClasses classes =>
    refine (yields_mapM classes fun entry _ => yields_renameInnerClass entry).bind fun out => ?_
    exact yields_pure fun _ _ ho => .innerClasses ho
  | localVariables entries =>
    have hstep : ∀ entry ∈ entries, Yields names
        (do return { entry with type := ← ctx.text .fieldDescriptor entry.type })
        fun old new entry' => VariableRenamed ctx.remapper old new .fieldDescriptor entry entry' :=
      fun entry _ => (yields_contextText .fieldDescriptor entry.type).bind fun i =>
        yields_pure fun _ _ hi => ⟨rfl, hi⟩
    refine (yields_mapM entries hstep).bind fun out => ?_
    exact yields_pure fun _ _ ho => .localVariables ho
  | localVariableTypes entries =>
    have hstep : ∀ entry ∈ entries, Yields names
        (do return { entry with type := ← ctx.text .signature entry.type })
        fun old new entry' => VariableRenamed ctx.remapper old new .signature entry entry' :=
      fun entry _ => (yields_contextText .signature entry.type).bind fun i =>
        yields_pure fun _ _ hi => ⟨rfl, hi⟩
    refine (yields_mapM entries hstep).bind fun out => ?_
    exact yields_pure fun _ _ ho => .localVariableTypes ho
  | record components =>
    have hstep : ∀ entry ∈ components, Yields names (renameComponent ctx nested entry)
        fun old new entry' =>
          ComponentRenamed ctx.remapper ctx.className old new (rel old new) entry entry' :=
      fun entry he => yields_renameComponent entry fun a ha =>
        h a (List.mem_flatMap.2 ⟨entry, he, ha⟩)
    refine (yields_mapM components hstep).bind fun out => ?_
    exact yields_pure fun _ _ ho => .record ho
  | annotations entries =>
    refine (yields_mapM entries fun entry _ => yields_renameUse entry).bind fun out => ?_
    exact yields_pure fun _ _ ho => .annotations ho
  | parameterAnnotations parameters =>
    refine (yields_mapM parameters fun entries _ =>
      yields_mapM entries fun entry _ => yields_renameUse entry).bind fun out => ?_
    exact yields_pure fun _ _ ho => .parameterAnnotations ho
  | typeAnnotations entries =>
    have hstep : ∀ entry ∈ entries, Yields names
        (do return { entry with use := ← renameUse ctx entry.use })
        fun old new entry' => entry' = { entry with use := entry'.use } ∧
          UseRenamed ctx.remapper old new entry.use entry'.use :=
      fun entry _ => (yields_renameUse entry.use).bind fun use =>
        yields_pure fun _ _ hu => ⟨rfl, hu⟩
    refine (yields_mapM entries hstep).bind fun out => ?_
    exact yields_pure fun _ _ ho => .typeAnnotations ho
  | annotationDefault value =>
    refine (yields_renameValue value).bind fun out => ?_
    exact yields_pure fun _ _ ho => .annotationDefault ho

section Sizes

variable {r : Remapper} {className : String} {old new : ConstantPool}

theorem ne_some_zero_of_text (hs : new.Sound) {j : PoolIndex} {text : String}
    (h : new.text j = .ok text) : some j ≠ some 0 := by
  intro hz
  exact hs.index_ne_zero (text_ok_iff.1 h) (Option.some.inj hz)

theorem InnerClassRenamed.refits (hs : new.Sound) {before after : InnerClass}
    (h : InnerClassRenamed new before after) :
    Refits InnerClass.write InnerClass.Fits before after := by
  intro hf
  rcases h with rfl | ⟨i, j, text, -, ht, rfl⟩
  · exact ⟨hf, rfl⟩
  · exact ⟨⟨hf.1, ne_some_zero_of_text hs ht⟩, by simp [InnerClass.write]⟩

theorem VariableRenamed.refits {kind : TextKind} {before after : LocalVariable}
    (h : VariableRenamed r old new kind before after) :
    Refits LocalVariable.write (fun _ => True) before after := by
  obtain ⟨he, -⟩ := h
  rw [he]
  exact fun _ => ⟨trivial, by simp [LocalVariable.write]⟩

variable {rel : Attribute → Attribute → Prop}

theorem ComponentRenamed.refits
    (hr : ∀ a b, rel a b → Refits Attribute.write Attribute.Fits a b)
    {before after : RecordComponent}
    (h : ComponentRenamed r className old new rel before after) :
    Refits RecordComponent.write RecordComponent.Fits before after := by
  obtain ⟨-, -, inner⟩ := h
  intro hf
  obtain ⟨hf', hl⟩ := refits_counted 2 0x10000 (inner.imp hr) hf
  exact ⟨hf', by simp [RecordComponent.write, hl]⟩

/-- A renamed body has the layout and the size of the body before. -/
theorem BodyRenamed.refits (hs : new.Sound)
    (hr : ∀ a b, rel a b → Refits Attribute.write Attribute.Fits a b) (n : Nat)
    {body body' : AttributeBody} (h : BodyRenamed r className old new rel body body') :
    body'.kind = body.kind ∧ Refits AttributeBody.write (AttributeBody.Fits n) body body' := by
  cases h with
  | @code before after frame attributes =>
    refine ⟨rfl, fun hf => ?_⟩
    obtain ⟨hb, hh, ha⟩ := hf
    obtain ⟨ha', hl⟩ := refits_counted 2 0x10000 (attributes.imp hr) ha
    rw [frame]
    exact ⟨⟨hb, hh, ha'⟩, by simp [AttributeBody.write, Code.write, hl]⟩
  | signature => exact ⟨rfl, fun hf => ⟨hf, by simp [AttributeBody.write]⟩⟩
  | enclosingClass => exact ⟨rfl, fun hf => ⟨hf, rfl⟩⟩
  | enclosingMethod _ renamed =>
    refine ⟨rfl, fun hf => ⟨?_, by simp [AttributeBody.write]⟩⟩
    obtain ⟨_, _, _, _, -, -, -, hd⟩ := renamed
    obtain ⟨_, _, hg, -, -⟩ := nameAndDescriptor_ok_iff.1 hd
    intro hz
    exact hs.index_ne_zero hg (Option.some.inj hz)
  | innerClasses renamed =>
    exact ⟨rfl, refits_counted 2 0x10000 (renamed.imp fun _ _ he => he.refits hs)⟩
  | localVariables renamed =>
    refine ⟨rfl, fun hf => ?_⟩
    obtain ⟨hf', hl⟩ := refits_counted 2 0x10000 (renamed.imp fun _ _ he => he.refits)
      ⟨hf, fun _ _ => trivial⟩
    exact ⟨hf'.1, hl⟩
  | localVariableTypes renamed =>
    refine ⟨rfl, fun hf => ?_⟩
    obtain ⟨hf', hl⟩ := refits_counted 2 0x10000 (renamed.imp fun _ _ he => he.refits)
      ⟨hf, fun _ _ => trivial⟩
    exact ⟨hf'.1, hl⟩
  | record renamed =>
    exact ⟨rfl, refits_counted 2 0x10000 (renamed.imp fun _ _ he => he.refits hr)⟩
  | annotations renamed =>
    exact ⟨rfl, refits_counted 2 0x10000 (renamed.imp fun _ _ he => he.refits n)⟩
  | parameterAnnotations renamed =>
    refine ⟨rfl, refits_counted 1 0x100 (renamed.imp fun _ _ hall => ?_)⟩
    exact refits_counted 2 0x10000 (hall.imp fun _ _ he => he.refits n)
  | typeAnnotations renamed =>
    refine ⟨rfl, refits_counted 2 0x10000 (renamed.imp fun a b he hf => ?_)⟩
    obtain ⟨hu, hl⟩ := he.2.refits n hf.2.2
    rw [he.1]
    exact ⟨⟨hf.1, hf.2.1, hu⟩, by simp [TypeAnnotationUse.write, hl]⟩
  | annotationDefault renamed => exact ⟨rfl, renamed.refits n⟩

theorem AttributeRenamed.refits (a b : Attribute)
    (h : AttributeRenamed r className old new a b) :
    Refits Attribute.write Attribute.Fits a b := by
  have hl : b.info.length = a.info.length := by
    cases h with
    | unknown => rfl
    | decoded _ _ _ size _ _ _ => exact size
  intro hf
  exact ⟨lt_of_eq_of_lt hl hf, by simp [Attribute.write, Bytes.length_word, hl]⟩

/-- What is written for a renamed body can be read again, and takes the room of the body before. -/
theorem BodyRenamed.decodes (hs : new.Sound) {kind : AttributeKind} {name : String} {info : Bytes}
    {body body' : AttributeBody} (hd : AttributeBody.decode kind name info = .ok body)
    (h : BodyRenamed r className old new (AttributeRenamed r className old new) body body') :
    AttributeBody.decode kind name body'.write = .ok body' ∧ body'.write.length = info.length := by
  obtain ⟨hkind, ⟨n, hfits⟩, rfl⟩ := AttributeBody.decode_ok_iff.1 hd
  obtain ⟨hk, hr⟩ := h.refits hs AttributeRenamed.refits n
  obtain ⟨hfits', hl⟩ := hr hfits
  exact ⟨AttributeBody.decode_ok_iff.2 ⟨hk.trans hkind, ⟨n, hfits'⟩, rfl⟩, hl⟩

end Sizes

/-- An attribute inside a body is shorter than the body. -/
theorem length_lt_of_inner {body : AttributeBody} {a : Attribute} (h : a ∈ innerAttributes body) :
    a.info.length < body.write.length := by
  cases body with
  | code body =>
    have ha : a ∈ body.attributes := h
    have hl := Bytes.length_le_counted 2 Attribute.write ha
    simp only [AttributeBody.write, Code.write, List.length_append, Attribute.write,
      Bytes.length_u2] at hl ⊢
    omega
  | record components =>
    obtain ⟨entry, he, ha⟩ := List.mem_flatMap.1 h
    have hc := Bytes.length_le_counted 2 RecordComponent.write he
    have hl := Bytes.length_le_counted 2 Attribute.write ha
    simp only [AttributeBody.write, RecordComponent.write, List.length_append, Attribute.write,
      Bytes.length_u2] at hc hl ⊢
    omega
  | _ => simp [innerAttributes] at h

theorem length_lt_of_decode {kind : AttributeKind} {name : String} {info : Bytes}
    {body : AttributeBody} (hd : AttributeBody.decode kind name info = .ok body) {a : Attribute}
    (h : a ∈ innerAttributes body) : a.info.length < info.length := by
  obtain ⟨-, -, rfl⟩ := AttributeBody.decode_ok_iff.1 hd
  exact length_lt_of_inner h

theorem yields_renameNested (hc : ctx.oldNames = names) {fuel : Nat} {entry : Attribute}
    (hf : entry.info.length < fuel) :
    Yields names (renameNested ctx fuel entry) fun old new entry' =>
      AttributeRenamed ctx.remapper ctx.className old new entry entry' := by
  induction fuel generalizing entry with
  | zero => omega
  | succ fuel ih =>
    refine (yields_text entry.name).bind fun name => ?_
    rcases hk : AttributeKind.ofName? name with _ | kind
    · exact yields_pure fun _ _ ht => .unknown ht.1 hk
    · refine yields_lift_bind fun body hd => ?_
      have hinner : ∀ a ∈ innerAttributes body, Yields names (renameNested ctx fuel a)
          fun old new b => AttributeRenamed ctx.remapper ctx.className old new a b := by
        intro a ha
        have hl := length_lt_of_decode hd ha
        exact ih (by omega)
      refine (yields_renameBody hc body hinner).bind fun body' => ?_
      refine (yields_pure fun _ _ => rfl : Yields names (pure (Attribute.mk entry.name body'.write))
        fun _ _ y => y = ⟨entry.name, body'.write⟩).mono ?_
      rintro old new _ hs rfl hb ht
      obtain ⟨hd', hl⟩ := hb.decodes hs hd
      exact .decoded ht.1 hk rfl hl hd hd' hb

theorem yields_renameAttribute (hc : ctx.oldNames = names) (entry : Attribute) :
    Yields names (renameAttribute ctx entry) fun old new entry' =>
      AttributeRenamed ctx.remapper ctx.className old new entry entry' :=
  yields_renameNested hc (Nat.lt_succ_self _)

end JarRename.Renaming
