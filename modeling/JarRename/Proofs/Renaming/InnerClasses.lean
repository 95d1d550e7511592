import Mathlib
import JarRename.Proofs.Mapping.NestedClasses
import JarRename.Proofs.PoolLookups
import JarRename.Proofs.Renaming.Class
import JarRename.Proofs.Renaming.Members
import JarRename.Proofs.Signature.Phrase

/-!
# Tables of inner classes

The entries of a table keep their places, and of an entry only the simple name may change. Where
the class is renamed, the new one is read off the new names of the class and of the one around it,
so that the name of the class can still be put together from the two.

Both names are read while the pool grows, after all class constants have been replaced, and they
stay what they are. `Settles` is what `Yields` says of steps in this phase.
-/
namespace JarRename.Renaming

open ConstantPool Stateful

section Settles

variable {α β : Type} {new : ConstantPool}

/-- A step that succeeds only adds to the pool, and what it gives has the property if the pool is
part of `new`. -/
def Settles (new : ConstantPool) (action : PoolM α) (post : α → Prop) : Prop :=
  ∀ pool x after, pool.Sound → action pool = (.ok x, after) →
    after.Sound ∧ pool.Grows after ∧ (after.Grows new → post x)

variable {action : PoolM α} {post : α → Prop}

theorem Yields.settles {names : Std.HashMap PoolIndex String} {old : ConstantPool}
    {post : ConstantPool → ConstantPool → α → Prop} (h : Yields names action post)
    (hb : Between names new old new) : Settles new action (post old new) := by
  intro pool x after hs ha
  obtain ⟨has, hg, hp⟩ := h pool x after hs ha
  exact ⟨has, hg, fun hn => hp old new (hb.of_grows hn has.laid)⟩

theorem Settles.mono {post' : α → Prop} (h : Settles new action post)
    (hp : ∀ x, post x → post' x) : Settles new action post' := by
  intro pool x after hs ha
  obtain ⟨has, hg, hx⟩ := h pool x after hs ha
  exact ⟨has, hg, fun hn => hp x (hx hn)⟩

theorem Settles.and {post' : α → Prop} (h : Settles new action post)
    (h' : Settles new action post') : Settles new action fun x => post x ∧ post' x := by
  intro pool x after hs ha
  obtain ⟨has, hg, hx⟩ := h pool x after hs ha
  obtain ⟨-, -, hx'⟩ := h' pool x after hs ha
  exact ⟨has, hg, fun hn => ⟨hx hn, hx' hn⟩⟩

theorem settles_pure {x : α} (h : post x) : Settles new (pure x) post := by
  intro pool y after hs ha
  cases ha
  exact ⟨hs, .refl pool, fun _ => h⟩

theorem Settles.bind {next : α → PoolM β} {post' : β → Prop} (ha : Settles new action post)
    (hn : ∀ x, Settles new (next x) fun y => post x → post' y) :
    Settles new (action >>= next) post' := by
  intro pool y after hs h
  obtain ⟨x, mid, hx, hy⟩ := bind_ok_iff.1 h
  obtain ⟨hm, hg, hp⟩ := ha pool x mid hs hx
  obtain ⟨has, hg', hp'⟩ := hn x mid y after hm hy
  exact ⟨has, hg.trans hg', fun hl => hp' hl (hp (hg'.trans hl))⟩

theorem settles_lift_bind {result : Except ClassError α} {next : α → PoolM β} {post : β → Prop}
    (h : ∀ x, result = .ok x → Settles new (next x) post) :
    Settles new ((liftM result : PoolM α) >>= next) post := by
  intro pool y after hs ha
  obtain ⟨x, mid, hx, hy⟩ := bind_ok_iff.1 ha
  have hr : result = .ok x := congrArg Prod.fst hx
  obtain rfl : pool = mid := congrArg Prod.snd hx
  exact h x hr pool y after hs hy

theorem settles_mapM {step : α → PoolM β} {rel : α → β → Prop} (items : List α)
    (h : ∀ x ∈ items, Settles new (step x) (rel x)) :
    Settles new (items.mapM step) fun ys => List.Forall₂ rel items ys := by
  induction items with
  | nil => exact settles_pure .nil
  | cons x items ih =>
    rw [List.mapM_cons]
    refine (h x (by simp)).bind fun y => ?_
    refine (ih fun z hz => h z (by simp [hz])).bind fun ys => ?_
    exact settles_pure fun hys hy => .cons hy hys

/-- The name of a class does not change any more. -/
theorem settles_className (index : PoolIndex) :
    Settles new (look (·.className index)) fun name => new.className index = .ok name := by
  intro pool name after hs ha
  have hr : pool.className index = .ok name := congrArg Prod.fst ha
  obtain rfl : pool = after := congrArg Prod.snd ha
  exact ⟨hs, .refl pool, fun hn => hn.className hs.laid hr⟩

theorem settles_outerName (outer : Option PoolIndex) :
    Settles new (outer.mapM fun index => look (·.className index)) fun name? =>
      Option.Rel (fun index name => new.className index = .ok name) outer name? := by
  cases outer with
  | none => exact settles_pure .none
  | some index => exact (settles_className index).bind fun name => settles_pure fun hn => .some hn

end Settles

/-- What the simple name of an entry is read off: the old and the new name of its class, and the
new name of the class around it if that is recorded. -/
structure InnerNames (old new : ConstantPool) (entry : InnerClass) (name mapped : String)
    (outer : Option String) : Prop where
  before : old.className entry.inner = .ok name
  after : new.className entry.inner = .ok mapped
  outer : Option.Rel (fun index name => new.className index = .ok name) entry.outer outer

/-- What becomes of an entry. Its class is renamed if `old` and `new` have different names for
it. -/
inductive InnerClassNamed (old new : ConstantPool) : InnerClass → InnerClass → Prop
  | anonymous {entry : InnerClass} (none : entry.simpleName = none) :
      InnerClassNamed old new entry entry
  | kept {entry : InnerClass} (same : ∀ mapped, new.className entry.inner = .ok mapped →
      old.className entry.inner = .ok mapped) : InnerClassNamed old new entry entry
  | named {entry : InnerClass} {i j : PoolIndex} {name mapped : String} {outer : Option String}
      (simple : entry.simpleName = some i) (names : InnerNames old new entry name mapped outer)
      (renamed : mapped ≠ name) (text : new.text j = .ok (simpleName mapped outer)) :
      InnerClassNamed old new entry { entry with simpleName := some j }

/-- Tables of inner classes, in an attribute or in those inside of it, whose entries are related one
by one. All else may change, but not where the tables are. -/
inductive TablesRelated (old : ConstantPool) (rel : InnerClass → InnerClass → Prop) :
    Attribute → Attribute → Prop
  | unknown {entry : Attribute} {name : String} (text : old.text entry.name = .ok name)
      (kind : AttributeKind.ofName? name = none) : TablesRelated old rel entry entry
  | table {before after : Attribute} {name : String} {entries entries' : List InnerClass}
      (text : old.text before.name = .ok name)
      (known : AttributeKind.ofName? name = some .innerClasses) (same : after.name = before.name)
      (decodes : AttributeBody.decode .innerClasses name before.info = .ok (.innerClasses entries))
      (decodes' : AttributeBody.decode .innerClasses name after.info = .ok (.innerClasses entries'))
      (related : List.Forall₂ rel entries entries') : TablesRelated old rel before after
  | nested {before after : Attribute} {name : String} {kind : AttributeKind}
      {body body' : AttributeBody} (text : old.text before.name = .ok name)
      (known : AttributeKind.ofName? name = some kind) (other : kind ≠ .innerClasses)
      (same : after.name = before.name)
      (decodes : AttributeBody.decode kind name before.info = .ok body)
      (decodes' : AttributeBody.decode kind name after.info = .ok body')
      (inside : List.Forall₂ (TablesRelated old rel) (innerAttributes body)
        (innerAttributes body')) : TablesRelated old rel before after

section Steps

variable {names : Std.HashMap PoolIndex String} {ctx : Context} {old new : ConstantPool}
  (hc : ctx.oldNames = names) (hb : Between names new old new)
include hc hb

theorem settles_renameInnerClass (renamed : ∀ index name, names[index]? = some name →
      ∃ mapped, new.className index = .ok mapped ∧ mapped ≠ name) (entry : InnerClass) :
    Settles new (renameInnerClass ctx entry) (InnerClassNamed old new entry) := by
  subst hc
  unfold renameInnerClass
  split
  · rename_i hnone
    exact settles_pure (.anonymous hnone)
  · rename_i i hi
    split
    · rename_i hlisted
      obtain ⟨name, hname⟩ : ∃ name, ctx.oldNames[entry.inner]? = some name :=
        Option.isSome_iff_exists.1 (by simpa using hlisted)
      have hold : old.className entry.inner = .ok name :=
        hb.owner entry.inner name (by simp [nameBefore, hname])
      obtain ⟨found, hfound, hne⟩ := renamed entry.inner name hname
      refine (settles_className entry.inner).bind fun mapped => ?_
      refine (settles_outerName entry.outer).bind fun outer => ?_
      refine ((yields_text i).settles hb).bind fun text => ?_
      refine ((yields_replaceText i text _).settles hb).bind fun j => ?_
      refine settles_pure fun hj ht ho hm => ?_
      rw [hm] at hfound
      cases hfound
      exact .named hi ⟨hold, hm, ho⟩ hne (hj ht.2)
    · rename_i hlisted
      have hnone : ctx.oldNames[entry.inner]? = none := by simpa using hlisted
      refine settles_pure (.kept fun mapped hm => ?_)
      exact hb.owner entry.inner mapped (by simpa [nameBefore, hnone] using hm)

section Bodies

variable {nested : Attribute → PoolM Attribute}

omit hc in
theorem settles_renameComponent {rel : Attribute → Attribute → Prop} (entry : RecordComponent)
    (h : ∀ a ∈ entry.attributes, Settles new (nested a) (rel a)) :
    Settles new (renameComponent ctx nested entry) fun entry' =>
      List.Forall₂ rel entry.attributes entry'.attributes := by
  refine ((yields_text entry.name).settles hb).bind fun nameText => ?_
  refine ((yields_text entry.descriptor).settles hb).bind fun descriptorText => ?_
  refine ((yields_fieldName ctx.className entry.name nameText descriptorText).settles hb).bind
    fun name => ?_
  refine ((yields_contextText .fieldDescriptor entry.descriptor).settles hb).bind
    fun descriptor => ?_
  refine (settles_mapM entry.attributes h).bind fun attributes => ?_
  exact settles_pure fun ha _ _ _ _ => ha

/-- A body with no attributes inside of it stays one of its kind. -/
theorem settles_plainBody {body : AttributeBody} (hnil : innerAttributes body = []) :
    Settles new (renameBody ctx nested body)
      (BodyRenamed ctx.remapper ctx.className old new (fun _ _ => False) body) := by
  have hinside : ∀ a ∈ innerAttributes body, Yields names (nested a) fun _ _ _ => False :=
    fun a ha => by simp [hnil] at ha
  exact (yields_renameBody hc body hinside).settles hb

/-- The attributes inside a body are renamed one by one. -/
theorem settles_innerAttributes {rel : Attribute → Attribute → Prop} {body : AttributeBody}
    (h : ∀ a ∈ innerAttributes body, Settles new (nested a) (rel a)) :
    Settles new (renameBody ctx nested body) fun body' =>
      List.Forall₂ rel (innerAttributes body) (innerAttributes body') := by
  cases body with
  | code body =>
    exact (settles_mapM body.attributes h).bind fun attributes => settles_pure fun ha => ha
  | record components =>
    have hstep : ∀ entry ∈ components, Settles new (renameComponent ctx nested entry)
        fun entry' => List.Forall₂ rel entry.attributes entry'.attributes :=
      fun entry he => settles_renameComponent hb entry fun a ha =>
        h a (List.mem_flatMap.2 ⟨entry, he, ha⟩)
    refine (settles_mapM components hstep).bind fun out => settles_pure fun ho => ?_
    exact List.rel_flatMap ho fun _ _ ha => ha
  | _ =>
    refine (settles_plainBody hc hb rfl).mono fun body' hb => ?_
    cases hb <;> exact .nil

end Bodies

omit hc hb in
theorem eq_innerClasses_of_decode {name : String} {info : Bytes} {body : AttributeBody}
    (hd : AttributeBody.decode .innerClasses name info = .ok body) :
    ∃ entries, body = .innerClasses entries := by
  obtain ⟨hkind, -⟩ := AttributeBody.decode_ok_iff.1 hd
  cases body with
  | innerClasses entries => exact ⟨entries, rfl⟩
  | _ => cases hkind

variable {rel : InnerClass → InnerClass → Prop}
  (hstep : ∀ entry, Settles new (renameInnerClass ctx entry) (rel entry))
include hstep

omit hc hb in
theorem settles_innerClasses {nested : Attribute → PoolM Attribute} {entries : List InnerClass} :
    Settles new (renameBody ctx nested (.innerClasses entries)) fun body' =>
      ∃ entries', body' = .innerClasses entries' ∧ List.Forall₂ rel entries entries' := by
  refine (settles_mapM entries fun entry _ => hstep entry).bind fun entries' => ?_
  exact settles_pure fun hr => ⟨entries', rfl, hr⟩

/-- Every table is renamed entry by entry, wherever it stands. -/
theorem settles_renameNested {fuel : Nat} {entry : Attribute} (hf : entry.info.length < fuel) :
    Settles new (renameNested ctx fuel entry) (TablesRelated old rel entry) := by
  induction fuel generalizing entry with
  | zero => omega
  | succ fuel ih =>
    refine ((yields_text entry.name).settles hb).bind fun name => ?_
    rcases hk : AttributeKind.ofName? name with _ | kind
    · exact settles_pure fun ht => .unknown ht.1 hk
    refine settles_lift_bind fun body hd => ?_
    have hshort : ∀ a ∈ innerAttributes body, a.info.length < fuel := by
      intro a ha
      have hl := length_lt_of_decode hd ha
      omega
    have hdecodes : Settles new (renameBody ctx (renameNested ctx fuel) body) fun body' =>
        AttributeBody.decode kind name body'.write = .ok body' := by
      have hbody := yields_renameBody hc body fun a ha => yields_renameNested hc (hshort a ha)
      exact (hbody.mono fun old new body' hs hr => (hr.decodes hs hd).1).settles hb
    by_cases htable : kind = .innerClasses
    · subst htable
      obtain ⟨entries, rfl⟩ := eq_innerClasses_of_decode hd
      refine (hdecodes.and (settles_innerClasses hstep)).bind fun body' => settles_pure ?_
      rintro ⟨hd', entries', rfl, hr⟩ ht
      exact .table ht.1 hk rfl hd hd' hr
    · have hinside := settles_innerAttributes hc hb fun a ha => ih (hshort a ha)
      refine (hdecodes.and hinside).bind fun body' => settles_pure fun hr ht => ?_
      exact .nested ht.1 hk htable rfl hd hr.1 hr.2

theorem settles_attributes (attributes : List Attribute) :
    Settles new (attributes.mapM (renameAttribute ctx)) fun attributes' =>
      List.Forall₂ (TablesRelated old rel) attributes attributes' :=
  settles_mapM attributes fun _ _ => settles_renameNested hc hb hstep (Nat.lt_succ_self _)

theorem settles_renameMemberDeclaration (kind : MemberKind) (member : Member) :
    Settles new (renameMemberDeclaration ctx kind member) fun member' =>
      List.Forall₂ (TablesRelated old rel) member.attributes member'.attributes := by
  refine ((yields_text member.name).settles hb).bind fun nameText => ?_
  refine ((yields_text member.descriptor).settles hb).bind fun descriptorText => ?_
  refine settles_lift_bind fun newName _ => ?_
  refine ((yields_replaceText member.name nameText newName).settles hb).bind fun name => ?_
  refine ((yields_contextText (descriptorKind kind) member.descriptor).settles hb).bind
    fun descriptor => ?_
  refine (settles_attributes hc hb hstep member.attributes).bind fun attributes => ?_
  exact settles_pure fun ha _ _ _ _ => ha

theorem settles_members (fields methods : List Member) (attributes : List Attribute) :
    Settles new (do
      let fields ← fields.mapM (renameMemberDeclaration ctx .field)
      let methods ← methods.mapM (renameMemberDeclaration ctx .method)
      return (fields, methods, ← attributes.mapM (renameAttribute ctx))) fun parts =>
        List.Forall₂ (fun member member' => List.Forall₂ (TablesRelated old rel) member.attributes
          member'.attributes) fields parts.1 ∧
        List.Forall₂ (fun member member' => List.Forall₂ (TablesRelated old rel) member.attributes
          member'.attributes) methods parts.2.1 ∧
        List.Forall₂ (TablesRelated old rel) attributes parts.2.2 := by
  refine (settles_mapM fields fun field _ =>
    settles_renameMemberDeclaration hc hb hstep .field field).bind fun fields' => ?_
  refine (settles_mapM methods fun method _ =>
    settles_renameMemberDeclaration hc hb hstep .method method).bind fun methods' => ?_
  refine (settles_attributes hc hb hstep attributes).bind fun attributes' => ?_
  exact settles_pure fun ha hm hf => ⟨hf, hm, ha⟩

end Steps

/-- All tables of a class, those of its members included, entry by entry. -/
structure ClassTablesRelated (old : ConstantPool) (rel : InnerClass → InnerClass → Prop)
    (before after : ClassFile) : Prop where
  fields : List.Forall₂ (fun field field' =>
    List.Forall₂ (TablesRelated old rel) field.attributes field'.attributes) before.fields
      after.fields
  methods : List.Forall₂ (fun method method' =>
    List.Forall₂ (TablesRelated old rel) method.attributes method'.attributes) before.methods
      after.methods
  attributes : List.Forall₂ (TablesRelated old rel) before.attributes after.attributes

/-- `old` holds what the class holds before, and the names of classes in it are mapped. -/
structure OldPool (r : Remapper) (before after : ClassFile) (old : ConstantPool) : Prop where
  grows : before.pool.Grows old
  text : ∀ index text, before.pool.text index = .ok text →
    old.text index = .ok text ∧ after.pool.text index = .ok text
  className : ∀ index name, before.pool.className index = .ok name →
    old.className index = .ok name
  mapped : ∀ index name, old.className index = .ok name →
    ∃ mapped, r.mapClassConstant name = .ok mapped ∧ after.pool.className index = .ok mapped

section Tables

variable {r : Remapper} {file renamed : ClassFile} {name : String}

/-- What holds of every entry that is renamed holds in all tables of a class. -/
theorem tables_related {rel : ConstantPool → ConstantPool → InnerClass → InnerClass → Prop}
    (hrel : ∀ old before after, OldPool r file renamed old →
      InnerClassNamed old renamed.pool before after → rel old renamed.pool before after)
    (hs : file.pool.Sound) (h : r.renameClass file = .ok (name, renamed)) :
    ∃ old, OldPool r file renamed old ∧
      ClassTablesRelated old (rel old renamed.pool) file renamed := by
  obtain ⟨className, names, mid, old, hconst, hms, hrest, hbetween, hr⟩ := renameClass_run hs h
  have hold : OldPool r file renamed old :=
    ⟨hr.grows, fun _ _ ht => hr.text hs ht, fun _ _ hn => hr.grows.className hs.laid hn,
      fun _ _ hn => hr.className_old hs hn⟩
  have hrenamed : ∀ index name, names[index]? = some name →
      ∃ mapped, renamed.pool.className index = .ok mapped ∧ mapped ≠ name := by
    intro index name hname
    have hbefore : old.className index = .ok name :=
      hbetween.owner index name (by simp [nameBefore, hname])
    obtain ⟨mapped, hmap, hafter⟩ := hold.mapped index name hbefore
    obtain ⟨mapped', hmap', hne⟩ := mapClassConstant_ne_of_oldNames hs hconst hname
    rw [hmap] at hmap'
    cases hmap'
    exact ⟨mapped, hafter, hne⟩
  have hstep : ∀ entry, Settles renamed.pool (renameInnerClass ⟨r, className, names⟩ entry)
      (rel old renamed.pool entry) := fun entry =>
    (settles_renameInnerClass rfl hbetween hrenamed entry).mono fun entry' he =>
      hrel old entry entry' hold he
  obtain ⟨-, -, hparts⟩ := settles_members rfl hbetween hstep _ _ _ mid _ renamed.pool hms hrest
  obtain ⟨hfields, hmethods, hattributes⟩ := hparts (.refl renamed.pool)
  exact ⟨old, hold, hfields, hmethods, hattributes⟩

/-- The simple name of the entry is `text` now, and `outer` is the new name of the class around, if
one is recorded. -/
structure Written (new : ConstantPool) (before after : InnerClass) (outer : Option String)
    (text : String) : Prop where
  outer : Option.Rel (fun index name => new.className index = .ok name) before.outer outer
  simple : ∃ j, after.simpleName = some j ∧ new.text j = .ok text

/-- The name that an entry gets is read off the new names of its classes. -/
theorem InnerClassNamed.written {old new : ConstantPool} {before after : InnerClass}
    {i : PoolIndex} {inner mapped : String} (h : InnerClassNamed old new before after)
    (hi : before.simpleName = some i) (hold : old.className before.inner = .ok inner)
    (hnew : new.className before.inner = .ok mapped) (hne : mapped ≠ inner) :
    ∃ outer, Written new before after outer (simpleName mapped outer) := by
  cases h with
  | anonymous hnone =>
    rw [hi] at hnone
    cases hnone
  | kept same =>
    rw [same mapped hnew, Except.ok.injEq] at hold
    exact absurd hold hne
  | @named _ j _ _ outer _ names _ text =>
    have hsame := names.after
    rw [hnew, Except.ok.injEq] at hsame
    subst hsame
    exact ⟨outer, names.outer, j, rfl, text⟩

/-- Two entries that say the same of a class, but for its simple name, which is consistent with the
new names. The class counts as renamed if its two names differ. -/
structure Consistent (old new : ConstantPool) (before after : InnerClass) : Prop where
  frame : after = { before with simpleName := after.simpleName }
  anonymous : before.simpleName = none → after.simpleName = none
  kept : (∀ mapped, new.className before.inner = .ok mapped →
    old.className before.inner = .ok mapped) → after.simpleName = before.simpleName
  spelled : ∀ i outerIndex name mapped outer simple, before.simpleName = some i →
    before.outer = some outerIndex → old.className before.inner = .ok name →
      new.className before.inner = .ok mapped → mapped ≠ name →
        new.className outerIndex = .ok outer → mapped = outer ++ "$" ++ simple → simple ≠ "" →
          ∃ j, after.simpleName = some j ∧ new.text j = .ok simple

theorem InnerClassNamed.consistent {old new : ConstantPool} {before after : InnerClass}
    (h : InnerClassNamed old new before after) : Consistent old new before after := by
  constructor
  · cases h <;> rfl
  · intro hnone
    cases h with
    | anonymous => exact hnone
    | kept => exact hnone
    | named simple =>
      rw [hnone] at simple
      cases simple
  · intro hsame
    cases h with
    | anonymous => rfl
    | kept => rfl
    | named _ names renamed =>
      have hold := hsame _ names.after
      rw [names.before, Except.ok.injEq] at hold
      exact absurd hold.symm renamed
  · intro i outerIndex inner mapped outer simple hi ho hold hnew hne houter hspelled hfull
    obtain ⟨around, hread, j, hj, hwritten⟩ := h.written hi hold hnew hne
    have haround : around = some outer := by
      rw [ho] at hread
      cases hread with
      | some hfound =>
        rw [houter, Except.ok.injEq] at hfound
        rw [hfound]
    have hne : simple.toList ≠ [] := by simpa using hfull
    have hbelow := simpleName_below outer hne
    rw [String.ofList_toList, ← hspelled] at hbelow
    rw [haround, hbelow] at hwritten
    exact ⟨j, hj, hwritten⟩

end Tables

section Sample

/-- A class constant with its name, a table with the name of its attribute, a simple name, and
another class. -/
def nestedConstants (inner simple : String) : List Constant :=
  [.utf8 inner, .classRef 1, .utf8 "InnerClasses", .utf8 simple, .utf8 "o", .classRef 5]

@[irreducible] def nestedPool (inner simple : String) : ConstantPool :=
  (nestedConstants inner simple).foldl (fun pool constant => (push constant pool).2) .empty

/-- A class with a table that has an entry for itself, in which `outer` may lead to the other
class. -/
def nestedClass (inner simple : String) (outer : Option PoolIndex) : ClassFile where
  version := .java8
  pool := nestedPool inner simple
  flags := 0x21
  thisClass := 2
  superClass := none
  interfaces := []
  fields := []
  methods := []
  attributes := [⟨3, (AttributeBody.innerClasses [⟨2, outer, some 4, 0⟩]).write⟩]

theorem reachable_foldl_push (constants : List Constant) {pool : ConstantPool}
    (h : pool.Reachable) :
    (constants.foldl (fun pool constant => (push constant pool).2) pool).Reachable := by
  induction constants generalizing pool with
  | nil => exact h
  | cons constant constants ih => exact ih (h.step (.push constant))

theorem reachable_nestedPool (inner simple : String) : (nestedPool inner simple).Reachable := by
  unfold nestedPool
  exact reachable_foldl_push _ .empty

/-- Constants that take one slot each are all added where there is room. -/
theorem slots_foldl_push {constants : List Constant}
    (one : ∀ constant ∈ constants, width constant = 1)
    (short : ∀ text, .utf8 text ∈ constants → Short text) {pool : ConstantPool}
    (room : pool.slots.next + constants.length ≤ maxSlots) :
    (constants.foldl (fun pool constant => (push constant pool).2) pool).slots =
      constants.foldl SlotVec.push pool.slots := by
  induction constants generalizing pool with
  | nil => rfl
  | cons constant constants ih =>
    have hwidth : width constant = 1 := one constant List.mem_cons_self
    rw [List.length_cons] at room
    have herror : pool.pushError? constant = none := by
      cases constant with
      | utf8 text => exact pushError?_of_short (short text List.mem_cons_self) (by omega)
      | _ => exact if_neg (by rw [hwidth]; omega)
    have hpush : (push constant pool).2.slots = pool.slots.push constant := by
      unfold push
      rw [herror]
    have hroom : (push constant pool).2.slots.next + constants.length ≤ maxSlots := by
      rw [hpush, SlotVec.next_push (room_of_pushError? herror), hwidth]
      omega
    rw [List.foldl_cons, ih (fun other ho => one other (List.mem_cons_of_mem _ ho))
      (fun text ht => short text (List.mem_cons_of_mem _ ht)) hroom, hpush]
    rfl

theorem slots_nestedPool {inner simple : String} (hi : Short inner) (hs : Short simple) :
    (nestedPool inner simple).slots.next = 7 ∧
      (nestedPool inner simple).slots.toList = [(1, .utf8 inner), (2, .classRef 1),
        (3, .utf8 "InnerClasses"), (4, .utf8 simple), (5, .utf8 "o"), (6, .classRef 5)] := by
  have hshort : Short "InnerClasses" ∧ Short "o" := by decide +kernel
  have hslots : (nestedPool inner simple).slots =
      (nestedConstants inner simple).foldl SlotVec.push (SlotVec.emptyAt 1) := by
    unfold nestedPool
    refine slots_foldl_push ?_ (fun text ht => ?_) ?_
    · simp [nestedConstants, width]
    · simp only [nestedConstants, List.mem_cons, Constant.utf8.injEq, reduceCtorEq, false_or,
        List.not_mem_nil, or_false] at ht
      obtain rfl | rfl | rfl | rfl := ht
      · exact hi
      · exact hshort.1
      · exact hs
      · exact hshort.2
    · show 1 + 6 ≤ maxSlots
      decide
  rw [hslots]
  exact ⟨rfl, rfl⟩

/-- The one class of `nestedClass` that has an entry gets another name. -/
structure Renames (r : Remapper) (inner mapped : String) : Prop where
  maps : r.mapClassConstant inner = .ok mapped
  changed : mapped ≠ inner
  short : Short mapped
  other : r.mapClassConstant "o" = .ok "o"

variable {r : Remapper} {inner mapped simple : String}

theorem decode_innerClasses {outer : Option PoolIndex} (ho : outer = none ∨ outer = some 6)
    {i : PoolIndex} (hi : i ≠ 0) :
    AttributeBody.decode .innerClasses "InnerClasses"
      (AttributeBody.innerClasses [⟨2, outer, some i, 0⟩]).write =
        .ok (.innerClasses [⟨2, outer, some i, 0⟩]) := by
  refine AttributeBody.decode_ok_iff.2 ⟨rfl, ⟨1, by simp, fun entry he => ?_⟩, rfl⟩
  obtain rfl := List.mem_singleton.1 he
  refine ⟨?_, by simpa using hi⟩
  obtain rfl | rfl := ho <;> simp

theorem lookups_nested (hi : Short inner) (hs : Short simple) :
    (nestedPool inner simple).className 2 = .ok inner ∧
      (nestedPool inner simple).text 3 = .ok "InnerClasses" ∧
      (nestedPool inner simple).text 4 = .ok simple ∧
      (nestedPool inner simple).className 6 = .ok "o" := by
  obtain ⟨-, hlist⟩ := slots_nestedPool hi hs
  have hsound := (reachable_nestedPool inner simple).sound
  simp only [className_ok_iff, text_ok_iff, hsound.get_ok_iff, hlist]
  exact ⟨⟨1, by simp, by simp⟩, by simp, by simp, ⟨5, by simp, by simp⟩⟩

theorem constants_nested (hr : Renames r inner mapped) (hi : Short inner) (hs : Short simple) :
    ∀ entry ∈ (nestedPool inner simple).toList,
      ConstantReady r (nestedPool inner simple) entry.2 := by
  obtain ⟨-, hlist⟩ := slots_nestedPool hi hs
  have hsound := (reachable_nestedPool inner simple).sound
  have hinner : ConstantReady r (nestedPool inner simple) (.classRef 1) :=
    ⟨inner, mapped, text_ok_iff.2 (hsound.get_ok_iff.2 (by simp [hlist])), hr.maps, .inr hr.short⟩
  have hother : ConstantReady r (nestedPool inner simple) (.classRef 5) :=
    ⟨"o", "o", text_ok_iff.2 (hsound.get_ok_iff.2 (by simp [hlist])), hr.other, .inl rfl⟩
  rw [toList, hlist]
  intro entry hm
  fin_cases hm <;> first | exact hinner | exact hother | exact True.intro

theorem renameClass_nested (hb : r.mappings.Brief) (hr : Renames r inner mapped) (hi : Short inner)
    (hs : Short simple) {outer : Option PoolIndex} (ho : outer = none ∨ outer = some 6) :
    ∃ renamed, r.renameClass (nestedClass inner simple outer) = .ok (mapped, renamed) := by
  obtain ⟨hnext, hlist⟩ := slots_nestedPool hi hs
  obtain ⟨hclass, hname, htext, hother⟩ := lookups_nested hi hs
  have hentry : InnerReady (nestedPool inner simple) ⟨2, outer, some 4, 0⟩ := by
    refine ⟨⟨inner, hclass, hi⟩, fun i houter => ?_, fun i hsimple => ?_⟩
    · obtain rfl | rfl := ho
      · cases houter
      · obtain rfl := Option.some.inj houter
        exact ⟨"o", hother⟩
    · obtain rfl := Option.some.inj hsimple
      exact ⟨simple, htext⟩
  have htable : AttributeReady r (nestedPool inner simple)
      ⟨3, (AttributeBody.innerClasses [⟨2, outer, some 4, 0⟩]).write⟩ _ :=
    .decoded hname rfl (decode_innerClasses ho (by decide))
      (.innerClasses (by simpa using hentry))
  have hlength : (nestedPool inner simple).toList.length = 6 := by
    rw [toList, hlist]
    rfl
  have hroom : (nestedPool inner simple).slots.next + 3 * (nestedPool inner simple).toList.length +
      1 ≤ maxSlots := by
    rw [hnext, hlength]
    decide
  have hready : ClassReady r (nestedClass inner simple outer) [] [] [1] :=
    ⟨⟨inner, hclass⟩, constants_nested hr hi hs, .nil, .nil, .cons htable .nil, hroom⟩
  exact renameClass_of_ready hb (reachable_nestedPool inner simple).sound hclass hr.maps hready

/-- What `nestedClass` holds is found again, with its new names. -/
theorem OldPool.nested {renamed : ClassFile} {old : ConstantPool} {outer : Option PoolIndex}
    (h : OldPool r (nestedClass inner simple outer) renamed old) (hr : Renames r inner mapped)
    (hi : Short inner) (hs : Short simple) :
    old.className 2 = .ok inner ∧ renamed.pool.className 2 = .ok mapped ∧
      old.text 3 = .ok "InnerClasses" ∧ old.text 4 = .ok simple ∧
        renamed.pool.className 6 = .ok "o" := by
  obtain ⟨hinner, htext, hsimple, hother⟩ := lookups_nested hi hs
  have hbefore := h.className 2 inner hinner
  obtain ⟨new, hmap, hnew⟩ := h.mapped 2 inner hbefore
  obtain ⟨new', hmap', hnew'⟩ := h.mapped 6 "o" (h.className 6 "o" hother)
  rw [hr.maps, Except.ok.injEq] at hmap
  rw [hr.other, Except.ok.injEq] at hmap'
  subst hmap hmap'
  exact ⟨hbefore, hnew, (h.text 3 _ htext).1, (h.text 4 _ hsimple).1, hnew'⟩

/-- The table of `nestedClass` is found again, with one entry. -/
theorem entry_nested {rel : InnerClass → InnerClass → Prop} {old : ConstantPool}
    {outer : Option PoolIndex} {attributes : List Attribute}
    (h : List.Forall₂ (TablesRelated old rel) (nestedClass inner simple outer).attributes
      attributes) (ht : old.text 3 = .ok "InnerClasses") (ho : outer = none ∨ outer = some 6) :
    ∃ info entry, attributes = [⟨3, info⟩] ∧
      AttributeBody.decode .innerClasses "InnerClasses" info = .ok (.innerClasses [entry]) ∧
        rel ⟨2, outer, some 4, 0⟩ entry := by
  obtain ⟨after, rest, hrel, hrest, rfl⟩ := List.forall₂_cons_left_iff.1 h
  cases hrest
  cases hrel with
  | unknown text kind =>
    rw [ht] at text
    cases text
    cases kind
  | table text known same decodes decodes' related =>
    rw [ht] at text
    cases text
    rw [decode_innerClasses ho (by decide)] at decodes
    cases decodes
    obtain ⟨entry, more, hentry, hmore, rfl⟩ := List.forall₂_cons_left_iff.1 related
    cases hmore
    obtain ⟨_, info⟩ := after
    cases same
    exact ⟨info, entry, rfl, decodes', hentry⟩
  | nested text known other =>
    rw [ht] at text
    cases text
    cases known
    exact absurd rfl other

/-- A remapper with one mapping. -/
def oneClass (name mapped : BinaryName) : Remapper :=
  ⟨.empty, MappingSet.empty.insertClass name mapped⟩

theorem class?_oneClass (name mapped : BinaryName) (own : String) :
    (oneClass name mapped).mappings.class? own = if name.text = own then some mapped else none := by
  rw [oneClass, MappingSet.class?_insertClass, MappingSet.class?_empty]

theorem brief_oneClass (name mapped : BinaryName) : (oneClass name mapped).mappings.Brief :=
  MappingSet.brief_empty.insertClass name mapped

/-- The other class of `nestedClass` stays if the mapping is not for it. -/
theorem mapClassConstant_oneClass_other {name mapped : BinaryName} (h : name.text ≠ "o") :
    (oneClass name mapped).mapClassConstant "o" = .ok "o" := by
  have hnone : (oneClass name mapped).mappings.classes.get? (String.ofList "o".toList) = none := by
    rw [String.ofList_toList]
    exact (class?_oneClass name mapped "o").trans (if_neg h)
  have hother := Remapper.mapClassConstant_text (oneClass name mapped) ⟨"o", by decide +kernel⟩
  rw [MappingSet.mapBinaryName_text, MappingSet.mapClass, ClassTable.mapName_eq, hnone] at hother
  exact hother

theorem renames_oneClass {name mapped inner new : BinaryName} (ho : name.text ≠ "o")
    (hmap : (oneClass name mapped).mappings.mapClass inner.text = new.text)
    (hne : new.text ≠ inner.text) (hs : Short new.text) :
    Renames (oneClass name mapped) inner.text new.text := by
  refine ⟨?_, hne, hs, mapClassConstant_oneClass_other ho⟩
  rw [Remapper.mapClassConstant_text, MappingSet.mapBinaryName_text, hmap]

end Sample

/-- In all tables of a class that is renamed, the entries keep their number, their order, their
classes and their flags, and of those whose class is renamed the simple names go with the new names
of the classes. -/
theorem innerClasses_consistent {file renamed : ClassFile} {name : String}
    (hp : file.pool.Reachable) (h : r.renameClass file = .ok (name, renamed)) :
    ∃ old, OldPool r file renamed old ∧
      ClassTablesRelated old (Consistent old renamed.pool) file renamed :=
  tables_related (fun _ _ _ _ hn => hn.consistent) hp.sound h

/-- A class moves into another one, which keeps its name. -/
theorem innerClasses_consistent_moved : ∃ name mapped renamed info entry j,
    name.text = "p" ∧ mapped.text = "o$B" ∧ (nestedClass "p" "p" (some 6)).pool.Reachable ∧
      (oneClass name mapped).renameClass (nestedClass "p" "p" (some 6)) = .ok ("o$B", renamed) ∧
      renamed.attributes = [⟨3, info⟩] ∧
      AttributeBody.decode .innerClasses "InnerClasses" info = .ok (.innerClasses [entry]) ∧
      entry = ⟨2, some 6, some j, 0⟩ ∧ renamed.pool.text j = .ok "B" := by
  obtain ⟨name, hname⟩ : ∃ name : BinaryName, name.text = "p" := ⟨⟨"p", by decide +kernel⟩, rfl⟩
  obtain ⟨mapped, hmapped⟩ : ∃ mapped : BinaryName, mapped.text = "o$B" :=
    ⟨⟨"o$B", by decide +kernel⟩, rfl⟩
  have hshort : Short "p" ∧ Short "o$B" := by decide +kernel
  have hentry : (oneClass name mapped).mappings.class? name.text = some mapped := by
    rw [class?_oneClass, if_pos rfl]
  have hr : Renames (oneClass name mapped) name.text mapped.text :=
    renames_oneClass (by rw [hname]; decide) (MappingSet.mapClass_of_class? hentry)
      (by rw [hname, hmapped]; decide) (hmapped ▸ hshort.2)
  rw [hname, hmapped] at hr
  have hreach : (nestedClass "p" "p" (some 6)).pool.Reachable := reachable_nestedPool "p" "p"
  obtain ⟨renamed, hrenamed⟩ :=
    @renameClass_nested _ _ _ "p" (brief_oneClass name mapped) hr hshort.1 hshort.1 (some 6)
      (.inr rfl)
  obtain ⟨old, hold, htables⟩ := innerClasses_consistent hreach hrenamed
  obtain ⟨hbefore, hafter, htext, -, houter⟩ := hold.nested hr hshort.1 hshort.1
  obtain ⟨info, entry, hlist, hdecode, hconsistent⟩ :=
    entry_nested htables.attributes htext (.inr rfl)
  obtain ⟨j, hj, hwritten⟩ := hconsistent.spelled 4 6 "p" "o$B" "o" "B" rfl rfl hbefore hafter
    hr.changed houter rfl (by decide)
  have hframe := hconsistent.frame
  rw [hj] at hframe
  exact ⟨name, mapped, renamed, info, entry, j, hname, hmapped, hreach, hrenamed, hlist, hdecode,
    hframe, hwritten⟩

end JarRename.Renaming
