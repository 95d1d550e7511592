import Mathlib
import JarRename.Proofs.ModifiedUtf8
import JarRename.Proofs.PoolIndices
import JarRename.Proofs.Renaming.Constants
import JarRename.Proofs.Renaming.Members

/-!
# When constants can be renamed

Symbols are renamed if they are well-formed, their new texts are not too long, and the pool has
room for what is added. `Succeeds` says of a step that it ends well in every pool that has room for
a given number of constants, and adds no more than that; `ConstantReady` and the predicates before
it say what is asked of a constant.
-/
namespace JarRename

open ConstantPool

namespace MappingSet

/-- All names that a mapping set has for members are short. -/
structure Brief (set : MappingSet) : Prop where
  fields : ∀ (key : FieldKey) (mapped : UnqualifiedName), set.fields[key]? = some mapped →
    Renaming.Short mapped.text
  methods : ∀ (key : MethodKey) (mapped : UnqualifiedName), set.methods[key]? = some mapped →
    Renaming.Short mapped.text

theorem brief_empty : empty.Brief := ⟨by simp [empty], by simp [empty]⟩

namespace Brief

variable {set : MappingSet} (h : set.Brief)
include h

theorem insertClass (name mapped : BinaryName) : (set.insertClass name mapped).Brief :=
  ⟨h.fields, h.methods⟩

theorem insertField (key : FieldKey) {mapped : UnqualifiedName}
    (hm : Renaming.Short mapped.text) : (set.insertField key mapped).Brief := by
  refine ⟨fun other found hf => ?_, h.methods⟩
  simp only [MappingSet.insertField, Std.HashMap.getElem?_insert] at hf
  split at hf
  · exact Option.some.inj hf ▸ hm
  · exact h.fields other found hf

theorem insertMethod (key : MethodKey) {mapped : UnqualifiedName}
    (hm : Renaming.Short mapped.text) : (set.insertMethod key mapped).Brief := by
  refine ⟨h.fields, fun other found hf => ?_⟩
  simp only [MappingSet.insertMethod, Std.HashMap.getElem?_insert] at hf
  split at hf
  · exact Option.some.inj hf ▸ hm
  · exact h.methods other found hf

theorem member? {kind : MemberKind} {owner : String} {key : MemberKey} {mapped : UnqualifiedName}
    (hm : set.member? kind owner key = some mapped) : Renaming.Short mapped.text := by
  cases kind with
  | field =>
    obtain ⟨_, -, hm⟩ := Option.bind_eq_some_iff.1 hm
    obtain ⟨_, -, hm⟩ := Option.bind_eq_some_iff.1 hm
    rcases Option.or_eq_some_iff.1 hm with hm | ⟨-, hm⟩
    · exact h.fields _ _ hm
    · exact h.fields _ _ hm
  | method =>
    obtain ⟨_, -, hm⟩ := Option.bind_eq_some_iff.1 hm
    obtain ⟨_, -, hm⟩ := Option.bind_eq_some_iff.1 hm
    exact h.methods _ _ hm

end Brief

end MappingSet

theorem Remapper.newName_brief {r : Remapper} (h : r.mappings.Brief) (kind : MemberKind)
    (owner : String) (key : MemberKey) :
    (r.newName kind owner key).text = key.name.text ∨
      Renaming.Short (r.newName kind owner key).text := by
  unfold newName
  cases hm : r.memberMapping? kind (r.declaringClass owner kind key) key with
  | none => exact .inl rfl
  | some mapped =>
    refine .inr ?_
    show Renaming.Short mapped.text
    cases kind with
    | field => exact @MappingSet.Brief.member? _ h .field _ _ _ hm
    | method =>
      unfold memberMapping? at hm
      dsimp only at hm
      split at hm
      · cases hm
      rcases Option.or_eq_some_iff.1 hm with hown | ⟨-, hinherited⟩
      · exact h.member? hown
      · split at hinherited
        · obtain ⟨ancestor, -, ha⟩ := List.exists_of_findSome?_eq_some hinherited
          split at ha
          · exact @MappingSet.Brief.member? _ h .method _ _ _ ha
          · cases ha
        · cases hinherited

namespace Renaming

open Stateful

/-- The old text, or one that is short enough to be added. -/
def Fits (old new : String) : Prop := new = old ∨ Short new

theorem Short.of_isSuffix {text part : String} (h : Short text)
    (hp : part.toList <:+ text.toList) : Short part := by
  obtain ⟨front, hfront⟩ := hp
  have hle : (Text.ModifiedUtf8.encode part.toList).length ≤
      (Text.ModifiedUtf8.encode (front ++ part.toList)).length := by
    clear hfront
    induction front with
    | nil => exact le_rfl
    | cons c front ih =>
      rw [List.cons_append, Text.ModifiedUtf8.length_encode_cons]
      omega
  rw [hfront, ← Text.ModifiedUtf8.length_eq, ← Text.ModifiedUtf8.length_eq] at hle
  exact hle.trans h

theorem isSuffix_nestedPart (className : List Char) : nestedPart className <:+ className := by
  unfold nestedPart
  split
  · exact List.suffix_rfl
  · rename_i before nested hcut
    have hsuffix : nested <:+ className :=
      ⟨before ++ ['$'], by simp [Text.eq_append_of_cutLast? hcut]⟩
    split
    · exact hsuffix
    · exact (List.dropWhile_suffix Char.isDigit).trans hsuffix

/-- A simple name is the end of the name of its class. -/
theorem isSuffix_simpleName (inner : String) (outer : Option String) :
    (simpleName inner outer).toList <:+ inner.toList := by
  unfold simpleName
  dsimp only
  split
  · rename_i nested hbelow
    rw [String.toList_ofList]
    cases outer with
    | none => cases hbelow
    | some around =>
      dsimp only at hbelow
      split at hbelow
      · rename_i below hdrop
        have hrest : '$' :: below <:+ inner.toList :=
          ⟨_, (Text.eq_append_of_dropPrefix? hdrop).symm⟩
        split at hbelow
        · cases hbelow
        · cases hbelow
          exact (List.suffix_cons '$' nested).trans hrest
      · cases hbelow
  · rw [String.toList_ofList]
    refine (isSuffix_nestedPart _).trans ?_
    split
    · rename_i before className hcut
      exact ⟨before ++ ['/'], by simp [Text.eq_append_of_cutLast? hcut]⟩
    · exact List.suffix_rfl

/-- What can be read in `base` apart from the names of classes is read in the pool, and where `base`
has the name of a class the pool has one. -/
structure Continues (base pool : ConstantPool) : Prop where
  fixed : ∀ index constant, isFixed constant = true → base.get index = .ok constant →
    pool.get index = .ok constant
  named : ∀ index name, base.className index = .ok name →
    ∃ name', pool.className index = .ok name' ∧ Fits name name'

namespace Continues

variable {base pool after : ConstantPool} {index : PoolIndex}

theorem refl (pool : ConstantPool) : Continues pool pool :=
  ⟨fun _ _ _ hg => hg, fun _ name hn => ⟨name, hn, .inl rfl⟩⟩

theorem of_grows (h : Continues base pool) (hl : pool.slots.LaidFrom 1) (hg : pool.Grows after) :
    Continues base after := by
  refine ⟨fun index c hc hi => hg.get hl (h.fixed index c hc hi), fun index name hn => ?_⟩
  obtain ⟨name', hn', hfits⟩ := h.named index name hn
  exact ⟨name', hg.className hl hn', hfits⟩

theorem text (h : Continues base pool) {text : String} (ht : base.text index = .ok text) :
    pool.text index = .ok text :=
  text_ok_iff.2 (h.fixed index _ rfl (text_ok_iff.1 ht))

theorem nameAndTypeParts (h : Continues base pool) {parts : PoolIndex × PoolIndex}
    (hp : Renaming.nameAndTypeParts base index = .ok parts) :
    Renaming.nameAndTypeParts pool index = .ok parts :=
  nameAndTypeParts_ok_iff.2 (h.fixed index _ rfl (nameAndTypeParts_ok_iff.1 hp))

theorem nameAndDescriptor (h : Continues base pool) {texts : String × String}
    (ht : base.nameAndDescriptor index = .ok texts) :
    pool.nameAndDescriptor index = .ok texts := by
  obtain ⟨i, j, hg, hi, hj⟩ := nameAndDescriptor_ok_iff.1 ht
  exact nameAndDescriptor_ok_iff.2 ⟨i, j, h.fixed index _ rfl hg, h.text hi, h.text hj⟩

end Continues

/-- The step ends well in every pool that continues `base` and has room for `cost` constants, and
adds no more than that. -/
def Succeeds {α : Type} (base : ConstantPool) (cost : Nat) (action : PoolM α) : Prop :=
  ∀ pool, pool.Sound → Continues base pool → pool.slots.next + cost ≤ maxSlots →
    ∃ x after, action pool = (.ok x, after) ∧ after.Sound ∧ pool.Grows after ∧
      after.slots.next ≤ pool.slots.next + cost

section Rules

variable {α β : Type} {base : ConstantPool} {cost m n : Nat}

theorem succeeds_pure (x : α) : Succeeds base 0 (pure x) :=
  fun pool hs _ _ => ⟨x, pool, rfl, hs, .refl pool, le_rfl⟩

theorem Succeeds.mono {action : PoolM α} (h : Succeeds base m action) (hle : m ≤ n) :
    Succeeds base n action := by
  intro pool hs hf room
  obtain ⟨x, after, hx, hs', hg, hn⟩ := h pool hs hf (by omega)
  exact ⟨x, after, hx, hs', hg, by omega⟩

theorem Succeeds.bind {action : PoolM α} {next : α → PoolM β} (ha : Succeeds base m action)
    (hn : ∀ x, Succeeds base n (next x)) : Succeeds base (m + n) (action >>= next) := by
  intro pool hs hf room
  obtain ⟨x, mid, hx, hms, hg, hle⟩ := ha pool hs hf (by omega)
  obtain ⟨y, after, hy, hs', hg', hle'⟩ := hn x mid hms (hf.of_grows hs.laid hg) (by omega)
  exact ⟨y, after, bind_ok_iff.2 ⟨x, mid, hx, hy⟩, hs', hg.trans hg', by omega⟩

/-- A step that only puts its result together adds nothing. -/
theorem Succeeds.map {action : PoolM α} (h : Succeeds base m action) (f : α → β) :
    Succeeds base m (do return f (← action)) :=
  h.bind fun x => succeeds_pure (f x)

theorem succeeds_look_bind {read : ConstantPool → Except ClassError α} {next : α → PoolM β}
    (h : ∀ pool, Continues base pool → ∃ x, read pool = .ok x ∧ Succeeds base cost (next x)) :
    Succeeds base cost (look read >>= next) := by
  intro pool hs hf room
  obtain ⟨x, hx, hn⟩ := h pool hf
  obtain ⟨y, after, hy, hrest⟩ := hn pool hs hf room
  exact ⟨y, after, bind_ok_iff.2 ⟨x, pool, by rw [look, hx], hy⟩, hrest⟩

theorem succeeds_lift_bind {result : Except ClassError α} {x : α} {next : α → PoolM β}
    (hr : result = .ok x) (h : Succeeds base cost (next x)) :
    Succeeds base cost ((liftM result : PoolM α) >>= next) := by
  intro pool hs hf room
  obtain ⟨y, after, hy, hrest⟩ := h pool hs hf room
  subst hr
  exact ⟨y, after, bind_ok_iff.2 ⟨x, pool, rfl, hy⟩, hrest⟩

theorem succeeds_mapM {step : α → PoolM β} {costs : List Nat} {items : List α}
    (h : List.Forall₂ (fun x cost => Succeeds base cost (step x)) items costs) :
    Succeeds base costs.sum (items.mapM step) := by
  induction h with
  | nil => exact succeeds_pure []
  | cons hx _ ih =>
    rw [List.mapM_cons, List.sum_cons]
    exact hx.bind fun y => ih.bind fun ys => succeeds_pure (y :: ys)

theorem succeeds_mapM_of_forall {step : α → PoolM β} {items : List α}
    (h : ∀ x ∈ items, Succeeds base cost (step x)) :
    Succeeds base (items.length * cost) (items.mapM step) := by
  rw [← smul_eq_mul, ← List.sum_replicate]
  refine succeeds_mapM (List.forall₂_iff_get.2 ⟨by simp, fun i hi _ => ?_⟩)
  simpa using h _ (List.getElem_mem hi)

end Rules

section Texts

variable {r : Remapper} {base : ConstantPool}

theorem succeeds_replaceText {index : PoolIndex} {old new : String} (h : Fits old new) :
    Succeeds base 1 (replaceText index old new) := by
  intro pool hs _ room
  by_cases heq : new = old
  · exact ⟨index, pool, by rw [replaceText, if_pos heq]; rfl, hs, .refl pool, by omega⟩
  · obtain ⟨i, after, hi, hs', hg, -, hle⟩ :=
      getUtf8_succeeds hs (h.resolve_left heq) (by omega)
    exact ⟨i, after, by rw [replaceText, if_neg heq, hi], hs', hg, hle⟩

theorem succeeds_getNameAndType (name descriptor : PoolIndex) :
    Succeeds base 1 (getNameAndType name descriptor) := by
  intro pool hs _ room
  have hroom : pool.pushError? (.nameAndType name descriptor) = none := by
    have hn : ¬maxSlots < pool.slots.next + width (Constant.nameAndType name descriptor) := by
      simp only [width]
      omega
    unfold pushError?
    rw [if_neg hn]
  obtain ⟨index, after, hshare⟩ := share_succeeds hroom
  have hfound := fun i hi => hs.found (.nameAndType name descriptor) i rfl hi
  obtain ⟨-, hgrown⟩ := share_ok hs hfound hshare
  obtain ⟨hs', hg, -⟩ :=
    @yields_share ∅ (.nameAndType name descriptor) rfl pool index after hs hshare
  refine ⟨index, after, hshare, hs', hg, ?_⟩
  obtain rfl | hpush := hgrown
  · omega
  · obtain ⟨he, -, hslots, -⟩ := push_ok hpush
    rw [hslots, SlotVec.next_push (room_of_pushError? he)]
    exact le_rfl

/-- The text of a symbol can be renamed. -/
def TextReady (r : Remapper) (kind : TextKind) (base : ConstantPool) (index : PoolIndex) : Prop :=
  ∃ text mapped, base.text index = .ok text ∧ mapText r kind text = .ok mapped ∧ Fits text mapped

/-- Two texts that spell a member whose descriptor can be renamed. -/
def Spelled (r : Remapper) (kind : MemberKind) (name descriptor : String) : Prop :=
  ∃ (key : MemberKey) (mapped : String), key.name.text = name ∧ key.descriptor = descriptor ∧
    mapText r (descriptorKind kind) descriptor = .ok mapped ∧ Fits descriptor mapped

/-- The name and descriptor of a member can be renamed, whichever class it is reached through. -/
def MemberReady (r : Remapper) (kind : MemberKind) (base : ConstantPool) (index : PoolIndex) :
    Prop :=
  ∃ name descriptor, base.nameAndDescriptor index = .ok (name, descriptor) ∧
    Spelled r kind name descriptor

def DynamicReady (r : Remapper) (kind : TextKind) (base : ConstantPool) (index : PoolIndex) :
    Prop :=
  ∃ name descriptor, nameAndTypeParts base index = .ok (name, descriptor) ∧
    TextReady r kind base descriptor

/-- A member that is spelled gets a name through every class. -/
theorem exists_mapMemberName (hb : r.mappings.Brief) (kind : MemberKind) (owner : String)
    (key : MemberKey) :
    ∃ mapped, mapMemberName r kind owner key.name.text key.descriptor = .ok mapped ∧
      Fits key.name.text mapped :=
  ⟨_, mapMemberName_key r kind owner key, r.newName_brief hb kind owner key⟩

theorem succeeds_renameText {kind : TextKind} {index : PoolIndex}
    (h : TextReady r kind base index) : Succeeds base 1 (renameText r kind index) := by
  obtain ⟨text, mapped, ht, hm, hfits⟩ := h
  refine succeeds_look_bind fun pool hf => ⟨text, hf.text ht, ?_⟩
  exact succeeds_lift_bind hm (succeeds_replaceText hfits)

theorem succeeds_renameMember (hb : r.mappings.Brief) {kind : MemberKind} (owner : String)
    {index : PoolIndex} (h : MemberReady r kind base index) :
    Succeeds base 3 (renameMember r kind owner index) := by
  obtain ⟨_, _, ht, key, newDescriptor, rfl, rfl, hdescriptor, hfits⟩ := h
  obtain ⟨newName, hname, hfits'⟩ := exists_mapMemberName hb kind owner key
  obtain ⟨i, j, hg, -, -⟩ := nameAndDescriptor_ok_iff.1 ht
  refine succeeds_look_bind fun pool hf => ⟨_, hf.nameAndDescriptor ht, ?_⟩
  refine succeeds_lift_bind hname (succeeds_lift_bind hdescriptor ?_)
  split
  · exact (succeeds_pure index).mono (by omega)
  · refine succeeds_look_bind fun pool hf =>
      ⟨(i, j), hf.nameAndTypeParts (nameAndTypeParts_ok_iff.2 hg), ?_⟩
    exact (succeeds_replaceText hfits').bind fun i' =>
      (succeeds_replaceText hfits).bind fun j' => succeeds_getNameAndType i' j'

theorem succeeds_renameDynamic {kind : TextKind} {index : PoolIndex}
    (h : DynamicReady r kind base index) : Succeeds base 2 (renameDynamic r kind index) := by
  obtain ⟨name, descriptor, hp, ht⟩ := h
  refine succeeds_look_bind fun pool hf => ⟨_, hf.nameAndTypeParts hp, ?_⟩
  refine Succeeds.bind (n := 1) (succeeds_renameText ht) fun j => ?_
  split
  · exact (succeeds_pure index).mono (by omega)
  · exact succeeds_getNameAndType name j

end Texts

section Constants

variable {r : Remapper} {base : ConstantPool}

/-- The symbols that a constant mentions can be renamed. -/
def ConstantReady (r : Remapper) (base : ConstantPool) : Constant → Prop
  | .classRef i => ∃ name mapped, base.text i = .ok name ∧
      r.mapClassConstant name = .ok mapped ∧ Fits name mapped
  | .fieldRef owner i => (∃ name, base.className owner = .ok name) ∧ MemberReady r .field base i
  | .methodRef owner i _ =>
    (∃ name, base.className owner = .ok name) ∧ MemberReady r .method base i
  | .methodType i => TextReady r .methodDescriptor base i
  | .dynamic _ i => DynamicReady r .fieldDescriptor base i
  | .invokeDynamic _ i => DynamicReady r .methodDescriptor base i
  | _ => True

theorem succeeds_className_bind {α : Type} {index : PoolIndex} {cost : Nat}
    {next : String → PoolM α} (h : ∃ name, base.className index = .ok name)
    (hn : ∀ name, Succeeds base cost (next name)) :
    Succeeds base cost (look (·.className index) >>= next) := by
  obtain ⟨name, hname⟩ := h
  refine succeeds_look_bind fun pool hf => ?_
  obtain ⟨name', hname', -⟩ := hf.named index name hname
  exact ⟨name', hname', hn name'⟩

theorem succeeds_renameConstant (hb : r.mappings.Brief) {constant : Constant}
    (h : ConstantReady r base constant) : Succeeds base 3 (renameConstant r constant) := by
  cases constant with
  | classRef i =>
    obtain ⟨name, mapped, ht, hm, hfits⟩ := h
    refine succeeds_look_bind fun pool hf => ⟨name, hf.text ht, ?_⟩
    refine succeeds_lift_bind hm ?_
    exact ((succeeds_replaceText hfits).map Constant.classRef).mono (by omega)
  | fieldRef owner i =>
    exact succeeds_className_bind h.1 fun name =>
      (succeeds_renameMember hb name h.2).map (Constant.fieldRef owner)
  | methodRef owner i isInterface =>
    exact succeeds_className_bind h.1 fun name =>
      (succeeds_renameMember hb name h.2).map fun j => Constant.methodRef owner j isInterface
  | methodType i => exact ((succeeds_renameText h).map Constant.methodType).mono (by omega)
  | dynamic bootstrap i =>
    exact ((succeeds_renameDynamic h).map (Constant.dynamic bootstrap)).mono (by omega)
  | invokeDynamic bootstrap i =>
    exact ((succeeds_renameDynamic h).map (Constant.invokeDynamic bootstrap)).mono (by omega)
  | _ => exact (succeeds_pure _).mono (by omega)

theorem succeeds_changes (hb : r.mappings.Brief) {constants : List (PoolIndex × Constant)}
    (h : ∀ entry ∈ constants, ConstantReady r base entry.2)
    (found : List (PoolIndex × Constant × Constant)) :
    Succeeds base (3 * constants.length) (changes r found constants) := by
  induction constants generalizing found with
  | nil => exact succeeds_pure found
  | cons entry constants ih =>
    have hrest := ih fun other ho => h other (by simp [ho])
    refine ((succeeds_renameConstant hb (h entry (by simp))).bind fun new => hrest _).mono ?_
    rw [List.length_cons]
    omega

/-- Constants that are replaced mention symbols, and so do those that take their place. -/
theorem ConstantRenamed.replaceable {old new : ConstantPool} {c c' : Constant}
    (h : ConstantRenamed r old new c c') (hne : c' ≠ c) :
    isFixed c = false ∧ width c' = width c := by
  cases h with
  | same => exact absurd rfl hne
  | _ => exact ⟨rfl, rfl⟩

theorem applyChanges_succeeds {replacements : List (PoolIndex × Constant × Constant)}
    {pool : ConstantPool} (hs : pool.Sound) (hd : (replacements.map (·.1)).Nodup)
    (h : ∀ change ∈ replacements, pool.get change.1 = .ok change.2.1 ∧
      isFixed change.2.1 = false ∧ width change.2.2 = width change.2.1) :
    ∃ after, applyChanges replacements pool = (.ok (), after) := by
  induction replacements generalizing pool with
  | nil => exact ⟨pool, rfl⟩
  | cons change replacements ih =>
    obtain ⟨index, old, new⟩ := change
    obtain ⟨hg, hfixed, hw⟩ := h _ List.mem_cons_self
    obtain ⟨hnew, hd⟩ := List.nodup_cons.1 hd
    obtain ⟨mid, hset⟩ := set_succeeds hg hfixed hw
    have hmid : (ConstantPool.set index new pool).2 = mid := by rw [hset]
    have hms : mid.Sound := hmid ▸ sound_set hs index new
    obtain ⟨after, hafter⟩ := ih hms hd fun other ho => by
      obtain ⟨hg', hrest⟩ := h other (List.mem_cons_of_mem _ ho)
      have hne : other.1 ≠ index := by
        rintro rfl
        exact hnew (List.mem_map.2 ⟨other, ho, rfl⟩)
      rw [← hmid, get_set_of_ne hs new hne]
      exact ⟨hg', hrest⟩
    exact ⟨after, bind_ok_iff.2 ⟨(), mid, hset, hafter⟩⟩

theorem changed_sublist (constants : List (PoolIndex × Constant)) (news : List Constant) :
    ((changed constants news).map (·.1)).Sublist (constants.map (·.1)) := by
  induction constants generalizing news with
  | nil => simp [changed]
  | cons entry constants ih =>
    cases news with
    | nil => simp [changed]
    | cons new news =>
      rw [changed_cons, List.map_append, List.map_cons]
      split
      · exact (ih news).cons _
      · exact (ih news).cons_cons _

theorem mem_toList_of_get {pool : ConstantPool} (hs : pool.Sound) {index : PoolIndex}
    {constant : Constant} (h : pool.get index = .ok constant) : (index, constant) ∈ pool.toList :=
  List.mem_map.2 ⟨_, hs.get_ok_iff.1 h, by simp⟩

theorem nodup_toList {pool : ConstantPool} (hs : pool.Sound) : (pool.toList.map (·.1)).Nodup := by
  have hsmall : ∀ entry ∈ pool.slots.toList, entry.1 < 0x10000 := by
    intro entry he
    have hlt := hs.laid.address_lt he
    have hbound : pool.slots.next ≤ 0xFFFF := hs.bound
    omega
  rw [toList, List.map_map]
  show (pool.slots.toList.map fun entry => UInt16.ofNat entry.1).Nodup
  refine hs.laid.nodup.of_map.map_on fun a ha b hb heq => ?_
  have haddress : a.1 = b.1 := by
    have hnat := congrArg UInt16.toNat heq
    rwa [UInt16.toNat_ofNat_of_lt' (hsmall a ha), UInt16.toNat_ofNat_of_lt' (hsmall b hb)] at hnat
  exact Prod.ext haddress (hs.laid.eq_of_address ha (haddress ▸ hb))

/-- After its constants have been renamed, a pool still has all texts and a name for every class. -/
theorem continues_of_renameConstants {pool mid : ConstantPool}
    {names : Std.HashMap PoolIndex String} (hs : pool.Sound)
    (hr : ∀ entry ∈ pool.toList, ConstantReady r pool entry.2)
    (h : renameConstants r pool = (.ok names, mid)) : Continues pool mid := by
  obtain ⟨hms, hall⟩ := renameConstants_ok hs h
  obtain ⟨old, hgrows, -, hentries⟩ := hall mid hms (.refl mid)
  have hget : ∀ index constant, pool.get index = .ok constant →
      ∃ constant', mid.get index = .ok constant' ∧
        ConstantRenamed r old mid constant constant' := by
    intro index constant hg
    have hold := (get_ok_iff_mem (hgrows.laid hs.laid)).1 (hgrows.get hs.laid hg)
    obtain ⟨⟨address, constant'⟩, hm, rfl, hc⟩ := Fallible.exists_of_mem_left hentries hold
    exact ⟨constant', hms.get_ok_iff.2 hm, hc⟩
  constructor
  · intro index constant hfixed hg
    obtain ⟨constant', hg', hc⟩ := hget index constant hg
    have hplain : constant.isSymbolic = false := by
      cases constant <;> simp_all [isFixed, Constant.isSymbolic]
    rwa [← hc.eq_of_plain hplain]
  · intro index name hn
    obtain ⟨i, hg, ht⟩ := className_ok_iff.1 hn
    obtain ⟨constant', hg', hc⟩ := hget index _ hg
    cases hc with
    | classRef before maps after =>
      obtain ⟨name', mapped, hname, hmapped, hfits⟩ := hr _ (mem_toList_of_get hs hg)
      obtain rfl := Except.ok.inj (ht.symm.trans hname)
      obtain rfl := Except.ok.inj (before.symm.trans (hgrows.text hs.laid ht))
      obtain rfl := Except.ok.inj (maps.symm.trans hmapped)
      exact ⟨_, className_ok_iff.2 ⟨_, hg', after⟩, hfits⟩
    | same plain => simp [Constant.isSymbolic] at plain

/-- Where all constants can be renamed and there is room, they are. -/
theorem renameConstants_succeeds (hb : r.mappings.Brief) {pool : ConstantPool} (hs : pool.Sound)
    (h : ∀ entry ∈ pool.toList, ConstantReady r pool entry.2)
    (room : pool.slots.next + 3 * pool.toList.length ≤ maxSlots) :
    ∃ names mid, renameConstants r pool = (.ok names, mid) ∧ mid.Sound ∧ Continues pool mid ∧
      mid.slots.next ≤ pool.slots.next + 3 * pool.toList.length := by
  obtain ⟨found, grown, hchanges, hgs, hgrow, hle⟩ :=
    succeeds_changes hb h [] pool hs (.refl pool) room
  obtain ⟨-, -, hyields⟩ := yields_changes [] pool.toList pool found grown hs hchanges
  obtain ⟨news, hnews, hfound⟩ := hyields grown grown (.self hgs)
  have hreverse : found.reverse = changed pool.toList news := by simp [hfound]
  obtain ⟨mid, happly⟩ : ∃ mid, applyChanges found.reverse grown = (.ok (), mid) := by
    rw [hreverse]
    refine applyChanges_succeeds hgs ((changed_sublist _ news).nodup (nodup_toList hs)) ?_
    rintro ⟨index, c, c'⟩ hm
    obtain ⟨hzip, hne⟩ := mem_changed.1 hm
    have hget := mem_toList hs (List.of_mem_zip hzip).1
    exact ⟨hgrow.get hs.laid hget, (List.forall₂_zip hnews hzip).replaceable hne⟩
  have hrun : renameConstants r pool = (.ok (oldNames grown found.reverse), mid) := by
    simp only [renameConstants, bind_apply, look, hchanges, happly]
    rfl
  obtain ⟨hms, hnext, -⟩ := applyChanges_ok hgs happly
  exact ⟨_, mid, hrun, hms, continues_of_renameConstants hs h hrun, by omega⟩

end Constants

end Renaming

end JarRename
