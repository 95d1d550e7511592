import Mathlib
import JarRename.Proofs.Renaming.Pool

/-!
# Renamed texts, names and types

The index that takes the place of another one leads to the mapped text of what the other one led to
in the pool `old`. Nothing in a pool is replaced for this.
-/
namespace JarRename.Renaming

open ConstantPool

/-- The text at `j` is what the text at `i` is mapped to. -/
def TextRenamed (r : Remapper) (kind : TextKind) (old new : ConstantPool) (i j : PoolIndex) :
    Prop :=
  ∃ text mapped, old.text i = .ok text ∧ mapText r kind text = .ok mapped ∧ new.text j = .ok mapped

/-- The name and descriptor at `j` are what those at `i` are mapped to, for a member that is reached
through `owner`. -/
def MemberRenamed (r : Remapper) (kind : MemberKind) (owner : String) (old new : ConstantPool)
    (i j : PoolIndex) : Prop :=
  ∃ name descriptor newName newDescriptor,
    old.nameAndDescriptor i = .ok (name, descriptor) ∧
    mapMemberName r kind owner name descriptor = .ok newName ∧
    mapText r (descriptorKind kind) descriptor = .ok newDescriptor ∧
    new.nameAndDescriptor j = .ok (newName, newDescriptor)

/-- The descriptor at `j` is what the one at `i` is mapped to, with the same name before it. -/
def DynamicRenamed (r : Remapper) (kind : TextKind) (old new : ConstantPool) (i j : PoolIndex) :
    Prop :=
  ∃ name descriptor newDescriptor, nameAndTypeParts old i = .ok (name, descriptor) ∧
    nameAndTypeParts new j = .ok (name, newDescriptor) ∧
    TextRenamed r kind old new descriptor newDescriptor

section Texts

variable {r : Remapper} {old new : ConstantPool} {i j : PoolIndex}

theorem TextRenamed.text_eq {kind : TextKind} (h : TextRenamed r kind old new i j)
    {text mapped : String} (ht : old.text i = .ok text) (hm : mapText r kind text = .ok mapped) :
    new.text j = .ok mapped := by
  obtain ⟨_, _, ht', hm', hafter⟩ := h
  obtain rfl := Except.ok.inj (ht.symm.trans ht')
  obtain rfl := Except.ok.inj (hm.symm.trans hm')
  exact hafter

theorem MemberRenamed.nameAndDescriptor_eq {kind : MemberKind} {owner : String}
    (h : MemberRenamed r kind owner old new i j) {name descriptor newName newDescriptor : String}
    (hold : old.nameAndDescriptor i = .ok (name, descriptor))
    (hn : mapMemberName r kind owner name descriptor = .ok newName)
    (hd : mapText r (descriptorKind kind) descriptor = .ok newDescriptor) :
    new.nameAndDescriptor j = .ok (newName, newDescriptor) := by
  obtain ⟨_, _, _, _, hold', hn', hd', hafter⟩ := h
  cases hold.symm.trans hold'
  obtain rfl := Except.ok.inj (hn.symm.trans hn')
  obtain rfl := Except.ok.inj (hd.symm.trans hd')
  exact hafter

end Texts

section Room

/-- Whether a text takes few enough bytes to be a constant. -/
def Short (text : String) : Prop := Text.ModifiedUtf8.length text.toList ≤ maxTextLength

instance (text : String) : Decidable (Short text) := inferInstanceAs (Decidable (_ ≤ _))

theorem pushError?_of_short {pool : ConstantPool} {text : String} (h : Short text)
    (room : pool.slots.next < maxSlots) : pool.pushError? (.utf8 text) = none := by
  have hlength : ¬maxTextLength < Text.ModifiedUtf8.length text.toList := by
    rw [Short] at h
    omega
  have hroom : ¬maxSlots < pool.slots.next + width (Constant.utf8 text) := by
    simp only [width]
    omega
  rw [pushError?, if_neg hroom]
  exact if_neg hlength

/-- A short text is found or added where there is room. -/
theorem getUtf8_succeeds {pool : ConstantPool} (hs : pool.Sound) {text : String} (h : Short text)
    (room : pool.slots.next < maxSlots) :
    ∃ index after, getUtf8 text pool = (.ok index, after) ∧ after.Sound ∧ pool.Grows after ∧
      after.text index = .ok text ∧ after.slots.next ≤ pool.slots.next + 1 := by
  obtain ⟨index, after, hshare⟩ := share_succeeds (pushError?_of_short h room)
  have hfound := fun i hi => hs.found (.utf8 text) i rfl hi
  obtain ⟨hget, hgrown⟩ := share_ok hs hfound hshare
  obtain ⟨has, hg, -⟩ := @yields_share ∅ (.utf8 text) rfl pool index after hs hshare
  refine ⟨index, after, hshare, has, hg, text_ok_iff.2 hget, ?_⟩
  obtain rfl | hpush := hgrown
  · omega
  · obtain ⟨he, -, hslots, -⟩ := push_ok hpush
    rw [hslots, SlotVec.next_push (room_of_pushError? he)]
    exact le_rfl

end Room

variable {names : Std.HashMap PoolIndex String}

theorem yields_text (index : PoolIndex) :
    Yields names (look (·.text index)) fun old new text =>
      old.text index = .ok text ∧ new.text index = .ok text :=
  yields_look fun _ _ _ _ hb ht => hb.text ht

theorem yields_replaceText (index : PoolIndex) (text newText : String) :
    Yields names (replaceText index text newText) fun _ new i =>
      new.text index = .ok text → new.text i = .ok newText := by
  unfold replaceText
  split
  · rename_i h
    exact yields_pure fun _ _ ht => h ▸ ht
  · exact (yields_share rfl).mono fun _ _ _ _ hg _ => text_ok_iff.2 hg

theorem yields_renameText (r : Remapper) (kind : TextKind) (index : PoolIndex) :
    Yields names (renameText r kind index) fun old new i => TextRenamed r kind old new index i := by
  refine (yields_text index).bind fun text => ?_
  refine (yields_lift fun _ _ _ h => h).bind fun mapped => ?_
  refine (yields_replaceText index text mapped).mono fun old new i _ hr hm ht => ?_
  exact ⟨text, mapped, ht.1, hm, hr ht.2⟩

theorem yields_renameMember (r : Remapper) (kind : MemberKind) (owner : String)
    (index : PoolIndex) :
    Yields names (renameMember r kind owner index) fun old new i =>
      MemberRenamed r kind owner old new index i := by
  refine (yields_look fun _ _ _ _ hb ht => hb.nameAndDescriptor ht).bind fun texts => ?_
  obtain ⟨name, descriptor⟩ := texts
  refine (yields_lift fun _ _ _ h => h).bind fun newName => ?_
  refine (yields_lift fun _ _ _ h => h).bind fun newDescriptor => ?_
  split
  · rename_i h
    obtain ⟨rfl, rfl⟩ := h
    exact yields_pure fun old new hd hn ht => ⟨_, _, _, _, ht.1, hn, hd, ht.2⟩
  · refine (yields_look fun _ _ _ _ hb hp => hb.nameAndTypeParts hp).bind fun parts => ?_
    obtain ⟨i, j⟩ := parts
    refine (yields_replaceText i name newName).bind fun i' => ?_
    refine (yields_replaceText j descriptor newDescriptor).bind fun j' => ?_
    refine (yields_share rfl).mono fun old new k _ hk hj hi hp hd hn ht => ?_
    obtain ⟨i₁, j₁, hg, hni, hnj⟩ := nameAndDescriptor_ok_iff.1 ht.2
    have hsame := nameAndTypeParts_ok_iff.1 hp.2
    rw [hg] at hsame
    cases hsame
    exact ⟨_, _, _, _, ht.1, hn, hd, nameAndDescriptor_ok_iff.2 ⟨i', j', hk, hi hni, hj hnj⟩⟩

theorem yields_renameDynamic (r : Remapper) (kind : TextKind) (index : PoolIndex) :
    Yields names (renameDynamic r kind index) fun old new i =>
      DynamicRenamed r kind old new index i := by
  refine (yields_look fun _ _ _ _ hb hp => hb.nameAndTypeParts hp).bind fun parts => ?_
  obtain ⟨name, descriptor⟩ := parts
  refine (yields_renameText r kind descriptor).bind fun newDescriptor => ?_
  split
  · rename_i h
    subst h
    exact yields_pure fun old new ht hp => ⟨_, _, _, hp.1, hp.2, ht⟩
  · refine (yields_share rfl).mono fun old new k _ hk ht hp => ?_
    exact ⟨_, _, _, hp.1, nameAndTypeParts_ok_iff.2 hk, ht⟩

end JarRename.Renaming
