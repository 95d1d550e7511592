import Mathlib
import JarRename.Proofs.Hierarchy.Images
import JarRename.Proofs.Renaming.Class
import JarRename.Proofs.Renaming.Members

/-!
# Summaries of renamed classes

A renamed class can be indexed where the class could. Its summary has the new names of the class and
of its supertypes, and the members that its members become.
-/
namespace JarRename.Renaming

open ConstantPool ClassSummary Fallible

variable {r : Remapper} {own : String} {old : ConstantPool} {file renamed : ClassFile}

theorem className_text (h : ClassRenamed r own old file renamed) (hs : file.pool.Sound)
    {index : PoolIndex} {name : BinaryName} (hn : file.pool.className index = .ok name.text) :
    renamed.pool.className index = .ok (r.mappings.mapBinaryName name).text := by
  obtain ⟨mapped, hmap, hafter⟩ := h.className hs hn
  rw [r.mapClassConstant_text] at hmap
  cases hmap
  exact hafter

theorem superName_renamed (h : ClassRenamed r own old file renamed) (hs : file.pool.Sound)
    {superClass : Option BinaryName} (hn : file.superName = .ok (superClass.map (·.text))) :
    renamed.superName = .ok ((superClass.map r.mappings.mapBinaryName).map (·.text)) := by
  have hsame : renamed.superClass = file.superClass := by rw [h.frame]
  rw [ClassFile.superName] at hn ⊢
  rw [hsame]
  rcases hc : file.superClass with _ | index
  · rw [hc] at hn
    cases superClass with
    | none => rfl
    | some name => cases hn
  · rw [hc] at hn
    obtain ⟨text, ht, heq⟩ := map_ok_iff.1 hn
    obtain ⟨name, rfl, rfl⟩ := Option.map_eq_some_iff.1 heq.symm
    exact map_ok_iff.2 ⟨_, className_text h hs ht, rfl⟩

theorem interfaceNames_renamed (h : ClassRenamed r own old file renamed) (hs : file.pool.Sound)
    {interfaces : List BinaryName} (hn : file.interfaceNames = .ok (interfaces.map (·.text))) :
    renamed.interfaceNames = .ok ((interfaces.map r.mappings.mapBinaryName).map (·.text)) := by
  have hsame : renamed.interfaces = file.interfaces := by rw [h.frame]
  rw [ClassFile.interfaceNames, mapM_ok_iff, List.forall₂_map_right_iff] at hn ⊢
  rw [hsame, List.forall₂_map_right_iff]
  exact hn.imp fun _ _ ht => className_text h hs ht

/-- The key of a renamed member is what the key of the member becomes. -/
theorem DeclarationRenamed.spells {kind : MemberKind} {owner : BinaryName} {member member' : Member}
    {key : MemberKey} {pool new : ConstantPool}
    (h : DeclarationRenamed r kind owner.text old new member member')
    (hold : ∀ index text, pool.text index = .ok text → old.text index = .ok text)
    (hk : Spells pool member key) :
    ∃ key', Spells new member' key' ∧ KeyRenamed r kind owner key key' := by
  obtain ⟨name, text, mapped, hn, ht, hm, hn'⟩ := h.name
  obtain ⟨descriptor, newDescriptor, hd, hmd, hd'⟩ := h.descriptor
  rw [hold _ _ hk.1] at hn
  rw [hold _ _ hk.2] at ht hd
  cases hn
  cases ht
  cases hd
  rw [mapMemberName_key] at hm
  cases hm
  exact ⟨⟨r.newName kind owner.text key, newDescriptor⟩, ⟨hn', hd'⟩, mapMemberName_key .., hmd⟩

theorem forall₂_spells {kind : MemberKind} {owner : BinaryName} {members members' : List Member}
    {keys : List MemberKey} {pool new : ConstantPool}
    (h : List.Forall₂ (DeclarationRenamed r kind owner.text old new) members members')
    (hold : ∀ index text, pool.text index = .ok text → old.text index = .ok text)
    (hk : List.Forall₂ (Spells pool) members keys) :
    ∃ keys', List.Forall₂ (Spells new) members' keys' ∧
      List.Forall₂ (KeyRenamed r kind owner) keys keys' := by
  induction h generalizing keys with
  | nil =>
    cases hk
    exact ⟨[], .nil, .nil⟩
  | cons hd _ ih =>
    cases hk with
    | cons hkey hk =>
      obtain ⟨key', hs, hr⟩ := hd.spells hold hkey
      obtain ⟨keys', hss, hrs⟩ := ih hk
      exact ⟨key' :: keys', .cons hs hss, .cons hr hrs⟩

/-- The table of the renamed members holds what the keys become, and nothing else. -/
theorem membersOf_renamed {kind : MemberKind} {owner : BinaryName} {members members' : List Member}
    {pool new : ConstantPool} {table : Std.HashMap MemberKey AccessFlags}
    (h : List.Forall₂ (DeclarationRenamed r kind owner.text old new) members members')
    (hold : ∀ index text, pool.text index = .ok text → old.text index = .ok text)
    (ht : membersOf pool members = .ok table) :
    ∃ table', membersOf new members' = .ok table' ∧
      (∀ key, table.contains key = true →
        ∃ key', KeyRenamed r kind owner key key' ∧ table'.contains key' = true) ∧
      ∀ key', table'.contains key' = true →
        ∃ key, table.contains key = true ∧ KeyRenamed r kind owner key key' := by
  obtain ⟨keys, hk, hc⟩ := spells_of_membersOf ht
  obtain ⟨keys', hk', hr⟩ := forall₂_spells h hold hk
  obtain ⟨table', ht', hc'⟩ := membersOf_of_spells hk'
  refine ⟨table', ht', fun key hm => ?_, fun key' hm => ?_⟩
  · obtain ⟨key', hm', hkey⟩ := exists_of_mem_left hr ((hc key).1 hm)
    exact ⟨key', hkey, (hc' key').2 hm'⟩
  · obtain ⟨key, hm', hkey⟩ := exists_of_mem_right hr ((hc' key').1 hm)
    exact ⟨key, (hc key).2 hm', hkey⟩

/-- What indexing finds in a renamed class. -/
theorem summarizes_renamed {name : String} {summary : ClassSummary} (hs : file.pool.Sound)
    (h : r.renameClass file = .ok (name, renamed)) (hsum : Summarizes file summary) :
    ∃ summary', Summarizes renamed summary' ∧
      SummaryRenamed r.mappings.mapBinaryName (KeyRenamed r) summary summary' := by
  obtain ⟨-, className, old, hr⟩ := renameClass_ok hs h
  have hown := hr.name
  rw [hsum.name] at hown
  cases hown
  have hold : ∀ index text, file.pool.text index = .ok text → old.text index = .ok text :=
    fun index text ht => (hr.text hs ht).1
  obtain ⟨fields, hf, hfrom, hto⟩ := membersOf_renamed hr.fields hold hsum.fields
  obtain ⟨methods, hm, hfrom', hto'⟩ := membersOf_renamed hr.methods hold hsum.methods
  have hthis : renamed.thisClass = file.thisClass := by rw [hr.frame]
  have hname : renamed.name = .ok (r.mappings.mapBinaryName summary.name).text := by
    rw [ClassFile.name, hthis]
    exact className_text hr hs hsum.name
  refine ⟨⟨r.mappings.mapBinaryName summary.name, summary.flags,
    summary.superClass.map r.mappings.mapBinaryName,
    summary.interfaces.map r.mappings.mapBinaryName, fields, methods⟩,
    ⟨hname, ?_, superName_renamed hr hs hsum.superName,
      interfaceNames_renamed hr hs hsum.interfaceNames, hf, hm⟩, rfl, ?_, ?_, ?_⟩
  · rw [hr.frame]
    exact hsum.flags
  · rw [supertypes, supertypes, List.map_append]
    cases summary.superClass <;> rfl
  · intro kind key hd
    cases kind with
    | field => exact hfrom key hd
    | method => exact hfrom' key hd
  · intro kind key' hd
    cases kind with
    | field => exact hto key' hd
    | method => exact hto' key' hd

end JarRename.Renaming
