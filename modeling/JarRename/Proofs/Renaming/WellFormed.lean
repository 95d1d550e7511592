import Mathlib
import JarRename.Proofs.Renaming.Class
import JarRename.Proofs.Renaming.Steps

/-!
# Renamed classes can be written

A pool is read back if its constants can be written. Reading a pool establishes this. A text is only
added after its length has been checked, and what replaces a constant is no text, so renaming keeps
it. All lists stay as long as they are and all attributes as large, so the class as a whole is read
back from what is written for it.
-/
namespace JarRename

open ConstantPool Stateful

namespace ConstantPool

theorem get_congr {pool after : ConstantPool} (h : after.slots = pool.slots) :
    after.get = pool.get := by
  funext index
  rw [get, get, h]

theorem className_congr {pool after : ConstantPool} (h : after.slots = pool.slots) :
    after.className = pool.className := by
  have ht : after.text = pool.text := by
    funext index
    rw [text, text, get_congr h]
  funext index
  rw [className, className, get_congr h, ht]

end ConstantPool

namespace Renaming

variable {r : Remapper}

theorem steady_writable (r : Remapper) : Steady r ConstantPool.Writable False where
  text := False.elim
  className := False.elim
  memberName := False.elim
  share := by
    intro _ constant hc index pool found after hw h
    refine ⟨?_, False.elim⟩
    have hs : constant.isShared = true := by
      cases constant <;> simp_all [isAddition, Constant.isShared]
    unfold share at h
    split at h
    · cases h
      exact hw
    · exact writable_push hw hs h

theorem ConstantRenamed.writable {old new : ConstantPool} {c c' : Constant}
    (h : ConstantRenamed r old new c c') (hne : c' ≠ c) : c'.Writable := by
  cases h with
  | same => exact absurd rfl hne
  | _ => trivial

theorem writable_replacedAll {changes : List (PoolIndex × Constant × Constant)}
    {entry : Nat × Constant} (h : entry.2.Writable)
    (hc : ∀ change ∈ changes, change.2.2.Writable) : (replacedAll changes entry).2.Writable := by
  induction changes generalizing entry with
  | nil => exact h
  | cons change changes ih =>
    have hfirst : (SlotVec.replaced change.1.toNat change.2.2 entry).2.Writable := by
      unfold SlotVec.replaced
      split
      · exact hc change (by simp)
      · exact h
    exact ih hfirst fun c hm => hc c (by simp [hm])

/-- What replaces a constant refers to texts and is none itself. -/
theorem writable_of_changes {pool grown : ConstantPool}
    {found : List (PoolIndex × Constant × Constant)} (hs : pool.Sound)
    (h : changes r [] pool.toList pool = (.ok found, grown)) :
    ∀ change ∈ found, change.2.2.Writable := by
  obtain ⟨hgs, -, hyields⟩ := yields_changes [] pool.toList pool found grown hs h
  obtain ⟨news, hnews, rfl⟩ := hyields grown grown (.self hgs)
  rintro ⟨index, c, c'⟩ hm
  obtain ⟨hz, hne⟩ := mem_changed.1 (by simpa using hm)
  exact (List.forall₂_zip hnews hz).writable hne

theorem writable_renameConstants {pool after : ConstantPool}
    {names : Std.HashMap PoolIndex String} (hs : pool.Sound) (hw : pool.Writable)
    (h : renameConstants r pool = (.ok names, after)) : after.Writable := by
  obtain ⟨found, grown, hchanges, -, happly⟩ := renameConstants_steps h
  obtain ⟨hgw, -⟩ := returns_changes (steady_writable r) [] _ pool found grown hw hchanges
  have hgs := (yields_changes [] pool.toList pool found grown hs hchanges).1
  obtain ⟨-, -, hlist, -⟩ := applyChanges_ok hgs happly
  intro entry hm
  rw [hlist] at hm
  obtain ⟨before, hb, rfl⟩ := List.mem_map.1 hm
  apply writable_replacedAll (hgw before hb)
  intro change hc
  exact writable_of_changes hs hchanges change (List.mem_reverse.1 hc)

theorem writable_renameClass {file renamed : ClassFile} {name : String} (hs : file.pool.Sound)
    (hw : file.pool.Writable) (h : r.renameClass file = .ok (name, renamed)) :
    renamed.pool.Writable := by
  obtain ⟨className, names, mid, -, hconst, hrest, -, -⟩ := renameClass_steps h
  have hm := writable_renameConstants hs hw hconst
  exact (@returns_members _ _ ⟨r, className, names⟩ (steady_writable r) False.elim _ _ _ mid _ _ hm
    hrest).1

theorem fits_attributes {own : String} {old new : ConstantPool} {before after : List Attribute}
    (h : List.Forall₂ (AttributeRenamed r own old new) before after)
    (hf : FitsList Attribute.Fits before) : FitsList Attribute.Fits after :=
  (refits_counted 2 0x10000 (h.imp AttributeRenamed.refits) hf).1

theorem fits_members {kind : MemberKind} {own : String} {old new : ConstantPool}
    {before after : List Member}
    (h : List.Forall₂ (DeclarationRenamed r kind own old new) before after)
    (hf : FitsList Member.Fits before) : FitsList Member.Fits after := by
  refine ⟨h.length_eq ▸ hf.1, fun member hm => ?_⟩
  obtain ⟨member', hm', hr⟩ := Fallible.exists_of_mem_right h hm
  exact fits_attributes hr.attributes (hf.2 member' hm')

theorem ClassRenamed.fits {own : String} {old : ConstantPool} {before after : ClassFile}
    (h : ClassRenamed r own old before after) (hf : before.Fits) : after.Fits := by
  refine ⟨?_, fits_members h.fields hf.fields, fits_members h.methods hf.methods,
    fits_attributes h.attributes hf.attributes⟩
  rw [h.frame]
  exact hf.interfaces

/-- What is written for a renamed class is read back under the name that was reported. -/
theorem write_renamed {r : Remapper} {bytes : Bytes} {file renamed : ClassFile} {name : String}
    (hp : ClassFile.parse bytes = .ok file) (h : r.renameClass file = .ok (name, renamed)) :
    ∃ written found, renamed.write = .ok written ∧ ClassFile.parse written = .ok found ∧
      found.name = .ok name := by
  have hs := (ClassFile.reachable_of_parse hp).sound
  obtain ⟨body, -, hpool, hsuper, hfits⟩ := ClassFile.read_ok_iff.1 (ClassFile.parse_ok_iff.1 hp)
  have hw := writable_renameClass hs (ConstantPool.read_sound hpool).1 h
  obtain ⟨hname, own, old, hr⟩ := renameClass_ok hs h
  have hsuper' : renamed.superClass ≠ some 0 := by
    rw [hr.frame]
    exact hsuper
  obtain ⟨written, pool, hwrite, hparse, hslots⟩ :=
    ClassFile.parse_of_write hr.sound hw hsuper' (hr.fits hfits)
  refine ⟨written, { renamed with pool }, hwrite, hparse, ?_⟩
  rw [← hname, ClassFile.name, ClassFile.name, className_congr hslots]

theorem renameBytes_ok_iff {r : Remapper} {bytes written : Bytes} {name : String} :
    r.renameBytes bytes = .ok (name, written) ↔ ∃ file renamed, ClassFile.parse bytes = .ok file ∧
      r.renameClass file = .ok (name, renamed) ∧ renamed.write = .ok written := by
  constructor
  · intro h
    obtain ⟨file, hp, h⟩ := Fallible.bind_ok_iff.1 h
    obtain ⟨⟨found, renamed⟩, hr, h⟩ := Fallible.bind_ok_iff.1 h
    obtain ⟨out, hw, h⟩ := Fallible.bind_ok_iff.1 h
    cases h
    exact ⟨file, renamed, hp, hr, hw⟩
  · rintro ⟨file, renamed, hp, hr, hw⟩
    simp only [Remapper.renameBytes, hp, hr, hw, bind, Except.bind]
    rfl

/-- Whatever bytes come out are those of a class with the name that is reported. -/
theorem parse_of_renameBytes {r : Remapper} {bytes written : Bytes} {name : String}
    (h : r.renameBytes bytes = .ok (name, written)) :
    ∃ file, ClassFile.parse written = .ok file ∧ file.name = .ok name := by
  obtain ⟨file, renamed, hp, hr, hw⟩ := renameBytes_ok_iff.1 h
  obtain ⟨written', found, hw', hfound, hname⟩ := write_renamed hp hr
  rw [hw, Except.ok.injEq] at hw'
  exact ⟨found, hw' ▸ hfound, hname⟩

/-- A class that was read and renamed can be written, and is read back as it is. Its name is the one
that was reported, which is the new name for the name it had. -/
theorem renamed_well_formed {bytes : Bytes} {file renamed : ClassFile} {name : String}
    (hp : ClassFile.parse bytes = .ok file) (h : r.renameClass file = .ok (name, renamed)) :
    ∃ written found own, renamed.write = .ok written ∧ ClassFile.parse written = .ok found ∧
      found = { renamed with pool := found.pool } ∧
      found.pool.slotCount = renamed.pool.slotCount ∧
      (∀ index, found.pool.get index = renamed.pool.get index) ∧
      found.name = .ok name ∧ file.name = .ok own ∧ r.mapClassConstant own = .ok name := by
  have hs := (ClassFile.reachable_of_parse hp).sound
  obtain ⟨body, -, hpool, hsuper, hfits⟩ := ClassFile.read_ok_iff.1 (ClassFile.parse_ok_iff.1 hp)
  have hw := writable_renameClass hs (ConstantPool.read_sound hpool).1 h
  obtain ⟨hname, own, old, hr⟩ := renameClass_ok hs h
  have hsuper' : renamed.superClass ≠ some 0 := by
    rw [hr.frame]
    exact hsuper
  obtain ⟨written, pool, hwrite, hparse, hslots⟩ :=
    ClassFile.parse_of_write hr.sound hw hsuper' (hr.fits hfits)
  obtain ⟨mapped, hmap, hafter⟩ := hr.className hs hr.name
  have hthis : renamed.thisClass = file.thisClass := by rw [hr.frame]
  have hsame : mapped = name := by
    rw [ClassFile.name, hthis, hafter] at hname
    exact Except.ok.inj hname
  refine ⟨written, { renamed with pool }, own, hwrite, hparse, rfl, ?_, ?_, ?_, hr.name,
    hsame ▸ hmap⟩
  · rw [slotCount, slotCount, hslots]
  · intro index
    rw [get_congr hslots]
  · rw [← hname, ClassFile.name, ClassFile.name, className_congr hslots]

theorem renamed_well_formed_sample : ∃ renamed written found,
    ClassFile.parse ClassFile.sampleBytes = .ok .sample ∧
      (sampleRemapper .empty).renameClass .sample = .ok ("B", renamed) ∧
      renamed.write = .ok written ∧ ClassFile.parse written = .ok found ∧ found.name = .ok "B" := by
  obtain ⟨renamed, hr⟩ := renameClass_sampleRemapper .empty
  obtain ⟨written, found, own, hwrite, hparse, -, -, -, hname, -, -⟩ :=
    renamed_well_formed ClassFile.parse_sample hr
  exact ⟨renamed, written, found, ClassFile.parse_sample, hr, hwrite, hparse, hname⟩

end Renaming

end JarRename
