import Mathlib
import JarRename.Proofs.Renaming.Text
import JarRename.Renaming.Constants

/-!
# Renamed constants

`ConstantRenamed` says for each kind of constant what becomes of it. The replacements are found
while the pool grows and are put in their places afterwards; `renameConstants_ok` shows that the
pool then holds what `ConstantRenamed` says, with all old names read from the pool as it was before.
-/
namespace JarRename

/-- Whether a constant mentions a symbol by itself, and not only through other constants. -/
def Constant.isSymbolic : Constant → Bool
  | classRef _ | fieldRef _ _ | methodRef _ _ _ | methodType _ | dynamic _ _ | invokeDynamic _ _ =>
    true
  | _ => false

namespace Renaming

open ConstantPool Stateful

/-- What a constant becomes. Symbols are read in `old` and their new texts stand in `new`. -/
inductive ConstantRenamed (r : Remapper) (old new : ConstantPool) : Constant → Constant → Prop
  | classRef {i j : PoolIndex} {name mapped : String} (before : old.text i = .ok name)
      (maps : r.mapClassConstant name = .ok mapped) (after : new.text j = .ok mapped) :
      ConstantRenamed r old new (.classRef i) (.classRef j)
  | fieldRef {owner i j : PoolIndex} {name : String} (before : old.className owner = .ok name)
      (member : MemberRenamed r .field name old new i j) :
      ConstantRenamed r old new (.fieldRef owner i) (.fieldRef owner j)
  | methodRef {owner i j : PoolIndex} {isInterface : Bool} {name : String}
      (before : old.className owner = .ok name)
      (member : MemberRenamed r .method name old new i j) :
      ConstantRenamed r old new (.methodRef owner i isInterface) (.methodRef owner j isInterface)
  | methodType {i j : PoolIndex} (text : TextRenamed r .methodDescriptor old new i j) :
      ConstantRenamed r old new (.methodType i) (.methodType j)
  | dynamic {bootstrap : UInt16} {i j : PoolIndex}
      (type : DynamicRenamed r .fieldDescriptor old new i j) :
      ConstantRenamed r old new (.dynamic bootstrap i) (.dynamic bootstrap j)
  | invokeDynamic {bootstrap : UInt16} {i j : PoolIndex}
      (type : DynamicRenamed r .methodDescriptor old new i j) :
      ConstantRenamed r old new (.invokeDynamic bootstrap i) (.invokeDynamic bootstrap j)
  | same {constant : Constant} (plain : constant.isSymbolic = false) :
      ConstantRenamed r old new constant constant

variable {r : Remapper} {old new : ConstantPool}

theorem ConstantRenamed.eq_of_isFixed {c c' : Constant} (h : ConstantRenamed r old new c c')
    (hf : isFixed c' = true) : c' = c := by
  cases h with
  | same => rfl
  | _ => simp [isFixed] at hf

theorem ConstantRenamed.eq_of_plain {c c' : Constant} (h : ConstantRenamed r old new c c')
    (hp : c.isSymbolic = false) : c' = c := by
  cases h with
  | same => rfl
  | _ => simp [Constant.isSymbolic] at hp

theorem isSymbolic_of_isAddition {constant : Constant} (h : isAddition constant = true) :
    constant.isSymbolic = false := by
  cases constant <;> simp_all [isAddition, Constant.isSymbolic]

theorem yields_className (index : PoolIndex) :
    Yields ∅ (look (·.className index)) fun old _ name => old.className index = .ok name :=
  yields_look fun _ _ _ _ hb hn => hb.owner index _ (by simpa using hn)

theorem yields_renameConstant (constant : Constant) :
    Yields ∅ (renameConstant r constant) fun old new c => ConstantRenamed r old new constant c := by
  cases constant with
  | classRef i =>
    refine (yields_text i).bind fun name => ?_
    refine (yields_lift fun _ _ _ h => h).bind fun mapped => ?_
    refine (yields_replaceText i name mapped).bind fun j => ?_
    exact yields_pure fun _ _ hj hm ht => .classRef ht.1 hm (hj ht.2)
  | fieldRef owner i =>
    refine (yields_className owner).bind fun name => ?_
    refine (yields_renameMember r .field name i).bind fun j => ?_
    exact yields_pure fun _ _ hm ho => .fieldRef ho hm
  | methodRef owner i isInterface =>
    refine (yields_className owner).bind fun name => ?_
    refine (yields_renameMember r .method name i).bind fun j => ?_
    exact yields_pure fun _ _ hm ho => .methodRef ho hm
  | methodType i =>
    refine (yields_renameText r .methodDescriptor i).bind fun j => ?_
    exact yields_pure fun _ _ ht => .methodType ht
  | dynamic bootstrap i =>
    refine (yields_renameDynamic r .fieldDescriptor i).bind fun j => ?_
    exact yields_pure fun _ _ ht => .dynamic ht
  | invokeDynamic bootstrap i =>
    refine (yields_renameDynamic r .methodDescriptor i).bind fun j => ?_
    exact yields_pure fun _ _ ht => .invokeDynamic ht
  | _ => exact yields_pure fun _ _ => .same rfl

/-- The constants that differ from those they take the place of. -/
def changed (constants : List (PoolIndex × Constant)) (news : List Constant) :
    List (PoolIndex × Constant × Constant) :=
  (constants.zip news).filterMap fun pair =>
    if pair.2 = pair.1.2 then none else some (pair.1.1, pair.1.2, pair.2)

theorem changed_cons (constant : PoolIndex × Constant) (new : Constant)
    (constants : List (PoolIndex × Constant)) (news : List Constant) :
    changed (constant :: constants) (new :: news) =
      (if new = constant.2 then [] else [(constant.1, constant.2, new)]) ++
        changed constants news := by
  by_cases h : new = constant.2 <;> simp [changed, h]

theorem mem_changed {constants : List (PoolIndex × Constant)} {news : List Constant}
    {index : PoolIndex} {c c' : Constant} :
    (index, c, c') ∈ changed constants news ↔
      ((index, c), c') ∈ constants.zip news ∧ c' ≠ c := by
  simp only [changed, List.mem_filterMap]
  constructor
  · rintro ⟨⟨⟨i, x⟩, y⟩, hm, h⟩
    split at h
    · simp at h
    · rename_i hne
      cases h
      exact ⟨hm, hne⟩
  · rintro ⟨hm, hne⟩
    exact ⟨_, hm, if_neg hne⟩

theorem yields_changes (found : List (PoolIndex × Constant × Constant))
    (constants : List (PoolIndex × Constant)) :
    Yields ∅ (changes r found constants) fun old new out => ∃ news,
      List.Forall₂ (fun entry c => ConstantRenamed r old new entry.2 c) constants news ∧
        out = (changed constants news).reverse ++ found := by
  induction constants generalizing found with
  | nil => exact yields_pure fun _ _ => ⟨[], .nil, rfl⟩
  | cons constant constants ih =>
    refine (yields_renameConstant constant.2).bind fun c => ?_
    refine (ih _).mono fun old new out _ h hc => ?_
    obtain ⟨news, hn, rfl⟩ := h
    refine ⟨c :: news, .cons hc hn, ?_⟩
    rw [changed_cons]
    by_cases he : c = constant.2 <;> simp [he]

/-- A class constant that changes gets another name. -/
theorem yields_classRef_changed (i : PoolIndex) :
    Yields ∅ (renameConstant r (.classRef i)) fun old _ c => c ≠ .classRef i →
      ∃ name mapped, old.text i = .ok name ∧ r.mapClassConstant name = .ok mapped ∧
        mapped ≠ name := by
  refine (yields_text i).bind fun name => ?_
  refine (yields_lift fun _ _ _ h => h).bind fun mapped => ?_
  by_cases heq : mapped = name
  · subst heq
    have hsame : replaceText i mapped mapped = pure i := if_pos rfl
    rw [hsame, pure_bind]
    exact yields_pure fun _ _ _ _ hne => absurd rfl hne
  · refine (yields_replaceText i name mapped).bind fun j => ?_
    exact yields_pure fun _ _ _ hm ht _ => ⟨name, mapped, ht.1, hm, heq⟩

theorem yields_changes_classRef (found : List (PoolIndex × Constant × Constant))
    (constants : List (PoolIndex × Constant)) :
    Yields ∅ (changes r found constants) fun old _ out => ∀ index i c,
      (index, .classRef i, c) ∈ out → (index, .classRef i, c) ∈ found ∨
        ∃ name mapped, old.text i = .ok name ∧ r.mapClassConstant name = .ok mapped ∧
          mapped ≠ name := by
  induction constants generalizing found with
  | nil => exact yields_pure fun _ _ _ _ _ hm => .inl hm
  | cons constant constants ih =>
    obtain ⟨index, constant⟩ := constant
    have hstep : Yields ∅ (renameConstant r constant) fun old _ c => ∀ i, constant = .classRef i →
        c ≠ constant → ∃ name mapped, old.text i = .ok name ∧
          r.mapClassConstant name = .ok mapped ∧ mapped ≠ name := by
      cases constant with
      | classRef j =>
        refine (yields_classRef_changed j).mono fun old _ c _ h i hi => ?_
        cases hi
        exact h
      | _ => exact (yields_renameConstant _).mono fun _ _ _ _ _ _ hi => by cases hi
    refine hstep.bind fun c => ?_
    refine (ih _).mono fun old new out _ h hc at_ i c' hm => ?_
    obtain hfound | hrest := h at_ i c' hm
    · split at hfound
      · exact .inl hfound
      · rename_i hne
        obtain heq | hfound := List.mem_cons.1 hfound
        · cases heq
          exact .inr (hc i rfl hne)
        · exact .inl hfound
    · exact .inr hrest

/-- What stands at an address after all replacements. -/
def replacedAll (changes : List (PoolIndex × Constant × Constant)) (entry : Nat × Constant) :
    Nat × Constant :=
  changes.foldl (fun entry change => SlotVec.replaced change.1.toNat change.2.2 entry) entry

theorem replacedAll_of_ne {changes : List (PoolIndex × Constant × Constant)}
    {entry : Nat × Constant} (h : ∀ change ∈ changes, change.1.toNat ≠ entry.1) :
    replacedAll changes entry = entry := by
  induction changes with
  | nil => rfl
  | cons change changes ih =>
    have hr : SlotVec.replaced change.1.toNat change.2.2 entry = entry :=
      if_neg fun he => h change (by simp) he.symm
    show replacedAll changes (SlotVec.replaced change.1.toNat change.2.2 entry) = entry
    rw [hr]
    exact ih fun c hc => h c (by simp [hc])

/-- The entries of a vector as a pool shows them. -/
def indexed (entries : List (Nat × Constant)) : List (PoolIndex × Constant) :=
  entries.map fun entry => (UInt16.ofNat entry.1, entry.2)

theorem toNat_of_mem_changed {entries : List (Nat × Constant)} {news : List Constant}
    (small : ∀ entry ∈ entries, entry.1 < 0x10000) {change : PoolIndex × Constant × Constant}
    (h : change ∈ changed (indexed entries) news) :
    (change.1.toNat, change.2.1) ∈ entries := by
  obtain ⟨index, c, c'⟩ := change
  have hm := (List.of_mem_zip (mem_changed.1 h).1).1
  obtain ⟨entry, he, heq⟩ := List.mem_map.1 hm
  cases heq
  rw [UInt16.toNat_ofNat_of_lt' (small entry he)]
  exact he

/-- Replacing what differs puts every new constant at the address of the old one. -/
theorem forall₂_replacedAll {rel : Nat × Constant → Constant → Prop}
    {entries : List (Nat × Constant)} {news : List Constant} (h : List.Forall₂ rel entries news)
    (nodup : (entries.map (·.1)).Nodup) (small : ∀ entry ∈ entries, entry.1 < 0x10000) :
    List.Forall₂ (fun entry after => after.1 = entry.1 ∧ rel entry after.2) entries
      (entries.map (replacedAll (changed (indexed entries) news))) := by
  induction h with
  | nil => exact .nil
  | @cons entry new entries news hr _ ih =>
    obtain ⟨hnot, nodup⟩ := List.nodup_cons.1 nodup
    have small' : ∀ e ∈ entries, e.1 < 0x10000 := fun e he => small e (by simp [he])
    have hrest : ∀ change ∈ changed (indexed entries) news, change.1.toNat ≠ entry.1 := by
      intro change hc he
      have hm := toNat_of_mem_changed small' hc
      exact hnot (List.mem_map.2 ⟨_, hm, he⟩)
    have hindex : (UInt16.ofNat entry.1).toNat = entry.1 :=
      UInt16.toNat_ofNat_of_lt' (small entry (by simp))
    have hhead : replacedAll (changed (indexed (entry :: entries)) (new :: news)) entry =
        (entry.1, new) := by
      rw [indexed, List.map_cons, changed_cons, replacedAll, List.foldl_append]
      split
      · rename_i he
        rw [List.foldl_nil]
        exact (replacedAll_of_ne hrest).trans (Prod.ext rfl he.symm)
      · rw [List.foldl_cons, List.foldl_nil, SlotVec.replaced, if_pos hindex.symm]
        exact replacedAll_of_ne hrest
    have htail : ∀ e ∈ entries, replacedAll (changed (indexed (entry :: entries)) (new :: news)) e =
        replacedAll (changed (indexed entries) news) e := by
      intro e he
      rw [indexed, List.map_cons, changed_cons, replacedAll, List.foldl_append]
      split
      · rfl
      · have hne : e.1 ≠ (UInt16.ofNat entry.1).toNat := by
          rw [hindex]
          intro heq
          exact hnot (List.mem_map.2 ⟨e, he, heq⟩)
        rw [List.foldl_cons, List.foldl_nil, SlotVec.replaced, if_neg hne]
        rfl
    rw [List.map_cons, hhead, List.map_congr_left htail]
    exact .cons ⟨rfl, hr⟩ (ih nodup small')

/-- The replacements keep the addresses and what is never replaced. -/
theorem applyChanges_ok {changes : List (PoolIndex × Constant × Constant)}
    {pool after : ConstantPool} (hs : pool.Sound)
    (h : applyChanges changes pool = (.ok (), after)) :
    after.Sound ∧ after.slots.next = pool.slots.next ∧
      after.slots.toList = pool.slots.toList.map (replacedAll changes) ∧
      ∀ entry ∈ pool.slots.toList, isFixed entry.2 = true → replacedAll changes entry = entry := by
  induction changes generalizing pool with
  | nil =>
    cases h
    exact ⟨hs, rfl, (List.map_id _).symm, fun _ _ _ => rfl⟩
  | cons change changes ih =>
    obtain ⟨index, c, c'⟩ := change
    obtain ⟨_, mid, hset, h⟩ := bind_ok_iff.1 h
    obtain ⟨old, hold, hfix, -, hn, hl⟩ := set_ok hs hset
    have hm : mid.Sound := by
      have hk := sound_set hs index c'
      rwa [hset] at hk
    obtain ⟨ha, hn', hl', hf⟩ := ih hm h
    refine ⟨ha, hn'.trans hn, ?_, fun entry he hc => ?_⟩
    · rw [hl', hl, List.map_map]
      rfl
    · -- a fixed constant is not the one that is replaced
      have hne : entry.1 ≠ index.toNat := by
        intro heq
        have hsame := hs.laid.eq_of_address (heq ▸ he : (index.toNat, entry.2) ∈ _)
          (hs.get_ok_iff.1 hold)
        rw [hsame, hfix] at hc
        simp at hc
      have hr : SlotVec.replaced index.toNat c' entry = entry := if_neg hne
      show replacedAll changes (SlotVec.replaced index.toNat c' entry) = entry
      rw [hr]
      refine hf entry ?_ hc
      rw [hl]
      exact List.mem_map.2 ⟨entry, he, hr⟩

/-- The old names are the names of the class constants that change, as far as they can be read. -/
theorem oldNames_eq_some {pool : ConstantPool}
    {changes : List (PoolIndex × Constant × Constant)} {index : PoolIndex} {name : String}
    (h : (oldNames pool changes)[index]? = some name) :
    ∃ i c, (index, .classRef i, c) ∈ changes ∧ pool.text i = .ok name := by
  induction changes using List.reverseRecOn with
  | nil => simp [oldNames] at h
  | append_singleton changes change ih =>
    have keep : (oldNames pool changes)[index]? = some name →
        ∃ i c, (index, .classRef i, c) ∈ changes ++ [change] ∧ pool.text i = .ok name := by
      intro hk
      obtain ⟨i, c, hm, ht⟩ := ih hk
      exact ⟨i, c, List.mem_append_left _ hm, ht⟩
    obtain ⟨at_, c, c'⟩ := change
    rw [oldNames, List.foldl_append, List.foldl_cons, List.foldl_nil] at h
    cases c with
    | classRef i =>
      rcases ht : pool.text i with e | text
      · simp only [ht] at h
        exact keep h
      · simp only [ht, Std.HashMap.getElem?_insert] at h
        split at h
        · rename_i hb
          cases h
          exact ⟨i, c', by simp [eq_of_beq hb], ht⟩
        · exact keep h
    | _ => exact keep h

theorem oldNames_ne_none {pool : ConstantPool}
    {changes : List (PoolIndex × Constant × Constant)} {index i : PoolIndex} {c : Constant}
    {name : String} (hm : (index, .classRef i, c) ∈ changes) (ht : pool.text i = .ok name) :
    (oldNames pool changes)[index]? ≠ none := by
  induction changes using List.reverseRecOn with
  | nil => simp at hm
  | append_singleton changes change ih =>
    obtain ⟨at_, c', c''⟩ := change
    rw [oldNames, List.foldl_append, List.foldl_cons, List.foldl_nil]
    rcases List.mem_append.1 hm with hm | hm
    · have hi : (oldNames pool changes)[index]? ≠ none := ih hm
      cases c' with
      | classRef j =>
        rcases hj : pool.text j with e | text
        · simp only [hj]
          exact hi
        · simp only [hj, Std.HashMap.getElem?_insert]
          split
          · simp
          · exact hi
      | _ => exact hi
    · obtain ⟨rfl, rfl, rfl⟩ : index = at_ ∧ .classRef i = c' ∧ c = c'' := by simpa using hm
      simp only [ht, Std.HashMap.getElem?_insert]
      simp

/-- A pool is extended, its first constants are replaced, and then it is extended again. The same
pool without the replacements holds the old constants at the same addresses. -/
theorem forall₂_entries {pool mid replaced : ConstantPool} (hs : pool.Sound) (hg : pool.Grows mid)
    {changes : List (PoolIndex × Constant × Constant)} {news : List Constant}
    (hc : changes = changed pool.toList news)
    (hn : replaced.slots.next = mid.slots.next)
    (hl : replaced.slots.toList = mid.slots.toList.map (replacedAll changes))
    (hf : ∀ entry ∈ mid.slots.toList, isFixed entry.2 = true → replacedAll changes entry = entry)
    {rel : Nat × Constant → Constant → Prop}
    (same : ∀ entry : Nat × Constant, isAddition entry.2 = true → rel entry entry.2)
    (h : List.Forall₂ rel pool.slots.toList news) {added : List Constant}
    (ha : ∀ constant ∈ added, isAddition constant = true) :
    List.Forall₂ (fun entry after => after.1 = entry.1 ∧ rel entry after.2)
      (added.foldl SlotVec.push mid.slots).toList
      (added.foldl SlotVec.push replaced.slots).toList := by
  obtain ⟨first, hfirst, hadd⟩ := hg.toList
  obtain ⟨last, hlast, -, hpush⟩ := SlotVec.exists_toList_foldl_push mid.slots.next added
  have small : ∀ entry ∈ pool.slots.toList, entry.1 < 0x10000 := by
    intro entry he
    have := hs.laid.address_lt he
    have hb : pool.slots.next ≤ 0xFFFF := hs.bound
    omega
  have hold := forall₂_replacedAll h hs.laid.nodup small
  have hfix : first.map (replacedAll changes) = first := by
    refine (List.map_congr_left fun entry he => ?_).trans (List.map_id first)
    exact hf entry (by simp [hfirst, he]) (isFixed_of_isAddition (hadd entry he).1)
  have hrefl : ∀ entries : List (Nat × Constant), (∀ entry ∈ entries, isAddition entry.2 = true) →
      List.Forall₂ (fun entry after : Nat × Constant => after.1 = entry.1 ∧ rel entry after.2)
        entries entries :=
    fun entries he => List.forall₂_same.2 fun entry hm => ⟨rfl, same entry (he entry hm)⟩
  rw [hpush mid.slots rfl, hpush replaced.slots hn, hl, hfirst, List.map_append, hfix, hc]
  refine List.rel_append (List.rel_append hold ?_) ?_
  · exact hrefl first fun entry he => (hadd entry he).1
  · refine hrefl last fun entry he => ha _ ?_
    rw [← hlast]
    exact List.mem_map_of_mem he

theorem mem_toList {pool : ConstantPool} (hs : pool.Sound) {index : PoolIndex}
    {constant : Constant} (h : (index, constant) ∈ pool.toList) :
    pool.get index = .ok constant := by
  obtain ⟨entry, he, heq⟩ := List.mem_map.1 h
  cases heq
  rw [hs.get_ok_iff, UInt16.toNat_ofNat_of_lt' ?_]
  · exact he
  · have := hs.laid.address_lt he
    have hb : pool.slots.next ≤ 0xFFFF := hs.bound
    show entry.1 < 65536
    omega

/-- Every constant that becomes another one is among the changes. -/
theorem forall₂_changed {pool : ConstantPool} {news : List Constant}
    {rel : Constant → Constant → Prop}
    (h : List.Forall₂ (fun entry c => rel entry.2 c) pool.toList news) :
    List.Forall₂ (fun entry c => rel entry.2 c ∧
      (c ≠ entry.2 → (UInt16.ofNat entry.1, entry.2, c) ∈ changed pool.toList news))
      pool.slots.toList news := by
  obtain ⟨hlen, hzip⟩ := List.forall₂_iff_zip.1 h
  have hpairs : List.Forall₂ (fun entry c => rel entry.2 c ∧
      (c ≠ entry.2 → (entry.1, entry.2, c) ∈ changed pool.toList news)) pool.toList news :=
    List.forall₂_iff_zip.2 ⟨hlen, fun hm => ⟨hzip hm, fun hne => mem_changed.2 ⟨hm, hne⟩⟩⟩
  exact List.forall₂_map_left_iff.1 hpairs

/-- The names in `names` are those of the class constants that are replaced, so with their help
every class constant of the final pool leads to its old name. -/
theorem owner_of_nameBefore {pool grown old after : ConstantPool}
    {changes : List (PoolIndex × Constant × Constant)} (hs : pool.Sound) (hgs : grown.Sound)
    (hafter : after.slots.LaidFrom 1) (hgrow : pool.Grows grown) (hold : grown.Grows old)
    (hmem : ∀ index c c', (index, c, c') ∈ changes →
      pool.get index = .ok c ∧ ConstantRenamed r grown grown c c')
    (hfix : ∀ index c, isFixed c = true → after.get index = .ok c → old.get index = .ok c)
    (hentries : ∀ entry ∈ after.slots.toList, ∃ before ∈ old.slots.toList, entry.1 = before.1 ∧
      ConstantRenamed r old after before.2 entry.2 ∧
      (entry.2 ≠ before.2 → (UInt16.ofNat before.1, before.2, entry.2) ∈ changes))
    {index : PoolIndex} {name : String}
    (h : nameBefore (oldNames grown changes) after index = .ok name) :
    old.className index = .ok name := by
  have hol := hold.laid hgs.laid
  unfold nameBefore at h
  split at h
  · rename_i text hn
    cases h
    obtain ⟨i, c, hm, ht⟩ := oldNames_eq_some hn
    have hg := (hgrow.trans hold).get hs.laid (hmem _ _ _ hm).1
    exact className_ok_iff.2 ⟨i, hg, hold.text hgs.laid ht⟩
  · rename_i hn
    obtain ⟨i, hg, ht⟩ := className_ok_iff.1 h
    obtain ⟨⟨address, c⟩, hb, heq, hc, hch⟩ := hentries _ ((get_ok_iff_mem hafter).1 hg)
    dsimp only at heq hc hch
    subst heq
    rw [UInt16.ofNat_toNat] at hch
    by_cases hne : Constant.classRef i = c
    · subst hne
      exact className_ok_iff.2 ⟨i, (get_ok_iff_mem hol).2 hb,
        text_ok_iff.2 (hfix i _ rfl (text_ok_iff.1 ht))⟩
    · -- a class constant that was replaced has its old name among the names
      have hr := (hmem _ _ _ (hch hne)).2
      cases hr with
      | classRef before _ _ => exact absurd hn (oldNames_ne_none (hch hne) before)
      | same plain => exact absurd rfl hne

/-- The steps of renaming the constants: the replacements are found, then put in place. -/
theorem renameConstants_steps {pool mid : ConstantPool} {names : Std.HashMap PoolIndex String}
    (h : renameConstants r pool = (.ok names, mid)) :
    ∃ found grown, changes r [] pool.toList pool = (.ok found, grown) ∧
      names = oldNames grown found.reverse ∧
      applyChanges found.reverse grown = (.ok (), mid) := by
  obtain ⟨constants, p, hlook, h⟩ := bind_ok_iff.1 h
  cases hlook
  obtain ⟨found, grown, hchanges, h⟩ := bind_ok_iff.1 h
  obtain ⟨names', p, hlook, h⟩ := bind_ok_iff.1 h
  cases hlook
  obtain ⟨_, replaced, happly, h⟩ := bind_ok_iff.1 h
  cases h
  exact ⟨found, grown, hchanges, rfl, happly⟩

/-- Only classes that get another name are listed with their old one. -/
theorem mapClassConstant_ne_of_oldNames {pool mid : ConstantPool}
    {names : Std.HashMap PoolIndex String} (hs : pool.Sound)
    (h : renameConstants r pool = (.ok names, mid)) {index : PoolIndex} {name : String}
    (hn : names[index]? = some name) :
    ∃ mapped, r.mapClassConstant name = .ok mapped ∧ mapped ≠ name := by
  obtain ⟨found, grown, hchanges, rfl, -⟩ := renameConstants_steps h
  obtain ⟨i, c, hm, ht⟩ := oldNames_eq_some hn
  obtain ⟨hgs, -, hyields⟩ :=
    yields_changes_classRef [] pool.toList pool found grown hs hchanges
  obtain hnil | ⟨old, mapped, htext, hmap, hne⟩ :=
    hyields grown grown (.self hgs) index i c (List.mem_reverse.1 hm)
  · cases hnil
  · rw [ht] at htext
    cases htext
    exact ⟨mapped, hmap, hne⟩

/-- What is known about the constants of a class once they have been renamed: whatever is added
afterwards, the final pool holds the renamed constants of an extended pool `old`, in which every
text is found and every class has its old name. -/
theorem renameConstants_ok {pool mid : ConstantPool} {names : Std.HashMap PoolIndex String}
    (hs : pool.Sound) (h : renameConstants r pool = (.ok names, mid)) :
    mid.Sound ∧ ∀ after, after.Sound → mid.Grows after → ∃ old, pool.Grows old ∧
      Between names after old after ∧
      List.Forall₂ (fun entry renamed => renamed.1 = entry.1 ∧
        ConstantRenamed r old after entry.2 renamed.2) old.slots.toList after.slots.toList := by
  obtain ⟨out, grown, hchanges, rfl, happly⟩ := renameConstants_steps h
  obtain ⟨hgs, hgrow, hyields⟩ := yields_changes [] pool.toList pool out grown hs hchanges
  obtain ⟨hms, hnext, hlist, hfixed⟩ := applyChanges_ok hgs happly
  refine ⟨hms, fun after hafter hmore => ?_⟩
  have hkept : ∀ index c, isFixed c = true → grown.get index = .ok c → after.get index = .ok c := by
    intro index c hc hg
    refine hmore.get hms.laid (hms.get_ok_iff.2 ?_)
    have hm := hgs.get_ok_iff.1 hg
    rw [hlist]
    exact List.mem_map.2 ⟨_, hm, hfixed _ hm hc⟩
  obtain ⟨added, hadd, hslots, hroom⟩ := hmore
  obtain ⟨old, hos⟩ : ∃ old : ConstantPool, old.slots = added.foldl SlotVec.push grown.slots :=
    ⟨⟨_, ∅⟩, rfl⟩
  have hold : grown.Grows old := ⟨added, hadd, hos, hnext ▸ hroom⟩
  have hbetween : Between ∅ grown old after :=
    ⟨fun _ _ hc hg => ⟨hold.get hgs.laid hg, hkept _ _ hc hg⟩,
      fun _ _ hn => hold.className hgs.laid (by simpa using hn), hafter⟩
  obtain ⟨first, hfirst, hout⟩ := hyields grown grown (.self hgs)
  obtain ⟨news, hnews, hout'⟩ := hyields old after hbetween
  have hchanged : out.reverse = changed pool.toList first := by simp [hout]
  have hchanged' : out.reverse = changed pool.toList news := by simp [hout']
  have hrel := forall₂_changed hnews
  rw [← hchanged'] at hrel
  have hentries := forall₂_entries hs hgrow hchanged' hnext hlist hfixed ?_ hrel hadd
  · rw [← hos, ← hslots] at hentries
    have hol := hold.laid hgs.laid
    have hfix : ∀ index c, isFixed c = true → after.get index = .ok c → old.get index = .ok c := by
      intro index c hc hg
      obtain ⟨before, hb, heq, hr, -⟩ :=
        Fallible.exists_of_mem_right hentries (hafter.get_ok_iff.1 hg)
      rw [get_ok_iff_mem hol]
      exact Prod.ext heq (hr.eq_of_isFixed hc) ▸ hb
    refine ⟨old, hgrow.trans hold, ⟨fun _ _ hc hg => ⟨hfix _ _ hc hg, hg⟩, ?_, hafter⟩,
      hentries.imp fun _ _ he => ⟨he.1, he.2.1⟩⟩
    intro index name hn
    refine owner_of_nameBefore hs hgs hafter.laid hgrow hold (fun i c c' hm => ?_) hfix
      (fun entry he => Fallible.exists_of_mem_right hentries he) hn
    obtain ⟨hz, -⟩ := mem_changed.1 (hchanged ▸ hm)
    exact ⟨mem_toList hs (List.of_mem_zip hz).1, List.forall₂_zip hfirst hz⟩
  · intro entry he
    exact ⟨.same (isSymbolic_of_isAddition he), fun hne => absurd rfl hne⟩

end Renaming

end JarRename
