import Mathlib
import JarRename.Hierarchy.Index
import JarRename.Proofs.Fallible

/-!
# What an index knows

`Summarizes` ties the summary of a class to the texts in its file. An index made from files knows
them by their names, and `get?_build_iff` says that of several definitions of a class the first one
counts.
-/
namespace JarRename

open Fallible

theorem MemberKey.ofTexts_ok_iff {name descriptor : String} {key : MemberKey} :
    MemberKey.ofTexts name descriptor = .ok key ↔
      key.name.text = name ∧ key.descriptor = descriptor := by
  constructor
  · intro h
    unfold MemberKey.ofTexts at h
    split at h
    · rename_i found hf
      cases h
      exact ⟨UnqualifiedName.text_of_ofString hf, rfl⟩
    · simp at h
  · rintro ⟨rfl, rfl⟩
    simp [MemberKey.ofTexts, UnqualifiedName.ofString_text]

namespace ClassSummary

/-- The name and the descriptor of a member, as the pool spells them. -/
def Spells (pool : ConstantPool) (member : Member) (key : MemberKey) : Prop :=
  pool.text member.name = .ok key.name.text ∧ pool.text member.descriptor = .ok key.descriptor

theorem Spells.unique {pool : ConstantPool} {member : Member} {key other : MemberKey}
    (h : Spells pool member key) (ho : Spells pool member other) : key = other := by
  obtain ⟨⟨text, hv⟩, descriptor⟩ := key
  obtain ⟨⟨text', hv'⟩, descriptor'⟩ := other
  obtain ⟨hn, hd⟩ := h
  obtain ⟨hn', hd'⟩ := ho
  rw [hn, Except.ok.injEq] at hn'
  rw [hd, Except.ok.injEq] at hd'
  dsimp only at hn' hd'
  subst hn' hd'
  rfl

theorem nameOf_ok_iff {text : String} {name : BinaryName} :
    nameOf text = .ok name ↔ text = name.text := by
  constructor
  · intro h
    unfold nameOf at h
    split at h
    · rename_i found hf
      cases h
      exact (BinaryName.text_of_ofString hf).symm
    · simp at h
  · rintro rfl
    simp [nameOf, BinaryName.ofString_text]

theorem option_nameOf_ok_iff {text : Option String} {name : Option BinaryName} :
    text.mapM nameOf = .ok name ↔ text = name.map (·.text) := by
  cases text with
  | none => simp [pure, Except.pure, eq_comm]
  | some text => cases name <;> simp [map_ok_iff, nameOf_ok_iff]

theorem mapM_nameOf_ok_iff {texts : List String} {names : List BinaryName} :
    texts.mapM nameOf = .ok names ↔ texts = names.map (·.text) := by
  rw [mapM_ok_iff]
  simp only [nameOf_ok_iff]
  rw [← List.forall₂_map_right_iff (R := Eq), List.forall₂_eq_eq_eq]

/-- Adds one member to a table. -/
def addMember (pool : ConstantPool) (table : Std.HashMap MemberKey AccessFlags) (member : Member) :
    Except ClassError (Std.HashMap MemberKey AccessFlags) := do
  let name ← pool.text member.name
  let key ← MemberKey.ofTexts name (← pool.text member.descriptor)
  return table.insert key member.flags

theorem membersOf_eq (pool : ConstantPool) (members : List Member) :
    membersOf pool members = members.foldlM (addMember pool) ∅ := rfl

theorem addMember_ok_iff {pool : ConstantPool} {table after : Std.HashMap MemberKey AccessFlags}
    {member : Member} : addMember pool table member = .ok after ↔
      ∃ key, Spells pool member key ∧ after = table.insert key member.flags := by
  simp only [addMember, bind_ok_iff, MemberKey.ofTexts_ok_iff, pure, Except.pure, Except.ok.injEq]
  constructor
  · rintro ⟨name, hn, descriptor, hd, key, ⟨rfl, rfl⟩, rfl⟩
    exact ⟨key, ⟨hn, hd⟩, rfl⟩
  · rintro ⟨key, ⟨hn, hd⟩, rfl⟩
    exact ⟨_, hn, _, hd, key, ⟨rfl, rfl⟩, rfl⟩

theorem foldlM_addMember {pool : ConstantPool} {members : List Member} {keys : List MemberKey}
    (h : List.Forall₂ (Spells pool) members keys) (table : Std.HashMap MemberKey AccessFlags) :
    ∃ after, members.foldlM (addMember pool) table = .ok after ∧
      ∀ key, after.contains key = true ↔ table.contains key = true ∨ key ∈ keys := by
  induction h generalizing table with
  | nil => exact ⟨table, rfl, by simp⟩
  | @cons member key members keys hk _ ih =>
    obtain ⟨after, ha, hc⟩ := ih (table.insert key member.flags)
    refine ⟨after, ?_, fun other => ?_⟩
    · rw [List.foldlM_cons, addMember_ok_iff.2 ⟨key, hk, rfl⟩]
      exact ha
    · rw [hc, Std.HashMap.contains_insert, List.mem_cons, Bool.or_eq_true, beq_iff_eq, eq_comm]
      tauto

theorem exists_keys_of_foldlM {pool : ConstantPool} {members : List Member}
    {table after : Std.HashMap MemberKey AccessFlags}
    (h : members.foldlM (addMember pool) table = .ok after) :
    ∃ keys, List.Forall₂ (Spells pool) members keys := by
  induction members generalizing table with
  | nil => exact ⟨[], .nil⟩
  | cons member members ih =>
    rw [List.foldlM_cons, bind_ok_iff] at h
    obtain ⟨mid, hm, hrest⟩ := h
    obtain ⟨key, hk, -⟩ := addMember_ok_iff.1 hm
    obtain ⟨keys, hkeys⟩ := ih hrest
    exact ⟨key :: keys, .cons hk hkeys⟩

/-- A table holds the keys of the members and no others. -/
theorem membersOf_of_spells {pool : ConstantPool} {members : List Member} {keys : List MemberKey}
    (h : List.Forall₂ (Spells pool) members keys) :
    ∃ table, membersOf pool members = .ok table ∧
      ∀ key, table.contains key = true ↔ key ∈ keys := by
  simpa [membersOf_eq] using foldlM_addMember h ∅

theorem spells_of_membersOf {pool : ConstantPool} {members : List Member}
    {table : Std.HashMap MemberKey AccessFlags} (h : membersOf pool members = .ok table) :
    ∃ keys, List.Forall₂ (Spells pool) members keys ∧
      ∀ key, table.contains key = true ↔ key ∈ keys := by
  obtain ⟨keys, hk⟩ := exists_keys_of_foldlM h
  obtain ⟨other, ho, hc⟩ := membersOf_of_spells hk
  rw [h] at ho
  cases ho
  exact ⟨keys, hk, hc⟩

theorem contains_membersOf_iff {pool : ConstantPool} {members : List Member}
    {table : Std.HashMap MemberKey AccessFlags} {key : MemberKey}
    (h : membersOf pool members = .ok table) :
    table.contains key = true ↔ ∃ member ∈ members, Spells pool member key := by
  obtain ⟨keys, hkeys, hc⟩ := spells_of_membersOf h
  rw [hc]
  constructor
  · exact exists_of_mem_right hkeys
  · rintro ⟨member, hm, hs⟩
    obtain ⟨own, hown, hs'⟩ := exists_of_mem_left hkeys hm
    exact hs.unique hs' ▸ hown

/-- The flags in a table are those of a member. -/
theorem exists_member_of_membersOf {pool : ConstantPool} {members : List Member}
    {table : Std.HashMap MemberKey AccessFlags} {key : MemberKey} {flags : AccessFlags}
    (h : membersOf pool members = .ok table) (hf : table[key]? = some flags) :
    ∃ member ∈ members, Spells pool member key ∧ member.flags = flags := by
  have hfrom : ∀ start : Std.HashMap MemberKey AccessFlags,
      members.foldlM (addMember pool) start = .ok table →
      start[key]? = some flags ∨
        ∃ member ∈ members, Spells pool member key ∧ member.flags = flags := by
    clear h
    induction members with
    | nil =>
      intro start h
      cases h
      exact .inl hf
    | cons member members ih =>
      intro start h
      rw [List.foldlM_cons, bind_ok_iff] at h
      obtain ⟨mid, hm, hrest⟩ := h
      obtain ⟨own, hown, rfl⟩ := addMember_ok_iff.1 hm
      rcases ih _ hrest with hmid | ⟨other, ho, hspells⟩
      · rw [Std.HashMap.getElem?_insert] at hmid
        split at hmid
        · rename_i heq
          obtain rfl := eq_of_beq heq
          exact .inr ⟨member, by simp, hown, Option.some.inj hmid⟩
        · exact .inl hmid
      · exact .inr ⟨other, by simp [ho], hspells⟩
  exact (hfrom ∅ (membersOf_eq pool members ▸ h)).resolve_left (by simp)

/-- The summary says what the file says. -/
structure Summarizes (file : ClassFile) (summary : ClassSummary) : Prop where
  name : file.name = .ok summary.name.text
  flags : summary.flags = file.flags
  superName : file.superName = .ok (summary.superClass.map (·.text))
  interfaceNames : file.interfaceNames = .ok (summary.interfaces.map (·.text))
  fields : membersOf file.pool file.fields = .ok summary.fields
  methods : membersOf file.pool file.methods = .ok summary.methods

theorem ofClassFile_ok_iff {file : ClassFile} {summary : ClassSummary} :
    ofClassFile file = .ok summary ↔ Summarizes file summary := by
  simp only [ofClassFile, bind_ok_iff, nameOf_ok_iff, option_nameOf_ok_iff, mapM_nameOf_ok_iff,
    pure, Except.pure, Except.ok.injEq]
  constructor
  · rintro ⟨_, hn, name, rfl, _, hs, superClass, rfl, _, hi, interfaces, rfl, fields, hf, methods,
      hm, rfl⟩
    exact ⟨hn, rfl, hs, hi, hf, hm⟩
  · intro h
    exact ⟨_, h.name, _, rfl, _, h.superName, _, rfl, _, h.interfaceNames, _, rfl, _, h.fields, _,
      h.methods, h.flags ▸ rfl⟩

theorem ofBytes_ok_iff {bytes : Bytes} {summary : ClassSummary} :
    ofBytes bytes = .ok summary ↔ ∃ file, ClassFile.parse bytes = .ok file ∧
      Summarizes file summary := by
  simp only [ofBytes, bind_ok_iff, ofClassFile_ok_iff]

/-- The members that a class file declares. -/
def declared (file : ClassFile) : MemberKind → List Member
  | .field => file.fields
  | .method => file.methods

/-- A summary says of the members that the file declares that it does, and of no others. -/
theorem Summarizes.declares_iff {file : ClassFile} {summary : ClassSummary}
    (h : Summarizes file summary) (kind : MemberKind) (key : MemberKey) :
    summary.declares kind key = true ↔
      ∃ member ∈ declared file kind, Spells file.pool member key := by
  cases kind with
  | field => exact contains_membersOf_iff h.fields
  | method => exact contains_membersOf_iff h.methods

end ClassSummary

namespace ClassIndex

open ClassSummary

variable {index : ClassIndex} {name : BinaryName} {summary : ClassSummary}

@[simp] theorem find?_text (index : ClassIndex) (name : BinaryName) :
    index.find? name.text = index.get? name := by
  simp [find?]

theorem exists_name_of_find? {text : String} (h : index.find? text = some summary) :
    ∃ name : BinaryName, name.text = text ∧ index.get? name = some summary := by
  obtain ⟨name, hn, hg⟩ := Option.bind_eq_some_iff.1 h
  exact ⟨name, BinaryName.text_of_ofString? hn, hg⟩

/-- Classes stand under their own names. -/
def Keyed (index : ClassIndex) : Prop :=
  ∀ name summary, index.get? name = some summary → summary.name = name

/-- The index of classes in memory. -/
def ofFiles (files : List ClassFile) : Except ClassError ClassIndex := do
  return (← files.mapM ofClassFile).foldl insert empty

theorem ofFiles_ok_iff {files : List ClassFile} :
    ofFiles files = .ok index ↔ ∃ summaries, List.Forall₂ Summarizes files summaries ∧
      summaries.foldl insert empty = index := by
  simp only [ofFiles, bind_ok_iff, mapM_ok_iff, ofClassFile_ok_iff, pure, Except.pure,
    Except.ok.injEq]

/-- What an entry adds to an index. -/
def summaryOf (entry : String × Bytes) : Except EntryError ClassSummary :=
  (ofBytes entry.2).mapError fun cause => ⟨entry.1, cause⟩

theorem summaryOf_ok_iff {entry : String × Bytes} {summary : ClassSummary} :
    summaryOf entry = .ok summary ↔ ofBytes entry.2 = .ok summary := mapError_ok_iff

/-- All entries are read, and the classes in them are added in their order. -/
theorem build_eq (entries : List (String × Bytes)) :
    build entries = (fun summaries => summaries.foldl insert empty) <$> entries.mapM summaryOf := by
  rw [← foldlM_map, build]
  congr 1
  funext index ⟨path, bytes⟩
  cases hb : ofBytes bytes <;> simp only [summaryOf, hb] <;> rfl

theorem get?_insert (index : ClassIndex) (summary : ClassSummary) (name : BinaryName) :
    (index.insert summary).get? name =
      (index.get? name).or (if summary.name = name then some summary else none) := by
  simp only [get?, insert, Std.HashMap.getElem?_insertIfNew, beq_iff_eq]
  by_cases hn : summary.name = name
  · subst hn
    rcases hg : index.classes[summary.name]? with _ | other
    · have hm : summary.name ∉ index.classes := fun h => by
        simp [Std.HashMap.mem_iff_isSome_getElem?, hg] at h
      simp [hm]
    · have hm : summary.name ∈ index.classes := by
        simp [Std.HashMap.mem_iff_isSome_getElem?, hg]
      simp [hm]
  · simp [hn]

/-- Of several classes of one name the first one counts. -/
theorem get?_foldl_insert (summaries : List ClassSummary) (index : ClassIndex) (name : BinaryName) :
    (summaries.foldl insert index).get? name =
      (index.get? name).or (summaries.find? fun summary => summary.name = name) := by
  induction summaries generalizing index with
  | nil => simp
  | cons summary summaries ih =>
    rw [List.foldl_cons, ih, get?_insert, List.find?_cons, Option.or_assoc]
    by_cases hn : summary.name = name <;> simp [hn]

theorem get?_empty (name : BinaryName) : empty.get? name = none := by
  simp [get?, empty]

/-- Whether an entry holds the class `name`. -/
def Defines (entry : String × Bytes) (name : BinaryName) : Prop :=
  ∃ summary, ofBytes entry.2 = .ok summary ∧ summary.name = name

theorem exists_build_of_defines {entries : List (String × Bytes)}
    (h : ∀ entry ∈ entries, ∃ name, Defines entry name) : ∃ index, build entries = .ok index := by
  cases hb : build entries with
  | ok index => exact ⟨index, rfl⟩
  | error e =>
    rw [build_eq, map_error_iff, mapM_error_iff] at hb
    obtain ⟨front, entry, back, rfl, he, -⟩ := hb
    obtain ⟨name, summary, hs, -⟩ := h entry (by simp)
    rw [summaryOf_ok_iff.2 hs] at he
    cases he

/-- `summary` is what the first entry says that defines the class `name`. -/
def FirstDefinition (entries : List (String × Bytes)) (name : BinaryName) (summary : ClassSummary) :
    Prop :=
  ∃ before entry after, entries = before ++ entry :: after ∧ ofBytes entry.2 = .ok summary ∧
    summary.name = name ∧ ∀ other ∈ before, ∀ found, ofBytes other.2 = .ok found → found.name ≠ name

theorem find?_eq_some_iff {entries : List (String × Bytes)} {summaries : List ClassSummary}
    {name : BinaryName} {summary : ClassSummary}
    (h : List.Forall₂ (fun entry summary => ofBytes entry.2 = .ok summary) entries summaries) :
    (summaries.find? fun summary => summary.name = name) = some summary ↔
      FirstDefinition entries name summary := by
  induction h with
  | nil => simp [FirstDefinition]
  | @cons entry own entries summaries hown _ ih =>
    by_cases hn : own.name = name
    · rw [List.find?_cons_of_pos (by simpa using hn), Option.some.injEq]
      constructor
      · rintro rfl
        exact ⟨[], entry, entries, rfl, hown, hn, by simp⟩
      · rintro ⟨before, other, after, heq, hother, -, hb⟩
        cases before with
        | nil =>
          cases heq
          rw [hown] at hother
          exact Except.ok.inj hother
        | cons _ before =>
          cases heq
          exact absurd hn (hb entry (by simp) own hown)
    · rw [List.find?_cons_of_neg (by simpa using hn), ih]
      constructor
      · rintro ⟨before, other, after, rfl, hother, hname, hb⟩
        refine ⟨entry :: before, other, after, rfl, hother, hname, ?_⟩
        simpa [hown, hn] using hb
      · rintro ⟨before, other, after, heq, hother, hname, hb⟩
        cases before with
        | nil =>
          cases heq
          rw [hown] at hother
          cases hother
          exact absurd hname hn
        | cons _ before =>
          cases heq
          exact ⟨before, other, after, rfl, hother, hname, fun x hx => hb x (by simp [hx])⟩

theorem get?_build_iff {entries : List (String × Bytes)} {index : ClassIndex} {name : BinaryName}
    {summary : ClassSummary} (h : build entries = .ok index) :
    index.get? name = some summary ↔ FirstDefinition entries name summary := by
  rw [build_eq] at h
  obtain ⟨summaries, hs, rfl⟩ := map_ok_iff.1 h
  simp only [mapM_ok_iff, summaryOf_ok_iff] at hs
  rw [get?_foldl_insert, get?_empty, Option.none_or, find?_eq_some_iff hs]

/-- The indexes that there are: classes are only ever added. -/
inductive Made : ClassIndex → Prop
  | empty : Made .empty
  | insert {index : ClassIndex} (prior : Made index) (summary : ClassSummary) :
      Made (index.insert summary)

theorem Made.keyed (h : Made index) : index.Keyed := by
  induction h with
  | empty =>
    intro name summary hg
    simp [get?_empty] at hg
  | insert _ added ih =>
    intro name summary hg
    rw [get?_insert] at hg
    rcases Option.or_eq_some_iff.1 hg with hg | ⟨-, hg⟩
    · exact ih name summary hg
    · split at hg
      · rename_i hn
        cases hg
        exact hn
      · cases hg

theorem Made.foldl_insert (h : Made index) (summaries : List ClassSummary) :
    Made (summaries.foldl ClassIndex.insert index) := by
  induction summaries generalizing index with
  | nil => exact h
  | cons summary summaries ih => exact ih (h.insert summary)

theorem made_of_build {entries : List (String × Bytes)} (h : build entries = .ok index) :
    Made index := by
  rw [build_eq] at h
  obtain ⟨summaries, -, rfl⟩ := map_ok_iff.1 h
  exact Made.empty.foldl_insert summaries

section Distinct

variable {summaries : List ClassSummary}

theorem get?_foldl_insert_iff (h : (summaries.map (·.name)).Nodup) :
    (summaries.foldl insert empty).get? name = some summary ↔
      summary ∈ summaries ∧ summary.name = name := by
  rw [get?_foldl_insert, get?_empty, Option.none_or]
  constructor
  · intro hf
    exact ⟨List.mem_of_find?_eq_some hf, by simpa using List.find?_some hf⟩
  · rintro ⟨hm, rfl⟩
    have hsome : (summaries.find? fun other => other.name = summary.name).isSome :=
      List.find?_isSome.2 ⟨summary, hm, by simp⟩
    obtain ⟨found, hf⟩ := Option.isSome_iff_exists.1 hsome
    have hsame : found.name = summary.name := by simpa using List.find?_some hf
    rw [hf, List.inj_on_of_nodup_map h (List.mem_of_find?_eq_some hf) hm hsame]

theorem size_foldl_insert (h : (summaries.map (·.name)).Nodup) {index : ClassIndex}
    (hnew : ∀ summary ∈ summaries, index.get? summary.name = none) :
    (summaries.foldl insert index).size = index.size + summaries.length := by
  induction summaries generalizing index with
  | nil => rfl
  | cons summary summaries ih =>
    obtain ⟨hnot, hnodup⟩ := List.nodup_cons.1 h
    have hm : summary.name ∉ index.classes := fun hm => by
      have hg : index.classes[summary.name]? = none := hnew summary (by simp)
      simp [Std.HashMap.mem_iff_isSome_getElem?, hg] at hm
    have hsize : (index.insert summary).size = index.size + 1 := by
      simp [size, insert, Std.HashMap.size_insertIfNew, hm]
    rw [List.foldl_cons, ih hnodup, hsize, List.length_cons]
    · omega
    · intro other ho
      have hne : summary.name ≠ other.name := by
        intro heq
        exact hnot (List.mem_map.2 ⟨other, ho, heq.symm⟩)
      rw [get?_insert, hnew other (by simp [ho]), if_neg hne]
      rfl

theorem keyed_foldl_insert (h : (summaries.map (·.name)).Nodup) :
    Keyed (summaries.foldl insert empty) :=
  fun _ _ hg => ((get?_foldl_insert_iff h).1 hg).2

end Distinct

end ClassIndex

end JarRename
