import Mathlib
import JarRename.Proofs.Hierarchy.BreadthFirst
import JarRename.Proofs.MemberMappings
import JarRename.Proofs.Renaming.Summaries

/-!
# Linking commutes with renaming

When all classes of an archive are renamed, a reference finds the renamed declaration of what it
found before. The declaration is renamed in the class that holds it, the reference through the class
that it names, and both come to the same name.
-/
namespace JarRename

open Relation ClassSummary ClassIndex Renaming

namespace ClassIndex

variable {rename : BinaryName → BinaryName}
  {moved : MemberKind → BinaryName → MemberKey → MemberKey → Prop}
  {summaries summaries' : List ClassSummary}

theorem nodup_names {files : List ClassFile} (h : (files.map (·.name)).Nodup)
    (hs : List.Forall₂ Summarizes files summaries) : (summaries.map (·.name)).Nodup := by
  have hnames : files.map (·.name) = (summaries.map (·.name)).map fun name => .ok name.text := by
    induction hs with
    | nil => rfl
    | cons hsum _ ih => simp [hsum.name, ih (List.nodup_cons.1 h).2]
  rw [hnames] at h
  exact h.of_map

theorem map_name_eq (hr : List.Forall₂ (SummaryRenamed rename moved) summaries summaries') :
    summaries'.map (·.name) = (summaries.map (·.name)).map rename := by
  induction hr with
  | nil => rfl
  | cons hs _ ih => simp [hs.name, ih]

/-- Indexing the renamed classes gives an image of the index. -/
theorem image_foldl_insert (hn : (summaries.map (·.name)).Nodup)
    (hr : List.Forall₂ (SummaryRenamed rename moved) summaries summaries')
    (hi : Set.InjOn rename {name | (summaries.foldl insert empty).Mentions name}) :
    (summaries'.map (·.name)).Nodup ∧
      Image rename moved (summaries.foldl insert empty) (summaries'.foldl insert empty) := by
  have hmem : ∀ name ∈ summaries.map (·.name), (summaries.foldl insert empty).Mentions name := by
    intro name hm
    obtain ⟨summary, hs, rfl⟩ := List.mem_map.1 hm
    exact .inl ⟨summary, (get?_foldl_insert_iff hn).2 ⟨hs, rfl⟩⟩
  have hn' : (summaries'.map (·.name)).Nodup := by
    rw [map_name_eq hr]
    exact hn.map_on fun a ha b hb heq => hi (hmem a ha) (hmem b hb) heq
  refine ⟨hn', hi, ?_, fun name summary hg => ?_, fun name' summary' hg => ?_⟩
  · rw [size_foldl_insert hn fun _ _ => get?_empty _, size_foldl_insert hn' fun _ _ => get?_empty _,
      hr.length_eq]
  · obtain ⟨hm, rfl⟩ := (get?_foldl_insert_iff hn).1 hg
    obtain ⟨summary', hm', hs⟩ := Fallible.exists_of_mem_left hr hm
    exact ⟨summary', (get?_foldl_insert_iff hn').2 ⟨hm', hs.name⟩, hs⟩
  · obtain ⟨hm, rfl⟩ := (get?_foldl_insert_iff hn').1 hg
    obtain ⟨summary, hm', hs⟩ := Fallible.exists_of_mem_right hr hm
    exact ⟨summary.name, summary, (get?_foldl_insert_iff hn).2 ⟨hm', rfl⟩, hs.name.symm⟩

/-- Whether `owner` declares the member and is `start` or one of its supertypes. -/
def DeclaresAbove (index : ClassIndex) (start : BinaryName) (kind : MemberKind) (owner : BinaryName)
    (key : MemberKey) : Prop :=
  ReflTransGen index.Extends start owner ∧
    ∃ summary, index.get? owner = some summary ∧ summary.declares kind key = true

end ClassIndex

/-- Different members of one hierarchy stay different. -/
def Renaming.KeepsApart (r : Remapper) : Prop :=
  ∀ start kind owner owner' key key' renamed,
    r.index.DeclaresAbove start kind owner key → r.index.DeclaresAbove start kind owner' key' →
      KeyRenamed r kind owner key renamed → KeyRenamed r kind owner' key' renamed → key = key'

namespace Renaming

variable {r : Remapper} {files : List ClassFile} {outs : List (String × ClassFile)}
  {summaries : List ClassSummary}

theorem summaries_renamed (hp : ∀ file ∈ files, file.pool.Reachable)
    (hs : List.Forall₂ Summarizes files summaries)
    (hr : List.Forall₂ (fun file out => r.renameClass file = .ok out) files outs) :
    ∃ summaries', List.Forall₂ Summarizes (outs.map (·.2)) summaries' ∧
      List.Forall₂ (SummaryRenamed r.mappings.mapBinaryName (KeyRenamed r)) summaries
        summaries' := by
  induction hr generalizing summaries with
  | nil =>
    cases hs
    exact ⟨[], .nil, .nil⟩
  | @cons file out files outs hout _ ih =>
    cases hs with
    | cons hsum hs =>
      obtain ⟨summary', hsum', hren⟩ := summarizes_renamed (hp file (by simp)).sound hout hsum
      obtain ⟨summaries', hs', hrens⟩ := ih (fun other ho => hp other (by simp [ho])) hs
      exact ⟨summary' :: summaries', .cons hsum' hs', .cons hren hrens⟩

/-- The declaration that a reference leads to was renamed with its class. -/
theorem exists_key_of_image {image : ClassIndex} {kind : MemberKind} {owner : BinaryName}
    {summary : ClassSummary} {key : MemberKey}
    (h : Image r.mappings.mapBinaryName (KeyRenamed r) r.index image) (hk : r.index.Keyed)
    (hg : r.index.get? owner = some summary) (hd : summary.declares kind key = true) :
    ∃ key', KeyRenamed r kind owner key key' := by
  obtain ⟨summary', -, hs⟩ := h.get owner summary hg
  obtain ⟨key', hkey, -⟩ := hs.declared kind key hd
  exact ⟨key', hk owner summary hg ▸ hkey⟩

section Sample

open ClassFile ConstantPool

/-- The bytes of a class `C` that extends `A`. It overrides the method `m`, and refers to the field
`f` and to the method through itself. -/
def subclassBytes : Bytes :=
  [202, 254, 186, 190, 0, 0, 0, 52, 0, 13, 1, 0, 1, 67, 7, 0, 1, 1, 0, 1, 65, 7, 0, 3, 1, 0, 1, 109,
   1, 0, 6, 40, 76, 65, 59, 41, 86, 1, 0, 1, 102, 1, 0, 1, 73, 12, 0, 7, 0, 8, 9, 0, 2, 0, 9, 12, 0,
   5, 0, 6, 10, 0, 2, 0, 11, 0, 33, 0, 2, 0, 4, 0, 0, 0, 0, 0, 1, 0, 1, 0, 5, 0, 6, 0, 0, 0, 0]

/-- The class that `subclassBytes` stand for. -/
def subclass : ClassFile := (parse subclassBytes).toOption.getD default

def subclassName : BinaryName := ⟨"C", by decide +kernel⟩

/-- The constants of `subclass`. -/
def subclassConstants : List (PoolIndex × Constant) :=
  [(1, .utf8 "C"), (2, .classRef 1), (3, .utf8 "A"), (4, .classRef 3), (5, .utf8 "m"),
    (6, .utf8 "(LA;)V"), (7, .utf8 "f"), (8, .utf8 "I"), (9, .nameAndType 7 8), (10, .fieldRef 2 9),
    (11, .nameAndType 5 6), (12, .methodRef 2 11 false)]

theorem parse_subclass : parse subclassBytes = .ok subclass :=
  Fallible.eq_ok_getD (by decide +kernel)

theorem pool_subclass : subclass.pool.toList = subclassConstants ∧
    subclass.pool.slots.next = 13 := by
  have h : (fun file : ClassFile => (file.pool.toList, file.pool.slots.next)) <$>
      parse subclassBytes = .ok (subclassConstants, 13) := by decide +kernel
  rw [parse_subclass] at h
  exact Prod.ext_iff.1 (Except.ok.inj h)

theorem members_subclass : subclass.thisClass = 2 ∧ subclass.fields = [] ∧
    subclass.methods = [⟨1, 5, 6, []⟩] ∧ subclass.attributes = [] := by
  have h : (fun file : ClassFile => (file.thisClass, file.fields, file.methods,
      file.attributes)) <$> parse subclassBytes = .ok (2, [], [⟨1, 5, 6, []⟩], []) := by
    decide +kernel
  rw [parse_subclass] at h
  simpa using Except.ok.inj h

theorem sound_subclass : subclass.pool.Sound := (reachable_of_parse parse_subclass).sound

theorem get_subclass {index : PoolIndex} {constant : Constant}
    (h : (index, constant) ∈ subclassConstants) : subclass.pool.get index = .ok constant :=
  mem_toList sound_subclass (pool_subclass.1 ▸ h)

theorem text_subclass {index : PoolIndex} {text : String}
    (h : (index, .utf8 text) ∈ subclassConstants) : subclass.pool.text index = .ok text :=
  text_ok_iff.2 (get_subclass h)

theorem className_subclass : subclass.pool.className 2 = .ok subclassName.text :=
  className_ok_iff.2 ⟨1, get_subclass (by decide), text_subclass (by decide)⟩

theorem name_subclass : subclass.name = .ok subclassName.text := by
  rw [ClassFile.name, members_subclass.1, className_subclass]

theorem mapClass_subclass (index : ClassIndex) : (sampleRemapper index).mapClass "C" = "C" := by
  have hname : BinaryName.ofString? "C" = some subclassName :=
    BinaryName.ofString?_text subclassName
  have hne : sampleName ≠ subclassName := by decide
  have hg : (sampleRemapper index).mappings.classes.get? "C" = none := by
    simp [sampleRemapper, MappingSet.empty, MappingSet.insertMethod, MappingSet.insertField,
      MappingSet.insertClass, ClassTable.get?, ClassTable.insert, ClassTable.empty, hname,
      Std.HashMap.getElem?_insert, hne]
  show String.ofList ((sampleRemapper index).mappings.classes.mapName "C".toList) = "C"
  rw [ClassTable.mapName_eq, String.ofList_toList, hg]
  rfl

theorem renameClass_subclass (index : ClassIndex) : ∃ renamed,
    (sampleRemapper index).renameClass subclass = .ok ("C", renamed) := by
  have howner : ∃ name, subclass.pool.className 2 = .ok name := ⟨_, className_subclass⟩
  have hmapped : (sampleRemapper index).mapClass "A" = "B" := mapClass_sample index
  have hsame : (sampleRemapper index).mapClassConstant "C" = .ok "C" := by
    rw [Remapper.mapClassConstant, if_neg (by decide), mapClass_subclass]
  have hthis : ConstantReady (sampleRemapper index) subclass.pool (.classRef 1) :=
    ⟨"C", "C", text_subclass (by decide), hsame, .inl rfl⟩
  have hsuper : ConstantReady (sampleRemapper index) subclass.pool (.classRef 3) :=
    ⟨"A", "B", text_subclass (by decide), mapClassConstant_sample index, .inr (by decide +kernel)⟩
  have hfield : ConstantReady (sampleRemapper index) subclass.pool (.fieldRef 2 9) :=
    ⟨howner, "f", "I", nameAndDescriptor_ok_iff.2 ⟨7, 8, get_subclass (by decide),
      text_subclass (by decide), text_subclass (by decide)⟩, spelled_sampleKey _⟩
  have hmethod : ConstantReady (sampleRemapper index) subclass.pool (.methodRef 2 11 false) :=
    ⟨howner, "m", "(LA;)V", nameAndDescriptor_ok_iff.2 ⟨5, 6, get_subclass (by decide),
      text_subclass (by decide), text_subclass (by decide)⟩, spelled_methodKey (.inr hmapped)⟩
  obtain ⟨-, hfields, hmethods, hattributes⟩ := members_subclass
  have hready : ClassReady (sampleRemapper index) subclass [] [2] [] := by
    refine ⟨⟨_, name_subclass⟩, ?_, ?_, ?_, ?_, ?_⟩
    · rw [pool_subclass.1]
      intro entry hm
      fin_cases hm <;>
        first | exact hthis | exact hsuper | exact hfield | exact hmethod | exact True.intro
    · rw [hfields]
      exact .nil
    · rw [hmethods]
      exact .cons (.mk (text_subclass (by decide)) (text_subclass (by decide))
        (spelled_methodKey (.inr hmapped)) .nil) .nil
    · rw [hattributes]
      exact .nil
    · rw [pool_subclass.1, pool_subclass.2]
      decide
  exact renameClass_of_ready (brief_sample index) sound_subclass name_subclass hsame hready

/-- What indexing finds in a class, given by its bytes. -/
theorem exists_summarizes {bytes : Bytes} {file : ClassFile} {name : BinaryName}
    {supertypes : List BinaryName} (hp : parse bytes = .ok file)
    (h : (fun summary => (summary.name, summary.supertypes)) <$> ofBytes bytes =
      .ok (name, supertypes)) :
    ∃ summary, Summarizes file summary ∧ summary.name = name ∧ summary.supertypes = supertypes := by
  obtain ⟨summary, hs, hparts⟩ := Fallible.map_ok_iff.1 h
  obtain ⟨found, hfound, hsum⟩ := ofBytes_ok_iff.1 hs
  obtain rfl := Except.ok.inj (hp.symm.trans hfound)
  exact ⟨summary, hsum, Prod.ext_iff.1 hparts⟩

theorem summarizes_sample : ∃ summary, Summarizes .sample summary ∧ summary.name = sampleName ∧
    summary.supertypes = [] :=
  exists_summarizes parse_sample (by decide +kernel)

theorem summarizes_subclass : ∃ summary, Summarizes subclass summary ∧
    summary.name = subclassName ∧ summary.supertypes = [sampleName] :=
  exists_summarizes parse_subclass (by decide +kernel)

/-- The field or the method of `sample`. -/
def memberOf : MemberKind → MemberKey
  | .field => sampleKey
  | .method => methodKey

theorem spells_sample {kind : MemberKind} {key : MemberKey} :
    (∃ member ∈ declared .sample kind, Spells ClassFile.sample.pool member key) ↔
      key = memberOf kind := by
  obtain ⟨hfields, hmethods, -⟩ := members_sample
  cases kind with
  | field =>
    have hspells : Spells ClassFile.sample.pool ⟨0, 3, 4, []⟩ sampleKey :=
      ⟨text_sample (by decide), text_sample (by decide)⟩
    simp only [declared, hfields, List.mem_singleton, exists_eq_left]
    exact ⟨fun h => h.unique hspells, fun h => h ▸ hspells⟩
  | method =>
    have hspells : Spells ClassFile.sample.pool ⟨1, 7, 8, [⟨13, sampleCode.write⟩]⟩ methodKey :=
      ⟨text_sample (by decide), text_sample (by decide)⟩
    simp only [declared, hmethods, List.mem_singleton, exists_eq_left]
    exact ⟨fun h => h.unique hspells, fun h => h ▸ hspells⟩

theorem spells_subclass {kind : MemberKind} {key : MemberKey} :
    (∃ member ∈ declared subclass kind, Spells subclass.pool member key) ↔
      kind = .method ∧ key = methodKey := by
  obtain ⟨-, hfields, hmethods, -⟩ := members_subclass
  cases kind with
  | field => simp [declared, hfields]
  | method =>
    have hspells : Spells subclass.pool ⟨1, 5, 6, []⟩ methodKey :=
      ⟨text_subclass (by decide), text_subclass (by decide)⟩
    simp only [declared, hmethods, List.mem_singleton, exists_eq_left, true_and]
    exact ⟨fun h => h.unique hspells, fun h => h ▸ hspells⟩

/-- What is known of the index of `sample` and `subclass`. -/
structure IndexesSamples (index : ClassIndex) : Prop where
  files : ofFiles [.sample, subclass] = .ok index
  keyed : index.Keyed
  sample : ∃ summary, index.get? sampleName = some summary ∧ Summarizes .sample summary ∧
    summary.supertypes = []
  subclass : ∃ summary, index.get? subclassName = some summary ∧ Summarizes subclass summary ∧
    summary.supertypes = [sampleName]
  only : ∀ name summary, index.get? name = some summary → name = sampleName ∨ name = subclassName

theorem exists_indexesSamples : ∃ index, IndexesSamples index := by
  obtain ⟨first, hfirst, hname, hsuper⟩ := summarizes_sample
  obtain ⟨second, hsecond, hname', hsuper'⟩ := summarizes_subclass
  have hn : ([first, second].map (·.name)).Nodup := by
    simp only [List.map_cons, List.map_nil, hname, hname']
    decide
  have hget : ∀ name summary, ([first, second].foldl insert empty).get? name = some summary ↔
      (summary = first ∨ summary = second) ∧ summary.name = name := fun name summary => by
    simpa using @get?_foldl_insert_iff name summary _ hn
  refine ⟨_, ofFiles_ok_iff.2 ⟨[first, second], .cons hfirst (.cons hsecond .nil), rfl⟩,
    keyed_foldl_insert hn, ⟨first, (hget _ _).2 ⟨.inl rfl, hname⟩, hfirst, hsuper⟩,
    ⟨second, (hget _ _).2 ⟨.inr rfl, hname'⟩, hsecond, hsuper'⟩, fun name summary hg => ?_⟩
  obtain ⟨rfl | rfl, rfl⟩ := (hget name summary).1 hg
  · exact .inl hname
  · exact .inr hname'

namespace IndexesSamples

variable {index : ClassIndex} (h : IndexesSamples index)
include h

theorem extends_iff {sub super : BinaryName} :
    index.Extends sub super ↔ sub = subclassName ∧ super = sampleName := by
  obtain ⟨first, hfirst, -, hsuper⟩ := h.sample
  obtain ⟨second, hsecond, -, hsuper'⟩ := h.subclass
  constructor
  · rintro ⟨summary, hg, hm⟩
    rcases h.only sub summary hg with rfl | rfl
    · obtain rfl := Option.some.inj (hfirst.symm.trans hg)
      simp [hsuper] at hm
    · obtain rfl := Option.some.inj (hsecond.symm.trans hg)
      exact ⟨rfl, by simpa [hsuper'] using hm⟩
  · rintro ⟨rfl, rfl⟩
    exact ⟨second, hsecond, by simp [hsuper']⟩

theorem declares_iff {owner : BinaryName} {kind : MemberKind} {key : MemberKey} :
    index.Declares owner kind key ↔ owner = sampleName ∧ key = memberOf kind ∨
      owner = subclassName ∧ kind = .method ∧ key = methodKey := by
  obtain ⟨first, hfirst, hsum, -⟩ := h.sample
  obtain ⟨second, hsecond, hsum', -⟩ := h.subclass
  constructor
  · rintro ⟨summary, hg, hd⟩
    rcases h.only owner summary hg with rfl | rfl
    · obtain rfl := Option.some.inj (hfirst.symm.trans hg)
      exact .inl ⟨rfl, spells_sample.1 ((hsum.declares_iff kind key).1 hd)⟩
    · obtain rfl := Option.some.inj (hsecond.symm.trans hg)
      exact .inr ⟨rfl, spells_subclass.1 ((hsum'.declares_iff kind key).1 hd)⟩
  · rintro (⟨rfl, hkey⟩ | ⟨rfl, hkey⟩)
    · exact ⟨first, hfirst, (hsum.declares_iff kind key).2 (spells_sample.2 hkey)⟩
    · exact ⟨second, hsecond, (hsum'.declares_iff kind key).2 (spells_subclass.2 hkey)⟩

/-- All methods are public. -/
theorem not_declaresClosed (owner : BinaryName) (key : MemberKey) :
    ¬index.DeclaresClosed owner key := by
  rintro ⟨summary, flags, hg, hm, hclosed⟩
  have hflags : flags = 1 := by
    rcases h.only owner summary hg with rfl | rfl
    · obtain ⟨first, hfirst, hsum, -⟩ := h.sample
      obtain rfl := Option.some.inj (hfirst.symm.trans hg)
      obtain ⟨member, hmem, -, rfl⟩ := exists_member_of_membersOf hsum.methods hm
      rw [members_sample.2.1] at hmem
      rw [List.mem_singleton.1 hmem]
    · obtain ⟨second, hsecond, hsum, -⟩ := h.subclass
      obtain rfl := Option.some.inj (hsecond.symm.trans hg)
      obtain ⟨member, hmem, -, rfl⟩ := exists_member_of_membersOf hsum.methods hm
      rw [members_subclass.2.2.1] at hmem
      rw [List.mem_singleton.1 hmem]
  subst hflags
  exact absurd hclosed (by decide)

theorem findCycle?_eq_none : index.findCycle? = none := by
  cases hc : index.findCycle? with
  | none => rfl
  | some name =>
    have hloop := transGen_of_findCycle? hc
    obtain ⟨_, hfirst, -⟩ := TransGen.head'_iff.1 hloop
    obtain ⟨_, -, hlast⟩ := TransGen.tail'_iff.1 hloop
    have hsub := (h.extends_iff.1 hfirst).1
    have hsuper := (h.extends_iff.1 hlast).2
    exact absurd (hsuper.symm.trans hsub) (by decide)

theorem keepsApart : KeepsApart (sampleRemapper index) := by
  have hkey : ∀ {start kind owner key}, index.DeclaresAbove start kind owner key →
      key = memberOf kind := by
    rintro start kind owner key ⟨-, hd⟩
    rcases h.declares_iff.1 hd with ⟨-, hkey⟩ | ⟨-, rfl, hkey⟩
    · exact hkey
    · exact hkey
  intro start kind owner owner' key key' renamed ha hb _ _
  exact (hkey ha).trans (hkey hb).symm

/-- The subclass inherits the field. -/
theorem findOwner_field : index.findOwner subclassName.text .field sampleKey = some sampleName := by
  obtain ⟨first, hfirst, hd⟩ := h.declares_iff.2 (.inl ⟨rfl, rfl⟩ :
    sampleName = sampleName ∧ sampleKey = memberOf .field ∨ _)
  obtain ⟨owner, howner⟩ :=
    exists_findOwner h.keyed (.single (h.extends_iff.2 ⟨rfl, rfl⟩)) hfirst hd
  obtain ⟨declaring, hg, hdeclares, -⟩ := declares_of_findOwner h.keyed howner
  rcases h.declares_iff.1 ⟨declaring, hg, hdeclares⟩ with ⟨rfl, -⟩ | ⟨-, hkind, -⟩
  · exact howner
  · cases hkind

/-- The subclass overrides the method. -/
theorem findOwner_method :
    index.findOwner subclassName.text .method methodKey = some subclassName := by
  obtain ⟨second, hsecond, hd⟩ := h.declares_iff.2 (.inr ⟨rfl, rfl, rfl⟩)
  exact findOwner_self h.keyed hsecond hd

/-- The overriding method takes its new name from the method of the superclass. -/
theorem mapMemberName_method :
    mapMemberName (sampleRemapper index) .method "C" "m" "(LA;)V" = .ok "n" := by
  have hmember : ∀ owner : BinaryName,
      (sampleRemapper index).mappings.member? .method owner.text methodKey =
        if owner = sampleName then some ⟨"n", by decide +kernel⟩ else none :=
    fun owner => (member?_sample index owner "").2
  have hmapped := @Remapper.memberMapping?_of_forall (sampleRemapper index) methodKey subclassName
    sampleName h.keyed _ rfl (h.not_declaresClosed _ _) (.single (h.extends_iff.2 ⟨rfl, rfl⟩))
    (h.not_declaresClosed _ _) ((hmember sampleName).trans (if_pos rfl))
    fun owner mapped _ _ hm => by
      rw [hmember] at hm
      split at hm
      · exact (Option.some.inj hm).symm
      · cases hm
  have hdeclaring := @Remapper.declaringClass_self (sampleRemapper index) methodKey subclassName
    .method h.keyed (.inl (h.declares_iff.2 (.inr ⟨rfl, rfl, rfl⟩)))
  have hname := mapMemberName_key (sampleRemapper index) .method subclassName.text methodKey
  rw [Remapper.newName, hdeclaring, hmapped] at hname
  exact hname

theorem injOn_mapClass :
    Set.InjOn (fun name : BinaryName => (sampleRemapper index).mapClass name.text)
      {name | index.Mentions name} := by
  have honly : ∀ name, index.Mentions name → name = sampleName ∨ name = subclassName := by
    rintro name (⟨summary, hg⟩ | ⟨sub, he⟩)
    · exact h.only name summary hg
    · exact .inl (h.extends_iff.1 he).2
  have hfirst : (sampleRemapper index).mapClass sampleName.text = "B" := mapClass_sample index
  have hsecond : (sampleRemapper index).mapClass subclassName.text = "C" := mapClass_subclass index
  intro a ha b hb heq
  dsimp only at heq
  rcases honly a ha with rfl | rfl <;> rcases honly b hb with rfl | rfl
  · rfl
  · exact absurd (hfirst.symm.trans (heq.trans hsecond)) (by decide)
  · exact absurd (hsecond.symm.trans (heq.trans hfirst)) (by decide)
  · rfl

end IndexesSamples

end Sample

/-- A reference finds in the renamed classes what it found before. The renamed classes can be
indexed and have no cycle; neither resolver has to be fresh. -/
theorem resolve_renamed {resolver : Resolver} (hp : ∀ file ∈ files, file.pool.Reachable)
    (hnames : (files.map (·.name)).Nodup) (hindex : ofFiles files = .ok r.index)
    (hasked : Resolver.Asked r.index resolver)
    (hr : List.Forall₂ (fun file out => r.renameClass file = .ok out) files outs)
    (hclasses : Set.InjOn (fun name => r.mapClass name.text) {name | r.index.Mentions name})
    (hmembers : KeepsApart r) :
    ∃ index, ofFiles (outs.map (·.2)) = .ok index ∧
      (∃ fresh, Resolver.ofIndex index = .ok fresh) ∧
        ∀ renamed, Resolver.Asked index renamed → ∀ start kind key owner,
          (resolver.resolve start kind key).1 = some owner → ∃ key' owner',
            mapMemberName r kind start key.name.text key.descriptor = .ok key'.name.text ∧
            mapText r (descriptorKind kind) key.descriptor = .ok key'.descriptor ∧
            owner'.text = r.mapClass owner.text ∧
            (renamed.resolve (r.mapClass start) kind key').1 = some owner' := by
  obtain ⟨summaries, hs, hi⟩ := ofFiles_ok_iff.1 hindex
  obtain ⟨summaries', hs', hrenamed⟩ := summaries_renamed hp hs hr
  have hn := nodup_names hnames hs
  have hinj : Set.InjOn r.mappings.mapBinaryName {name | r.index.Mentions name} := by
    intro a ha b hb heq
    refine hclasses ha hb ?_
    have htext := congrArg BinaryName.text heq
    simpa [Remapper.mapClass] using htext
  obtain ⟨hn', himage⟩ := image_foldl_insert hn hrenamed (hi ▸ hinj)
  rw [hi] at himage
  have hk : r.index.Keyed := hi ▸ keyed_foldl_insert hn
  have hk' := keyed_foldl_insert hn'
  refine ⟨_, ofFiles_ok_iff.2 ⟨summaries', hs', rfl⟩, ⟨_, Resolver.ofIndex_ok_iff.2
    ⟨himage.findCycle?_eq_none hasked.findCycle?_eq_none, rfl⟩⟩, ?_⟩
  intro renamed hasked' text kind key owner hresolve
  rw [hasked.resolve_eq hk] at hresolve
  -- The declaration got its new name as a member of `owner`; the reference gets the same one.
  obtain ⟨start, -, rfl, -⟩ := exists_name_of_findOwner hresolve
  obtain ⟨declaring, hg, hd, hreach⟩ := declares_of_findOwner hk hresolve
  obtain ⟨key', hkey⟩ := exists_key_of_image himage hk hg hd
  have hstart := hkey.of_findOwner hk hresolve
  refine ⟨key', r.mappings.mapBinaryName owner, hstart.name, hstart.descriptor,
    r.mappings.mapBinaryName_text owner, ?_⟩
  rw [hasked'.resolve_eq hk', Remapper.mapClass, ← MappingSet.mapBinaryName_text]
  refine himage.findOwner_eq hk (fun _ _ => KeyRenamed.unique) ?_ hkey hresolve
  intro name summary other hname hgn hdn hother
  exact hmembers start kind name owner other key key' ⟨hname, summary, hgn, hdn⟩
    ⟨hreach, declaring, hg, hd⟩ hother hkey

/-- Through the class `C`, the inherited field `f` of `A` is found as the field `g` of `B`, and its
own method `m`, which overrides a method of `A`, as its own method `n`. -/
theorem resolve_renamed_sample : ∃ index resolver renamed renamed' index' resolver',
    ofFiles [.sample, subclass] = .ok index ∧ Resolver.ofIndex index = .ok resolver ∧
    (sampleRemapper index).renameClass .sample = .ok ("B", renamed) ∧
    (sampleRemapper index).renameClass subclass = .ok ("C", renamed') ∧
    ofFiles [renamed, renamed'] = .ok index' ∧ Resolver.ofIndex index' = .ok resolver' ∧
    (resolver.resolve "C" .field sampleKey).1 = some sampleName ∧
    (resolver.resolve "C" .method methodKey).1 = some subclassName ∧
    ∃ field owner method owner', field.name.text = "g" ∧ field.descriptor = "I" ∧
      (resolver'.resolve "C" .field field).1 = some owner ∧ owner.text = "B" ∧
      method.name.text = "n" ∧ method.descriptor = "(LB;)V" ∧
      (resolver'.resolve "C" .method method).1 = some owner' ∧ owner'.text = "C" := by
  obtain ⟨index, h⟩ := exists_indexesSamples
  obtain ⟨renamed, hr⟩ := renameClass_sampleRemapper index
  obtain ⟨renamed', hr'⟩ := renameClass_subclass index
  have hfresh : Resolver.ofIndex index = .ok ⟨index, ∅⟩ :=
    Resolver.ofIndex_ok_iff.2 ⟨h.findCycle?_eq_none, rfl⟩
  have hasked : Resolver.Asked index ⟨index, ∅⟩ := .fresh hfresh
  have hreachable : ∀ file ∈ [ClassFile.sample, subclass], file.pool.Reachable := by
    intro file hm
    rcases List.mem_pair.1 hm with rfl | rfl
    · exact ClassFile.reachable_of_parse ClassFile.parse_sample
    · exact ClassFile.reachable_of_parse parse_subclass
  have hnames : ([ClassFile.sample, subclass].map (·.name)).Nodup := by
    simp only [List.map_cons, List.map_nil, name_sample, name_subclass]
    decide
  obtain ⟨index', hindex', ⟨resolver', hfresh'⟩, hall⟩ :=
    @resolve_renamed (sampleRemapper index) [.sample, subclass] [("B", renamed), ("C", renamed')]
      ⟨index, ∅⟩ hreachable hnames h.files hasked (.cons hr (.cons hr' .nil)) h.injOn_mapClass
      h.keepsApart
  have hasked' : Resolver.Asked index' resolver' := .fresh hfresh'
  have hfield : (Resolver.resolve ⟨index, ∅⟩ "C" .field sampleKey).1 = some sampleName :=
    (hasked.resolve_eq h.keyed "C" .field sampleKey).trans h.findOwner_field
  have hmethod : (Resolver.resolve ⟨index, ∅⟩ "C" .method methodKey).1 = some subclassName :=
    (hasked.resolve_eq h.keyed "C" .method methodKey).trans h.findOwner_method
  obtain ⟨field, owner, hname, hdescriptor, howner, hfound⟩ :=
    hall resolver' hasked' "C" .field sampleKey sampleName hfield
  obtain ⟨method, owner', hname', hdescriptor', howner', hfound'⟩ :=
    hall resolver' hasked' "C" .method methodKey subclassName hmethod
  have hdeclaring : (sampleRemapper index).declaringClass "C" .field sampleKey = "A" := by
    have howner : index.findOwner "C" .field sampleKey = some sampleName := h.findOwner_field
    rw [Remapper.declaringClass, sampleRemapper, howner]
    rfl
  have hg := hname.symm.trans (mapField_sample hdeclaring)
  have hn := hname'.symm.trans h.mapMemberName_method
  have hi := hdescriptor.symm.trans (mapText_int (sampleRemapper index))
  have hb := hdescriptor'.symm.trans (mapTypes_sample index).2
  rw [mapClass_subclass] at hfound hfound'
  exact ⟨index, ⟨index, ∅⟩, renamed, renamed', index', resolver', h.files, hfresh, hr, hr', hindex',
    hfresh', hfield, hmethod, field, owner, method, owner', Except.ok.inj hg, Except.ok.inj hi,
    hfound, howner.trans (mapClass_sample index), Except.ok.inj hn, Except.ok.inj hb, hfound',
    howner'.trans (mapClass_subclass index)⟩

end Renaming

end JarRename
