import Mathlib
import JarRename.Proofs.Jar.Batches
import JarRename.Proofs.MemberMappings
import JarRename.Proofs.Renaming.Class

/-!
# Why an archive is refused

All classes are indexed before the first one is renamed. So an archive is refused for the first
class entry that cannot be indexed, if there is one, then for a cycle of supertypes, and only then
for the first class entry that cannot be renamed. Neither the size of the batches nor the number of
threads changes any of this. Which class of a cycle is named depends on the order in which the index
is searched, and on nothing else.
-/
namespace JarRename.Jar

open ClassIndex Fallible Relation

/-- `entry` is the first class entry that `work` refuses, for the reason `cause`. -/
def FirstRefused {α : Type} (work : Bytes → Except ClassError α) (entries : List Entry)
    (entry : Entry) (cause : ClassError) : Prop :=
  ∃ before after, entries = before ++ entry :: after ∧ entry.kind = .classFile ∧
    work entry.data = .error cause ∧
    ∀ other ∈ before, other.kind = .classFile → ∃ result, work other.data = .ok result

/-- The classes of the archive can all be indexed, and this is their index. -/
def Indexed (entries : List Entry) (index : ClassIndex) : Prop :=
  ClassIndex.build ((classesOf entries).map fun entry => (entry.path, entry.data)) = .ok index

/-- The errors with which an archive is refused. -/
inductive Refusal (set : MappingSet) (entries : List Entry) : JarError → Prop
  | unindexed {entry : Entry} {cause : ClassError}
      (first : FirstRefused ClassSummary.ofBytes entries entry cause) :
      Refusal set entries (.badEntry ⟨entry.path, cause⟩)
  | cyclic {index : ClassIndex} {name : BinaryName} (indexed : Indexed entries index)
      (cycle : TransGen index.Extends name name) : Refusal set entries (.cyclicHierarchy name)
  | unrenamed {index : ClassIndex} {entry : Entry} {cause : ClassError}
      (indexed : Indexed entries index) (acyclic : index.Acyclic)
      (first : FirstRefused (Remapper.renameBytes ⟨index, set⟩) entries entry cause) :
      Refusal set entries (.badEntry ⟨entry.path, cause⟩)

variable {set : MappingSet} {settings : Settings} {entries : List Entry}

/-- Working through the classes in their order, the first one that is refused gives the error. -/
theorem firstRefused_of_mapM {α β : Type} {work : Bytes → Except ClassError α}
    {step : Entry → Except EntryError β} {e : EntryError}
    (hok : ∀ entry y, step entry = .ok y → ∃ result, work entry.data = .ok result)
    (herror : ∀ entry e, step entry = .error e →
      ∃ cause, work entry.data = .error cause ∧ e = ⟨entry.path, cause⟩)
    (h : (classesOf entries).mapM step = .error e) :
    ∃ entry cause, FirstRefused work entries entry cause ∧ e = ⟨entry.path, cause⟩ := by
  obtain ⟨front, entry, back, hsplit, hentry, hfront⟩ := mapM_error_iff.1 h
  obtain ⟨before, rest, rfl, rfl, hrest⟩ := List.filter_eq_append_iff.1 hsplit
  obtain ⟨others, after, rfl, hothers, hkind, -⟩ := List.filter_eq_cons_iff.1 hrest
  obtain ⟨cause, hcause, rfl⟩ := herror entry e hentry
  refine ⟨entry, cause, ⟨before ++ others, after, by simp, by simpa using hkind, hcause, ?_⟩, rfl⟩
  intro other ho hk
  rcases List.mem_append.1 ho with hb | hb
  · obtain ⟨y, hy⟩ := hfront other (List.mem_filter.2 ⟨hb, by simpa using hk⟩)
    exact hok other y hy
  · exact absurd hk (by simpa using hothers other hb)

theorem exists_firstRefused_of_build {e : EntryError}
    (h : ClassIndex.build ((classesOf entries).map fun entry => (entry.path, entry.data)) =
      .error e) :
    ∃ entry cause, FirstRefused ClassSummary.ofBytes entries entry cause ∧
      e = ⟨entry.path, cause⟩ := by
  rw [ClassIndex.build_eq, map_error_iff, List.mapM_map] at h
  refine firstRefused_of_mapM (fun entry summary hs => ?_) (fun entry e he => ?_) h
  · exact ⟨summary, ClassIndex.summaryOf_ok_iff.1 hs⟩
  · obtain ⟨cause, hc, rfl⟩ := mapError_error_iff.1 he
    exact ⟨cause, hc, rfl⟩

theorem exists_firstRefused_of_mapM {r : Remapper} {e : EntryError}
    (h : entries.mapM (Renamed.rename r) = .error e) :
    ∃ entry cause, FirstRefused r.renameBytes entries entry cause ∧ e = ⟨entry.path, cause⟩ := by
  rw [← merge_map, map_error_iff] at h
  refine firstRefused_of_mapM (fun entry renamed hr => ?_) (fun entry e he => ?_) h
  · obtain ⟨name, data, hbytes, -⟩ := Renamed.renameClass_ok_iff.1 hr
    exact ⟨_, hbytes⟩
  · exact Renamed.renameClass_error_iff.1 he

theorem refuseCycle_ok_iff {order : ClassOrder} {index found : ClassIndex} :
    refuseCycle order index = .ok found ↔ found = index ∧ index.Acyclic := by
  have hall : ∀ root ∈ index.names, root ∈ order.names index :=
    fun root hm => (order.perm index).mem_iff.2 hm
  rw [← findCycleFrom?_eq_none_iff hall]
  unfold refuseCycle
  cases index.findCycleFrom? (order.names index) with
  | none => simp [pure, Except.pure, eq_comm]
  | some name => simp [throw, throwThe, MonadExceptOf.throw]

/-- A class is named that is its own supertype. -/
theorem refuseCycle_error {order : ClassOrder} {index : ClassIndex} {e : JarError}
    (h : refuseCycle order index = .error e) :
    ∃ name, e = .cyclicHierarchy name ∧ TransGen index.Extends name name := by
  unfold refuseCycle at h
  cases hf : index.findCycleFrom? (order.names index) with
  | none =>
    rw [hf] at h
    cases h
  | some name =>
    rw [hf] at h
    cases h
    exact ⟨name, rfl, transGen_of_findCycleFrom? hf⟩

theorem indexOf_eq (order : ClassOrder) (entries : List Entry) :
    indexOf order entries =
      (build ((classesOf entries).map fun entry => (entry.path, entry.data))).mapError .badEntry >>=
        refuseCycle order := rfl

theorem indexOf_ok_iff {order : ClassOrder} {index : ClassIndex} :
    indexOf order entries = .ok index ↔ Indexed entries index ∧ index.Acyclic := by
  simp only [indexOf_eq, bind_ok_iff, mapError_ok_iff, refuseCycle_ok_iff]
  constructor
  · rintro ⟨found, hb, rfl, ha⟩
    exact ⟨hb, ha⟩
  · rintro ⟨hb, ha⟩
    exact ⟨index, hb, rfl, ha⟩

/-- Classes without supertypes are not refused. -/
theorem exists_indexOf {order : ClassOrder} {summaries : List ClassSummary}
    (h : ((classesOf entries).map fun entry => (entry.path, entry.data)).mapM summaryOf =
      .ok summaries)
    (hs : ∀ summary ∈ summaries, summary.supertypes = []) :
    ∃ index, indexOf order entries = .ok index := by
  have hbuild : Indexed entries (summaries.foldl insert .empty) := by
    rw [Indexed, build_eq, h]
    rfl
  exact ⟨_, indexOf_ok_iff.2 ⟨hbuild, acyclic_foldl_insert hs⟩⟩

theorem refusal_of_indexOf {order : ClassOrder} {e : JarError}
    (h : indexOf order entries = .error e) : Refusal set entries e := by
  rw [indexOf_eq] at h
  rcases bind_error_iff.1 h with hb | ⟨index, hb, hc⟩
  · obtain ⟨cause, hbuild, rfl⟩ := mapError_error_iff.1 hb
    obtain ⟨entry, reason, hfirst, rfl⟩ := exists_firstRefused_of_build hbuild
    exact .unindexed hfirst
  · obtain ⟨name, rfl, hcycle⟩ := refuseCycle_error hc
    exact .cyclic (mapError_ok_iff.1 hb) hcycle

theorem refusal_of_renameInOrder {order : ClassOrder} {e : JarError}
    (h : renameInOrder order set settings entries = .error e) : Refusal set entries e := by
  rcases bind_error_iff.1 h with hi | ⟨index, hi, h⟩
  · exact refusal_of_indexOf hi
  · obtain ⟨hindexed, hacyclic⟩ := indexOf_ok_iff.1 hi
    rw [bind_pure_comp, map_error_iff] at h
    obtain ⟨cause, hr, rfl⟩ := mapError_error_iff.1 h
    obtain ⟨entry, reason, hfirst, rfl⟩ := exists_firstRefused_of_mapM hr
    exact .unrenamed hindexed hacyclic hfirst

/-- The same outcome, except that a cycle may be reported under another of its classes. -/
inductive SameOutcome {α : Type} : Except JarError α → Except JarError α → Prop
  | same (outcome : Except JarError α) : SameOutcome outcome outcome
  | cyclic (first second : BinaryName) :
      SameOutcome (.error (.cyclicHierarchy first)) (.error (.cyclicHierarchy second))

theorem SameOutcome.bind {α β : Type} {first second : Except JarError α}
    (h : SameOutcome first second) (next : α → Except JarError β) :
    SameOutcome (first >>= next) (second >>= next) := by
  cases h with
  | same => exact .same _
  | cyclic first second => exact .cyclic first second

/-- Whether there are cycles does not depend on where the search for them begins. -/
theorem sameOutcome_refuseCycle (firstOrder secondOrder : ClassOrder) (index : ClassIndex) :
    SameOutcome (refuseCycle firstOrder index) (refuseCycle secondOrder index) := by
  by_cases ha : index.Acyclic
  · have hfirst : refuseCycle firstOrder index = .ok index := refuseCycle_ok_iff.2 ⟨rfl, ha⟩
    have hsecond : refuseCycle secondOrder index = .ok index := refuseCycle_ok_iff.2 ⟨rfl, ha⟩
    rw [hfirst, hsecond]
    exact .same _
  · have herror (order : ClassOrder) : ∃ name,
        refuseCycle order index = .error (.cyclicHierarchy name) := by
      cases hc : refuseCycle order index with
      | ok found => exact absurd (refuseCycle_ok_iff.1 hc).2 ha
      | error e =>
        obtain ⟨name, rfl, -⟩ := refuseCycle_error hc
        exact ⟨name, rfl⟩
    obtain ⟨first, hfirst⟩ := herror firstOrder
    obtain ⟨second, hsecond⟩ := herror secondOrder
    rw [hfirst, hsecond]
    exact .cyclic first second

/-- An order that begins with the given class, if that is indexed. -/
def startingWith (root : BinaryName) : ClassOrder where
  names index := if root ∈ index.names then root :: index.names.erase root else index.names
  perm index := by
    split
    · exact (List.perm_cons_erase ‹_›).symm
    · exact .refl _

/-- Each of several classes that extend themselves is the one that is named in some order. -/
theorem refuseCycle_startingWith {index : ClassIndex} {root : BinaryName} {summary : ClassSummary}
    {others : List BinaryName} (hg : index.get? root = some summary)
    (hs : summary.supertypes = root :: others) :
    refuseCycle (startingWith root) index = .error (.cyclicHierarchy root) := by
  have hroot : root ∈ index.names := mem_names_iff.2 ⟨summary, hg⟩
  have hnames : (startingWith root).names index = root :: index.names.erase root := if_pos hroot
  rw [refuseCycle, hnames, findCycleFrom?_of_self hg hs]
  rfl

theorem sameOutcome_indexOf (firstOrder secondOrder : ClassOrder) (entries : List Entry) :
    SameOutcome (indexOf firstOrder entries) (indexOf secondOrder entries) := by
  rw [indexOf_eq, indexOf_eq]
  cases (build ((classesOf entries).map fun entry => (entry.path, entry.data))).mapError
      JarError.badEntry with
  | error e => exact .same _
  | ok index => exact sameOutcome_refuseCycle firstOrder secondOrder index

/-- All threads may share one resolver: in whatever order they have asked it, it answers as the
search does that each of them would make alone. -/
theorem declaringClass_shared {index : ClassIndex} (h : Indexed entries index)
    {resolver : Resolver} (ha : Resolver.Asked index resolver) (owner : String) (kind : MemberKind)
    (member : MemberKey) :
    ((resolver.resolve owner kind member).1.map (·.text)).getD owner =
      Remapper.declaringClass ⟨index, set⟩ owner kind member := by
  have hk : index.Keyed := (made_of_build h).keyed
  rw [Remapper.declaringClass_resolve hk ha]
  cases (resolver.resolve owner kind member).1 <;> rfl

/-- The settings with the work divided in another way. -/
def Settings.divided (settings : Settings) (batchSize threads : Nat) : Settings :=
  { settings with batchSize := batchSize, parallelism := threads }

/-- Threads and batches do not change the outcome: not what is written and counted, and not the
error. Neither does a resolver that they share. Only a cycle may be reported under different names,
if the index is searched in different orders. -/
theorem outcome_independent_of_division {firstBatch firstThreads secondBatch secondThreads : Nat}
    (firstOrder secondOrder : ClassOrder)
    (first : Divisible (settings.divided firstBatch firstThreads) entries)
    (second : Divisible (settings.divided secondBatch secondThreads) entries) :
    SameOutcome (renameArchive set (settings.divided firstBatch firstThreads) entries firstOrder)
      (renameArchive set (settings.divided secondBatch secondThreads) entries secondOrder) ∧
    (firstOrder = secondOrder →
      renameArchive set (settings.divided firstBatch firstThreads) entries firstOrder =
        renameArchive set (settings.divided secondBatch secondThreads) entries secondOrder) ∧
    (∀ e, renameArchive set (settings.divided firstBatch firstThreads) entries firstOrder =
      .error e → Refusal set entries e) ∧
    ∀ index, indexOf firstOrder entries = .ok index →
      Resolver.ofIndex index = .ok ⟨index, ∅⟩ ∧
      ∀ resolver, Resolver.Asked index resolver → ∀ owner kind member,
        ((resolver.resolve owner kind member).1.map (·.text)).getD owner =
          Remapper.declaringClass ⟨index, set⟩ owner kind member := by
  rw [renameArchive_eq first, renameArchive_eq second]
  refine ⟨?_, ?_, fun e h => refusal_of_renameInOrder h, fun index hi => ?_⟩
  · exact (sameOutcome_indexOf firstOrder secondOrder entries).bind _
  · rintro rfl
    rfl
  · obtain ⟨hindexed, hacyclic⟩ := indexOf_ok_iff.1 hi
    exact ⟨hacyclic.ofIndex_ok, fun resolver ha => declaringClass_shared hindexed ha⟩

section Flawed

/-- A class `A` with a method type that refers to no text. -/
def flawedBytes : Bytes :=
  [0xCA, 0xFE, 0xBA, 0xBE, 0, 0, 0, 52, 0, 4, 16, 0, 0, 1, 0, 1, 65, 7, 0, 2, 0, 0x21, 0, 3,
    0, 0, 0, 0, 0, 0, 0, 0, 0, 0]

/-- A class that can be indexed but not renamed, and a file that is no class. -/
def flawedArchive : List Entry := [.create "A.class" flawedBytes none, .create "B.class" [] none]

/-- Two classes that can be indexed but not renamed. -/
def twinArchive : List Entry :=
  [.create "A.class" flawedBytes none, .create "B.class" flawedBytes none]

theorem parse_flawed : ∃ file, ClassFile.parse flawedBytes = .ok file ∧ file.name = .ok "A" ∧
    file.pool.toList = [(1, .methodType 0), (2, .utf8 "A"), (3, .classRef 2)] ∧
    file.pool.text 0 = .error (.badIndex 0 .utf8) := by
  have h : (fun file => (file.name, file.pool.toList, file.pool.text 0)) <$>
      ClassFile.parse flawedBytes = .ok (.ok "A",
        [(1, .methodType 0), (2, .utf8 "A"), (3, .classRef 2)], .error (.badIndex 0 .utf8)) := by
    decide +kernel
  obtain ⟨file, hp, hf⟩ := map_ok_iff.1 h
  exact ⟨file, hp, by simpa using hf⟩

/-- The method type is looked at first, and there is nothing to rename in it. -/
theorem renameBytes_flawed (r : Remapper) :
    r.renameBytes flawedBytes = .error (.badIndex 0 .utf8) := by
  obtain ⟨file, hp, hn, hl, ht⟩ := parse_flawed
  have hclass : r.renameClass file = .error (.badIndex 0 .utf8) := by
    simp only [Remapper.renameClass, hn, bind, Except.bind]
    simp only [Renaming.renameParts, Renaming.renameConstants, Renaming.changes,
      Renaming.renameConstant, Renaming.renameText, Renaming.look, Stateful.bind_apply, hl, ht]
    rfl
  simp only [Remapper.renameBytes, hp, hclass, bind, Except.bind]

theorem exists_summary_flawed : ∃ summary, ClassSummary.ofBytes flawedBytes = .ok summary ∧
    summary.supertypes = [] := by
  have h : (·.supertypes) <$> ClassSummary.ofBytes flawedBytes = .ok [] := by decide +kernel
  exact map_ok_iff.1 h

theorem rename_flawed (r : Remapper) {entry : Entry} (hk : entry.kind = .classFile)
    (hd : entry.data = flawedBytes) :
    Renamed.rename r entry = .error ⟨entry.path, .badIndex 0 .utf8⟩ := by
  rw [Renamed.rename, if_pos hk, Renamed.renameClass_error_iff, hd]
  exact ⟨_, renameBytes_flawed r, rfl⟩

/-- The class `A` can be indexed, the empty file cannot. -/
theorem indexOf_flawedArchive (order : ClassOrder) :
    indexOf order flawedArchive = .error (.badEntry ⟨"B.class", .unexpectedEnd⟩) := by
  obtain ⟨summary, hs, -⟩ := exists_summary_flawed
  have hclasses : classesOf flawedArchive = flawedArchive := by decide
  have hbuild : build ((classesOf flawedArchive).map fun entry => (entry.path, entry.data)) =
      .error ⟨"B.class", .unexpectedEnd⟩ := by
    rw [hclasses, build_eq, map_error_iff, mapM_error_iff]
    refine ⟨[("A.class", flawedBytes)], ("B.class", []), [], rfl, rfl, fun other ho => ?_⟩
    obtain rfl := List.mem_singleton.1 ho
    exact ⟨summary, summaryOf_ok_iff.2 hs⟩
  rw [indexOf_eq, hbuild]
  rfl

/-- The index holds the class `A` once. -/
theorem exists_indexOf_twinArchive (order : ClassOrder) :
    ∃ index, indexOf order twinArchive = .ok index := by
  obtain ⟨summary, hs, hsuper⟩ := exists_summary_flawed
  have hclasses : classesOf twinArchive = twinArchive := by decide
  refine @exists_indexOf _ order [summary, summary] ?_ (by simp [hsuper])
  rw [hclasses, mapM_ok_iff]
  exact .cons (summaryOf_ok_iff.2 hs) (.cons (summaryOf_ok_iff.2 hs) .nil)

theorem renameInOrder_twinArchive (order : ClassOrder) (set : MappingSet) (settings : Settings) :
    renameInOrder order set settings twinArchive =
      .error (.badEntry ⟨"A.class", .badIndex 0 .utf8⟩) := by
  obtain ⟨index, hi⟩ := exists_indexOf_twinArchive order
  have hfirst : Renamed.rename ⟨index, set⟩ (.create "A.class" flawedBytes none) =
      .error ⟨"A.class", .badIndex 0 .utf8⟩ := rename_flawed _ (by decide) (by decide)
  have hall : twinArchive.mapM (Renamed.rename ⟨index, set⟩) =
      .error ⟨"A.class", .badIndex 0 .utf8⟩ := mapM_error_iff.2 ⟨[], _, _, rfl, hfirst, by simp⟩
  rw [renameInOrder, hi]
  simp only [bind, Except.bind, hall, Except.mapError]

/-- The order of the table backwards. -/
def backwards : ClassOrder := ⟨fun index => index.names.reverse, fun _ => List.reverse_perm _⟩

/-- Two threads, each of which fails for the class in its part: the first class is named, as it is
when one thread works through batches of one entry. -/
theorem outcome_independent_of_division_twin :
    chunks 2 twinArchive = [twinArchive] ∧ chunkSize? 2 2 = some 1 ∧
    chunks 1 twinArchive = twinArchive.map ([·]) ∧
    Divisible ((Settings.forProcessors 1).divided 2 2) twinArchive ∧
    Divisible ((Settings.forProcessors 1).divided 1 1) twinArchive ∧
    renameArchive .empty ((Settings.forProcessors 1).divided 2 2) twinArchive =
      .error (.badEntry ⟨"A.class", .badIndex 0 .utf8⟩) ∧
    renameArchive .empty ((Settings.forProcessors 1).divided 1 1) twinArchive backwards =
      .error (.badEntry ⟨"A.class", .badIndex 0 .utf8⟩) ∧
    Refusal .empty twinArchive (.badEntry ⟨"A.class", .badIndex 0 .utf8⟩) := by
  have hfirst : Divisible ((Settings.forProcessors 1).divided 2 2) twinArchive :=
    divisible_of_le (by decide)
  have hsecond : Divisible ((Settings.forProcessors 1).divided 1 1) twinArchive :=
    divisible_of_le (by decide)
  obtain ⟨hsame, -, hrefusal, -⟩ :=
    @outcome_independent_of_division .empty (.forProcessors 1) twinArchive _ _ _ _ .ofTable
      backwards hfirst hsecond
  have hrun : renameArchive .empty ((Settings.forProcessors 1).divided 2 2) twinArchive =
      .error (.badEntry ⟨"A.class", .badIndex 0 .utf8⟩) := by
    rw [renameArchive_eq hfirst, renameInOrder_twinArchive]
  rw [hrun] at hsame
  refine ⟨?_, by decide, ?_, hfirst, hsecond, hrun, ?_, hrefusal _ hrun⟩
  · simp [twinArchive, chunks]
  · simp [twinArchive, chunks]
  · generalize renameArchive _ _ _ _ = outcome at hsame
    cases hsame
    rfl

/-- The entry in the error need not be the first one that cannot be renamed: here it is a later one,
which cannot be indexed. -/
theorem refused_for_later_entry :
    renameArchive .empty (.forProcessors 1) flawedArchive =
      .error (.badEntry ⟨"B.class", .unexpectedEnd⟩) ∧
    ∀ r, flawedArchive.mapM (Renamed.rename r) = .error ⟨"A.class", .badIndex 0 .utf8⟩ := by
  constructor
  · rw [renameArchive_apply, indexOf_flawedArchive]
    rfl
  · intro r
    have hfirst : Renamed.rename r (.create "A.class" flawedBytes none) =
        .error ⟨"A.class", .badIndex 0 .utf8⟩ := rename_flawed r (by decide) (by decide)
    exact mapM_error_iff.2 ⟨[], _, _, rfl, hfirst, by simp⟩

end Flawed
end JarRename.Jar
