import Mathlib
import JarRename.Proofs.Hierarchy.Owners

/-!
# Which hierarchies are refused

A resolver is made for every hierarchy without cycles and for no other one. In which order the
classes are searched makes no difference, except to which class of which cycle is named. Classes
that can be ranked so that every indexed supertype ranks lower form no cycle, on however many ways
a supertype is reached and whatever supertypes are not indexed.
-/
namespace JarRename.ClassIndex

open Relation

/-- No class is its own supertype. -/
def Acyclic (index : ClassIndex) : Prop := ∀ name, ¬TransGen index.Extends name name

/-- Indexed supertypes rank lower than their subclasses. -/
def Ranked (index : ClassIndex) (rank : BinaryName → Nat) : Prop :=
  ∀ sub super, index.Extends sub super → super ∈ index.names → rank super < rank sub

variable {index : ClassIndex} {roots : List BinaryName} {rank : BinaryName → Nat}
  {sub super : BinaryName}

theorem Extends.mem_names (h : index.Extends sub super) : sub ∈ index.names := by
  obtain ⟨summary, hg, -⟩ := h
  exact mem_names_iff.2 ⟨summary, hg⟩

theorem mem_names_of_transGen (h : TransGen index.Extends sub super) : sub ∈ index.names := by
  obtain ⟨_, hfirst, -⟩ := TransGen.head'_iff.1 h
  exact hfirst.mem_names

theorem Ranked.lt_of_transGen (h : index.Ranked rank) (ht : TransGen index.Extends sub super)
    (hm : super ∈ index.names) : rank super < rank sub := by
  induction ht with
  | single he => exact h _ _ he hm
  | @tail mid last _ he ih =>
    have hmid := ih he.mem_names
    have hlast := h mid last he hm
    omega

theorem Ranked.acyclic (h : index.Ranked rank) : index.Acyclic := by
  intro name ht
  have hm := mem_names_of_transGen ht
  have hlt := h.lt_of_transGen ht hm
  omega

/-- Classes without supertypes form no cycle. -/
theorem acyclic_foldl_insert {summaries : List ClassSummary}
    (h : ∀ summary ∈ summaries, summary.supertypes = []) :
    (summaries.foldl insert empty).Acyclic := by
  refine @Ranked.acyclic _ (fun _ => 0) ?_
  rintro sub super ⟨summary, hg, hm⟩ -
  rw [get?_foldl_insert, get?_empty, Option.none_or] at hg
  rw [h summary (List.mem_of_find?_eq_some hg)] at hm
  cases hm

/-- The search finds nothing exactly if there is nothing to be found. -/
theorem findCycleFrom?_eq_none_iff (hall : ∀ root ∈ index.names, root ∈ roots) :
    index.findCycleFrom? roots = none ↔ index.Acyclic := by
  constructor
  · intro h
    have hb := bounded_of_findCycleFrom? hall h
    exact not_transGen_of_bounded hb
  · intro h
    cases hf : index.findCycleFrom? roots with
    | none => rfl
    | some name =>
      have ht := transGen_of_findCycleFrom? hf
      exact absurd ht (h name)

/-- A search that has covered the index has found a class if there is a cycle at all. -/
theorem exists_findCycleFrom?_iff (hall : ∀ root ∈ index.names, root ∈ roots) :
    (∃ name, index.findCycleFrom? roots = some name) ↔
      ∃ name ∈ index.names, TransGen index.Extends name name := by
  constructor
  · rintro ⟨name, hf⟩
    have ht := transGen_of_findCycleFrom? hf
    exact ⟨name, mem_names_of_transGen ht, ht⟩
  · rintro ⟨name, -, ht⟩
    have hf : index.findCycleFrom? roots ≠ none := by
      intro hn
      exact (findCycleFrom?_eq_none_iff hall).1 hn name ht
    exact Option.ne_none_iff_exists'.1 hf

theorem ofIndex_error_iff {name : BinaryName} :
    Resolver.ofIndex index = .error name ↔ index.findCycle? = some name := by
  unfold Resolver.ofIndex
  split
  · rename_i h
    simp [h]
  · rename_i h
    simp [h]

/-- For a hierarchy without cycles there is a resolver. -/
theorem Acyclic.ofIndex_ok (h : index.Acyclic) : Resolver.ofIndex index = .ok ⟨index, ∅⟩ := by
  have hn : index.findCycle? = none := (findCycleFrom?_eq_none_iff fun _ hr => hr).2 h
  exact Resolver.ofIndex_ok_iff.2 ⟨hn, rfl⟩

section Sample

def bottomName : BinaryName := ⟨"Bottom", by decide +kernel⟩

def leftName : BinaryName := ⟨"Left", by decide +kernel⟩

def rightName : BinaryName := ⟨"Right", by decide +kernel⟩

def topName : BinaryName := ⟨"Top", by decide +kernel⟩

/-- A class without members. -/
def plainSummary (name superName : BinaryName) (interfaces : List BinaryName) : ClassSummary :=
  ⟨name, 0x21, some superName, interfaces, ∅, ∅⟩

def callMember : MemberKey := ⟨⟨"call", by decide +kernel⟩, "()V"⟩

/-- The one class of the sample that declares a method. -/
def topSummary : ClassSummary :=
  { plainSummary topName .object [] with
    methods := Std.HashMap.emptyWithCapacity.insert callMember 1 }

/-- From `Bottom` two ways lead to `Top`, one of them twice, and the root is not indexed. -/
def diamondSummaries : List ClassSummary :=
  [plainSummary bottomName .object [leftName, rightName, leftName],
    plainSummary leftName .object [topName], plainSummary rightName .object [topName], topSummary]

def diamondIndex : ClassIndex := diamondSummaries.foldl insert empty

/-- `Top` closes a cycle through `Left`. -/
def loopSummaries : List ClassSummary :=
  [plainSummary bottomName topName [leftName], plainSummary topName leftName [rightName],
    plainSummary leftName .object [topName]]

def loopIndex : ClassIndex := loopSummaries.foldl insert empty

theorem get?_diamond_iff {name : BinaryName} {summary : ClassSummary} :
    diamondIndex.get? name = some summary ↔ summary ∈ diamondSummaries ∧ summary.name = name :=
  get?_foldl_insert_iff (by decide +kernel)

/-- How far a class stands above `Top`. -/
def diamondRank (name : BinaryName) : Nat :=
  if name = bottomName then 2 else if name = topName then 0 else 1

theorem ranked_diamond : diamondIndex.Ranked diamondRank := by
  rintro sub super ⟨summary, hg, hs⟩ hm
  obtain ⟨other, ho⟩ := mem_names_iff.1 hm
  obtain ⟨hsub, rfl⟩ := get?_diamond_iff.1 hg
  obtain ⟨hsuper, rfl⟩ := get?_diamond_iff.1 ho
  have hall : ∀ summary ∈ diamondSummaries, ∀ other ∈ diamondSummaries,
      other.name ∈ summary.supertypes → diamondRank other.name < diamondRank summary.name := by
    decide +kernel
  exact hall summary hsub other hsuper hs

theorem get?_loop_iff {name : BinaryName} {summary : ClassSummary} :
    loopIndex.get? name = some summary ↔ summary ∈ loopSummaries ∧ summary.name = name :=
  get?_foldl_insert_iff (by decide +kernel)

theorem transGen_loop : TransGen loopIndex.Extends topName topName := by
  have htop : loopIndex.Extends topName leftName :=
    ⟨plainSummary topName leftName [rightName], get?_loop_iff.2 ⟨by simp [loopSummaries], rfl⟩,
      by decide +kernel⟩
  have hleft : loopIndex.Extends leftName topName :=
    ⟨plainSummary leftName .object [topName], get?_loop_iff.2 ⟨by simp [loopSummaries], rfl⟩,
      by decide +kernel⟩
  exact .tail (.single htop) hleft

end Sample

/-- The search for cycles finds a class exactly if some indexed class is its own supertype, in
whichever order it begins with the indexed classes, and a class that it finds is its own supertype.
The same holds of the class that is named where no resolver is made. -/
theorem refused_iff_cyclic (index : ClassIndex) {roots : List BinaryName}
    (hr : roots.Perm index.names) :
    ((∃ name, index.findCycleFrom? roots = some name) ↔
      ∃ name ∈ index.names, TransGen index.Extends name name) ∧
    (∀ name, index.findCycleFrom? roots = some name → TransGen index.Extends name name) ∧
    ((∃ name, Resolver.ofIndex index = .error name) ↔
      ∃ name ∈ index.names, TransGen index.Extends name name) ∧
    (∀ name, Resolver.ofIndex index = .error name → TransGen index.Extends name name) ∧
    ∀ rank, index.Ranked rank →
      index.findCycleFrom? roots = none ∧ Resolver.ofIndex index = .ok ⟨index, ∅⟩ := by
  have hall : ∀ root ∈ index.names, root ∈ roots := fun root hm => hr.mem_iff.2 hm
  have hself : ∀ root ∈ index.names, root ∈ index.names := fun _ hm => hm
  refine ⟨exists_findCycleFrom?_iff hall, fun name => transGen_of_findCycleFrom?, ?_, ?_, ?_⟩
  · simp only [ofIndex_error_iff]
    exact exists_findCycleFrom?_iff hself
  · intro name he
    exact transGen_of_findCycle? (ofIndex_error_iff.1 he)
  · intro rank hrank
    have ha := hrank.acyclic
    exact ⟨(findCycleFrom?_eq_none_iff hall).2 ha, ha.ofIndex_ok⟩

theorem refused_iff_cyclic_sample :
    (∃ name, loopIndex.findCycleFrom? loopIndex.names.reverse = some name) ∧
      (∃ name, Resolver.ofIndex loopIndex = .error name) ∧
      diamondIndex.findCycleFrom? diamondIndex.names.reverse = none ∧
      Resolver.ofIndex diamondIndex = .ok ⟨diamondIndex, ∅⟩ := by
  have hloop : ∃ name ∈ loopIndex.names, TransGen loopIndex.Extends name name :=
    ⟨topName, mem_names_of_transGen transGen_loop, transGen_loop⟩
  obtain ⟨hfound, -, herror, -, -⟩ :=
    refused_iff_cyclic loopIndex (List.reverse_perm loopIndex.names)
  obtain ⟨-, -, -, -, hranked⟩ :=
    refused_iff_cyclic diamondIndex (List.reverse_perm diamondIndex.names)
  obtain ⟨hnone, hok⟩ := hranked diamondRank ranked_diamond
  exact ⟨hfound.2 hloop, herror.2 hloop, hnone, hok⟩

end JarRename.ClassIndex
