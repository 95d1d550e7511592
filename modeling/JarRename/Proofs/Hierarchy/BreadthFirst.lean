import Mathlib
import JarRename.Proofs.Hierarchy.Acyclic
import JarRename.Proofs.Hierarchy.Ancestors

/-!
# Both walks are one breadth-first search

The walk to the supertypes lists every supertype once, nearer ones first: `Layered` says that the
classes that wait in the queue are ordered by their distance, and that these distances differ by one
at most. The search for a declaration goes through the same classes in the same order, so it finds
the first class in the list that declares the member. A resolver gives the same answer, whatever it
has been asked before.
-/
namespace JarRename

open Relation

namespace ClassIndex

variable {index : ClassIndex} {start : BinaryName} {queue : List ClassSummary}
  {seen : Std.HashSet BinaryName} {found : List BinaryName} {summary : ClassSummary}

section Distance

variable {n : Nat} {name : BinaryName}

/-- The supertype is reached in so many steps. -/
inductive Steps (index : ClassIndex) (start : BinaryName) : Nat → BinaryName → Prop
  | here : Steps index start 0 start
  | up {n : Nat} {sub super : BinaryName} (way : Steps index start n sub)
      (step : index.Extends sub super) : Steps index start (n + 1) super

/-- The fewest steps to a supertype. -/
noncomputable def distance (index : ClassIndex) (start name : BinaryName) : Nat :=
  sInf {n | index.Steps start n name}

theorem exists_steps (h : ReflTransGen index.Extends start name) :
    ∃ n, index.Steps start n name := by
  induction h with
  | refl => exact ⟨0, .here⟩
  | tail _ he ih =>
    obtain ⟨n, hn⟩ := ih
    exact ⟨n + 1, hn.up he⟩

theorem distance_le (h : index.Steps start n name) : index.distance start name ≤ n := Nat.sInf_le h

theorem steps_distance (h : ReflTransGen index.Extends start name) :
    index.Steps start (index.distance start name) name := by
  have hex : {n | index.Steps start n name}.Nonempty := exists_steps h
  exact Nat.sInf_mem hex

end Distance

/-- The walk goes from layer to layer. -/
structure Layered (index : ClassIndex) (start : BinaryName) (queue : List ClassSummary)
    (seen : Std.HashSet BinaryName) (found : List BinaryName) : Prop where
  walk : index.Walk start queue seen found
  marked : ∀ summary ∈ queue, summary.name ∈ seen
  ordered : queue.Pairwise fun near far =>
    index.distance start near.name ≤ index.distance start far.name
  spread : ∀ summary ∈ queue, ∀ name ∈ seen,
    index.distance start name ≤ index.distance start summary.name + 1
  nodup : found.Nodup
  falling : found.Pairwise fun far near => index.distance start near ≤ index.distance start far

theorem layered_start (hk : index.Keyed) (h : index.get? start = some summary) :
    index.Layered start [summary] (Std.HashSet.emptyWithCapacity.insert start) [] where
  walk := walk_start hk h
  marked := by simp [hk start summary h]
  ordered := List.pairwise_singleton _ _
  spread := by
    intro other _ name hn
    have hsame : start = name := by simpa using hn
    subst hsame
    have hzero : index.distance start start ≤ 0 := distance_le .here
    omega
  nodup := List.nodup_nil
  falling := .nil

namespace Layered

variable {name : BinaryName}

theorem first_le (h : index.Layered start (summary :: queue) seen found) {other : ClassSummary}
    (ho : other ∈ summary :: queue) :
    index.distance start summary.name ≤ index.distance start other.name := by
  rcases List.mem_cons.1 ho with rfl | ho
  · exact le_rfl
  · exact (List.pairwise_cons.1 h.ordered).1 other ho

/-- What is no farther than the first class of the queue has been met. -/
theorem mem_seen_of_steps (hk : index.Keyed)
    (h : index.Layered start (summary :: queue) seen found) {n : Nat}
    (hs : index.Steps start n name) (hn : n ≤ index.distance start summary.name) : name ∈ seen := by
  induction hs with
  | here => exact (h.walk.seen_iff start).2 (.inl rfl)
  | @up n sub super way he ih =>
    have hsub := ih (by omega)
    obtain ⟨other, hg, hm⟩ := he
    rcases h.walk.closed sub hsub other hg with hq | hall
    · -- a class that still waits is not nearer than the first one
      have hle := h.first_le hq
      have hsame := hk sub other hg
      have hway := distance_le way
      rw [hsame] at hle
      omega
    · exact hall super hm

theorem distance_unseen (hk : index.Keyed)
    (h : index.Layered start (summary :: queue) seen found)
    (hn : name ∈ (unseen seen summary.supertypes).1) :
    index.distance start name = index.distance start summary.name + 1 := by
  obtain ⟨hm, hnot⟩ := mem_unseen_iff.1 hn
  obtain ⟨hg, hreach⟩ := h.walk.reached summary (by simp)
  have he : index.Extends summary.name name := ⟨summary, hg, hm⟩
  have hle := distance_le ((steps_distance hreach).up he)
  have hway := steps_distance (hreach.tail he)
  have hfar : ¬index.distance start name ≤ index.distance start summary.name := by
    intro hnear
    exact hnot (h.mem_seen_of_steps hk hway hnear)
  omega

theorem distance_waiting (hk : index.Keyed)
    (h : index.Layered start (summary :: queue) seen found) {other : ClassSummary}
    (ho : other ∈ (unseen seen summary.supertypes).1.filterMap index.get?) :
    index.distance start other.name = index.distance start summary.name + 1 := by
  obtain ⟨name, hn, hg⟩ := List.mem_filterMap.1 ho
  have hsame := hk name other hg
  exact h.distance_unseen hk (hsame ▸ hn)

/-- Everything met lies at most one step beyond the class that is left. -/
theorem distance_seen_le (hk : index.Keyed)
    (h : index.Layered start (summary :: queue) seen found)
    (hn : name ∈ (unseen seen summary.supertypes).2) :
    index.distance start name ≤ index.distance start summary.name + 1 := by
  by_cases hs : name ∈ seen
  · exact h.spread summary (by simp) name hs
  · have hm := (mem_seen_iff.1 hn).resolve_left hs
    exact (h.distance_unseen hk (mem_unseen_iff.2 ⟨hm, hs⟩)).le

theorem step (hk : index.Keyed) (h : index.Layered start (summary :: queue) seen found) :
    index.Layered start (queue ++ (unseen seen summary.supertypes).1.filterMap index.get?)
      (unseen seen summary.supertypes).2
      ((unseen seen summary.supertypes).1.reverse ++ found) where
  walk := h.walk.step hk
  marked := by
    intro other ho
    rcases List.mem_append.1 ho with ho | ho
    · exact mem_seen_iff.2 (.inl (h.marked other (by simp [ho])))
    · obtain ⟨name, hn, hg⟩ := List.mem_filterMap.1 ho
      have hsame := hk name other hg
      exact mem_seen_iff.2 (.inr (hsame ▸ (mem_unseen_iff.1 hn).1))
  ordered := by
    have hnew : ((unseen seen summary.supertypes).1.filterMap index.get?).Pairwise
        fun near far => index.distance start near.name ≤ index.distance start far.name := by
      apply List.pairwise_of_forall_mem_list
      intro near hnear far hfar
      rw [h.distance_waiting hk hnear, h.distance_waiting hk hfar]
    refine List.pairwise_append.2 ⟨(List.pairwise_cons.1 h.ordered).2, hnew, ?_⟩
    intro near hnear far hfar
    rw [h.distance_waiting hk hfar]
    exact h.spread summary (by simp) near.name (h.marked near (by simp [hnear]))
  spread := by
    intro other ho name hn
    have hname := h.distance_seen_le hk hn
    have hother : index.distance start summary.name ≤ index.distance start other.name := by
      rcases List.mem_append.1 ho with ho | ho
      · exact h.first_le (by simp [ho])
      · have heq := h.distance_waiting hk ho
        omega
    omega
  nodup := by
    refine List.nodup_append.2 ⟨List.nodup_reverse.2 (nodup_unseen _ _), h.nodup, ?_⟩
    intro fresh hf old ho heq
    have hnot := (mem_unseen_iff.1 (List.mem_reverse.1 hf)).2
    have hold := (h.walk.seen_iff old).2 (.inr ho)
    exact hnot (heq ▸ hold)
  falling := by
    have hnew : (unseen seen summary.supertypes).1.reverse.Pairwise
        fun far near => index.distance start near ≤ index.distance start far := by
      apply List.pairwise_of_forall_mem_list
      intro far hfar near hnear
      rw [h.distance_unseen hk (List.mem_reverse.1 hfar),
        h.distance_unseen hk (List.mem_reverse.1 hnear)]
    refine List.pairwise_append.2 ⟨hnew, h.falling, ?_⟩
    intro far hfar near hnear
    have hseen := (h.walk.seen_iff near).2 (.inr hnear)
    rw [h.distance_unseen hk (List.mem_reverse.1 hfar)]
    exact h.spread summary (by simp) near hseen

end Layered

theorem ancestorsFrom_layered (hk : index.Keyed) {fuel : Nat}
    (h : index.Layered start queue seen found) :
    (index.ancestorsFrom fuel queue seen found).Nodup ∧
      (index.ancestorsFrom fuel queue seen found).Pairwise fun near far =>
        index.distance start near ≤ index.distance start far := by
  fun_induction ancestorsFrom index fuel queue seen found with
  | case1 => exact ⟨List.nodup_reverse.2 h.nodup, List.pairwise_reverse.2 h.falling⟩
  | case2 => exact ⟨List.nodup_reverse.2 h.nodup, List.pairwise_reverse.2 h.falling⟩
  | case3 fuel summary queue seen found fresh seen' hu ih =>
    have hstep := h.step hk
    rw [hu] at hstep
    exact ih hstep

/-- No supertype is listed twice, and none after one that is farther away. -/
theorem ancestors_layered (hk : index.Keyed) (start : BinaryName) :
    (index.ancestors start.text).Nodup ∧
      (index.ancestors start.text).Pairwise fun near far =>
        index.distance start near ≤ index.distance start far := by
  rw [ancestors, find?_text]
  cases hg : index.get? start with
  | none => exact ⟨List.nodup_nil, .nil⟩
  | some summary =>
    have hname := hk start summary hg
    dsimp only
    rw [hname]
    exact ancestorsFrom_layered hk (layered_start hk hg)

/-- Without cycles the class asked about is not listed anyway. A text that is no name has no
supertypes. -/
theorem mem_ancestors_text (hk : index.Keyed) (ha : index.Acyclic) {text : String}
    {name : BinaryName} : name ∈ index.ancestors text ↔
      ∃ first : BinaryName, first.text = text ∧ TransGen index.Extends first name := by
  constructor
  · intro hm
    cases hf : index.find? text with
    | none => simp [ancestors, hf] at hm
    | some summary =>
      obtain ⟨first, rfl, -⟩ := exists_name_of_find? hf
      exact ⟨first, rfl, ((mem_ancestors_iff hk).1 hm).1⟩
  · rintro ⟨first, rfl, ht⟩
    refine (mem_ancestors_iff hk).2 ⟨ht, ?_⟩
    rintro rfl
    exact ha name ht

theorem nodup_ancestors (hk : index.Keyed) (text : String) : (index.ancestors text).Nodup := by
  cases hf : index.find? text with
  | none => simp [ancestors, hf]
  | some summary =>
    obtain ⟨first, rfl, -⟩ := exists_name_of_find? hf
    exact (ancestors_layered hk first).1

section Owner

variable {kind : MemberKind} {member : MemberKey}

/-- Whether the class is indexed and declares the member. -/
def declaresAt (index : ClassIndex) (kind : MemberKind) (member : MemberKey) (name : BinaryName) :
    Bool :=
  (index.get? name).any fun summary => summary.declares kind member

theorem declaresAt_eq (h : index.get? start = some summary) :
    index.declaresAt kind member start = summary.declares kind member := by
  simp [declaresAt, h]

/-- Names that are not indexed do not matter to the search. -/
theorem find?_filterMap_get? (hk : index.Keyed) (names : List BinaryName) :
    ((names.filterMap index.get?).map (·.name)).find? (index.declaresAt kind member) =
      names.find? (index.declaresAt kind member) := by
  induction names with
  | nil => rfl
  | cons name names ih =>
    cases hg : index.get? name with
    | none =>
      have hno : index.declaresAt kind member name = false := by simp [declaresAt, hg]
      rw [List.filterMap_cons_none hg, List.find?_cons, hno]
      exact ih
    | some summary =>
      have hname := hk name summary hg
      rw [List.filterMap_cons_some hg, List.map_cons, hname, List.find?_cons, List.find?_cons, ih]

theorem ancestorsFrom_eq_append (fuel : Nat) (queue : List ClassSummary)
    (seen : Std.HashSet BinaryName) (found : List BinaryName) :
    index.ancestorsFrom fuel queue seen found =
      found.reverse ++ index.ancestorsFrom fuel queue seen [] := by
  induction fuel generalizing queue seen found with
  | zero => simp [ancestorsFrom]
  | succ fuel ih =>
    cases queue with
    | nil => simp [ancestorsFrom]
    | cons summary queue =>
      simp only [ancestorsFrom]
      rw [ih _ _ (_ ++ found), ih _ _ (_ ++ []), List.reverse_append, List.append_nil,
        List.append_assoc]

/-- The search finds what stands first in the queue or in what the walk lists from there on. -/
theorem findOwnerFrom_eq_find? (hk : index.Keyed) {fuel : Nat} (hq : index.Reached start queue)
    (hf : queue.length + index.ahead seen < fuel) :
    index.findOwnerFrom kind member fuel queue seen =
      (queue.map (·.name) ++ index.ancestorsFrom fuel queue seen []).find?
        (index.declaresAt kind member) := by
  fun_induction findOwnerFrom index kind member fuel queue seen with
  | case1 => omega
  | case2 fuel seen => simp [ancestorsFrom]
  | case3 fuel summary queue seen hd =>
    have hat := @declaresAt_eq index _ summary kind member (hq summary (by simp)).1
    rw [List.map_cons, List.cons_append, List.find?_cons, hat, hd]
  | case4 fuel summary queue seen hd fresh seen' hu ih =>
    have hat := @declaresAt_eq index _ summary kind member (hq summary (by simp)).1
    have hstep := hq.step hk seen
    have hle := @ahead_unseen index summary.supertypes seen
    rw [hu] at hstep hle
    rw [List.length_cons] at hf
    have hnext : (queue ++ fresh.filterMap index.get?).length + index.ahead seen' < fuel := by
      rw [List.length_append]
      dsimp only at hle
      omega
    have hi := ih hstep hnext
    have hno : summary.declares kind member = false := by simpa using hd
    have hwalk : index.ancestorsFrom (fuel + 1) (summary :: queue) seen [] =
        fresh ++ index.ancestorsFrom fuel (queue ++ fresh.filterMap index.get?) seen' [] := by
      simp only [ancestorsFrom, hu]
      rw [ancestorsFrom_eq_append, List.append_nil, List.reverse_reverse]
    rw [hi, hwalk, List.map_cons, List.cons_append, List.find?_cons, hat, hno, List.map_append,
      List.append_assoc, List.find?_append, List.find?_append, List.find?_append,
      List.find?_append, find?_filterMap_get? hk]

/-- The owner of a member is the first class that declares it, the class asked about first and its
supertypes in the order in which the walk lists them. -/
theorem findOwner_eq_find? (hk : index.Keyed) (h : index.get? start = some summary) :
    index.findOwner start.text kind member =
      (start :: index.ancestors start.text).find? (index.declaresAt kind member) := by
  have hname := hk start summary h
  have hle := ahead_start h
  have hfuel : [summary].length + index.ahead (Std.HashSet.emptyWithCapacity.insert start) <
      index.size + 1 := by
    rw [List.length_singleton]
    omega
  have hfrom := @findOwnerFrom_eq_find? index start _ _ kind member hk _ (reached_start hk h) hfuel
  rw [findOwner, ancestors, find?_text, h]
  dsimp only
  rw [hname, hfrom, List.map_singleton, List.singleton_append, hname]

/-- A member that a class or a supertype declares is found. -/
theorem exists_findOwner (hk : index.Keyed) {owner : BinaryName} {declaring : ClassSummary}
    (hreach : ReflTransGen index.Extends start owner) (hg : index.get? owner = some declaring)
    (hd : declaring.declares kind member = true) :
    ∃ found, index.findOwner start.text kind member = some found := by
  obtain ⟨summary, hs⟩ : ∃ summary, index.get? start = some summary := by
    rcases ReflTransGen.cases_head hreach with rfl | ⟨_, ⟨summary, hs, -⟩, -⟩
    · exact ⟨declaring, hg⟩
    · exact ⟨summary, hs⟩
  have hm : owner ∈ start :: index.ancestors start.text := by
    by_cases hne : owner = start
    · exact hne ▸ List.mem_cons_self
    · refine List.mem_cons_of_mem _ ((mem_ancestors_iff hk).2 ⟨?_, hne⟩)
      exact (reflTransGen_iff_eq_or_transGen.1 hreach).resolve_left hne
  rw [findOwner_eq_find? hk hs]
  cases hf : (start :: index.ancestors start.text).find? (index.declaresAt kind member) with
  | some found => exact ⟨found, rfl⟩
  | none =>
    have hno := List.find?_eq_none.1 hf owner hm
    rw [declaresAt_eq hg] at hno
    exact absurd hd hno

/-- The same for any text, which names no indexed class if it is no name. -/
theorem text_findOwner (hk : index.Keyed) (text : String) :
    (index.findOwner text kind member).map (·.text) =
      (text :: (index.ancestors text).map (·.text)).find? fun name =>
        (index.find? name).any fun summary => summary.declares kind member := by
  cases hf : index.find? text with
  | none => simp [findOwner, ancestors, hf]
  | some summary =>
    obtain ⟨start, rfl, hg⟩ := exists_name_of_find? hf
    have hat : (fun name : String => (index.find? name).any fun summary =>
        summary.declares kind member) ∘ BinaryName.text = index.declaresAt kind member := by
      funext name
      simp [declaresAt]
    rw [findOwner_eq_find? hk hg, ← List.map_cons, List.find?_map, hat]

end Owner

end ClassIndex

namespace Resolver

open ClassIndex

/-- The answers to questions that are asked one after the other. -/
def resolveAll (resolver : Resolver) :
    List (String × MemberKind × MemberKey) → List (Option BinaryName)
  | [] => []
  | (start, kind, member) :: queries =>
    (resolver.resolve start kind member).1 ::
      resolveAll (resolver.resolve start kind member).2 queries

variable {index : ClassIndex} {resolver : Resolver}

theorem Faithful.resolveAll_eq (hk : index.Keyed) (h : Faithful index resolver)
    (queries : List (String × MemberKind × MemberKey)) :
    resolver.resolveAll queries =
      queries.map fun (start, kind, member) => index.findOwner start kind member := by
  induction queries generalizing resolver with
  | nil => rfl
  | cons query queries ih =>
    obtain ⟨start, kind, member⟩ := query
    obtain ⟨hanswer, hnext⟩ := h.resolve hk start kind member
    rw [resolveAll, List.map_cons, hanswer, ih hnext]

section Sample

theorem made_diamond : ClassIndex.Made diamondIndex := Made.foldl_insert .empty diamondSummaries

theorem declares_diamond {text : String} : ((diamondIndex.find? text).any fun summary =>
    summary.declares .method callMember) = true ↔ text = "Top" := by
  rw [Option.any_eq_true]
  constructor
  · rintro ⟨summary, hf, hd⟩
    obtain ⟨name, rfl, hg⟩ := exists_name_of_find? hf
    obtain ⟨hm, rfl⟩ := get?_diamond_iff.1 hg
    simp only [diamondSummaries, List.mem_cons, List.not_mem_nil, or_false] at hm
    rcases hm with rfl | rfl | rfl | rfl
    · simp [plainSummary, ClassSummary.declares] at hd
    · simp [plainSummary, ClassSummary.declares] at hd
    · simp [plainSummary, ClassSummary.declares] at hd
    · rfl
  · rintro rfl
    have hg : diamondIndex.get? topName = some topSummary :=
      get?_diamond_iff.2 ⟨by simp [diamondSummaries], rfl⟩
    refine ⟨topSummary, ?_, by simp [topSummary, ClassSummary.declares]⟩
    rw [← hg, ← find?_text, topName]

theorem transGen_diamond : TransGen diamondIndex.Extends bottomName topName := by
  have hbottom : diamondIndex.Extends bottomName leftName :=
    ⟨_, get?_diamond_iff.2 ⟨List.mem_cons_self, rfl⟩, by decide +kernel⟩
  have hleft : diamondIndex.Extends leftName topName :=
    ⟨plainSummary leftName .object [topName], get?_diamond_iff.2 ⟨by simp [diamondSummaries], rfl⟩,
      by decide +kernel⟩
  exact .tail (.single hbottom) hleft

end Sample

/-- A hierarchy without cycles has a resolver, and whatever questions that has been asked, it
answers as a new one does. The answer is the first class that declares the member, among the class
asked about and its supertypes in their order. The supertypes are those that are reached in one or
more steps, each of them once, and none after one that is farther away. -/
theorem resolve_breadth_first (hm : ClassIndex.Made index) (ha : index.Acyclic) :
    ∃ fresh, Resolver.ofIndex index = .ok fresh ∧
      (∀ queries, fresh.resolveAll queries =
        queries.map fun (start, kind, member) => (fresh.resolve start kind member).1) ∧
      (∀ start kind member, (fresh.resolve start kind member).1.map (·.text) =
        (start :: (index.ancestors start).map (·.text)).find? fun name =>
          (index.find? name).any fun summary => summary.declares kind member) ∧
      ∀ start,
        (∀ name, name ∈ index.ancestors start ↔
          ∃ first : BinaryName, first.text = start ∧ TransGen index.Extends first name) ∧
        (index.ancestors start).Nodup ∧
        ∀ first : BinaryName, first.text = start →
          (index.ancestors start).Pairwise fun near far =>
            index.distance first near ≤ index.distance first far := by
  have hk := hm.keyed
  have hok := ha.ofIndex_ok
  have hfaithful := (Asked.fresh hok).faithful hk
  have hfresh : ∀ start kind member,
      ((⟨index, ∅⟩ : Resolver).resolve start kind member).1 = index.findOwner start kind member :=
    fun start kind member => (hfaithful.resolve hk start kind member).1
  refine ⟨⟨index, ∅⟩, hok, ?_, ?_, ?_⟩
  · intro queries
    rw [hfaithful.resolveAll_eq hk]
    simp only [hfresh]
  · intro start kind member
    rw [hfresh, text_findOwner hk]
  · intro start
    refine ⟨fun name => mem_ancestors_text hk ha, nodup_ancestors hk start, ?_⟩
    rintro first rfl
    exact (ancestors_layered hk first).2

theorem resolve_breadth_first_sample :
    ∃ fresh, Resolver.ofIndex diamondIndex = .ok fresh ∧
      fresh.resolveAll [("Bottom", .method, callMember), ("Bottom", .method, callMember)] =
        [some topName, some topName] ∧
      topName ∈ diamondIndex.ancestors "Bottom" := by
  obtain ⟨fresh, hok, hall, hfirst, hancestors⟩ :=
    resolve_breadth_first made_diamond ranked_diamond.acyclic
  have htop : topName ∈ diamondIndex.ancestors "Bottom" :=
    ((hancestors "Bottom").1 topName).2 ⟨bottomName, rfl, transGen_diamond⟩
  have hanswer : (fresh.resolve "Bottom" .method callMember).1 = some topName := by
    have hexists : ∃ name,
        (fresh.resolve "Bottom" .method callMember).1.map (·.text) = some name := by
      rw [hfirst]
      refine Option.isSome_iff_exists.1 (List.find?_isSome.2 ⟨"Top", ?_, declares_diamond.2 rfl⟩)
      exact List.mem_cons_of_mem _ (List.mem_map.2 ⟨topName, htop, rfl⟩)
    obtain ⟨name, hname⟩ := hexists
    have hdeclares := hname
    rw [hfirst] at hdeclares
    have hdeclared := List.find?_some hdeclares
    have hsame : name = topName.text := declares_diamond.1 hdeclared
    rw [hsame] at hname
    exact (Option.map_injective BinaryName.text_injective) hname
  refine ⟨fresh, hok, ?_, htop⟩
  rw [hall]
  simp [hanswer]

end Resolver

end JarRename
