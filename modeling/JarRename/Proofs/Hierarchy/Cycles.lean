import Mathlib
import JarRename.Hierarchy.Ancestors

/-!
# The search for cycles is exact

The search fails exactly if a class is its own supertype. `Search` is the invariant of its state:
the classes that are entered are those on the path, each a supertype of the one before it, and from
a class that is done no supertype leads back. The fuel is more than the steps that are left, so the
path is empty at the end.
-/
namespace JarRename.ClassIndex

open Relation

/-- Whether `super` is a direct supertype of the indexed class `sub`. -/
def Extends (index : ClassIndex) (sub super : BinaryName) : Prop :=
  ∃ summary, index.get? sub = some summary ∧ super ∈ summary.supertypes

/-- No endless walk through supertypes begins at the class. -/
def Bounded (index : ClassIndex) (name : BinaryName) : Prop :=
  Acc (fun super sub => index.Extends sub super) name

variable {index : ClassIndex}

theorem mem_names_iff {name : BinaryName} :
    name ∈ index.names ↔ ∃ summary, index.get? name = some summary := by
  rw [names, Std.HashMap.mem_keys, Std.HashMap.mem_iff_isSome_getElem?, Option.isSome_iff_exists]
  rfl

theorem bounded_of_get?_eq_none {name : BinaryName} (h : index.get? name = none) :
    index.Bounded name :=
  Acc.intro name fun super ⟨summary, hs, _⟩ => by simp [h] at hs

theorem bounded_of_supertypes {name : BinaryName} {summary : ClassSummary}
    (h : index.get? name = some summary)
    (hs : ∀ super ∈ summary.supertypes, index.Bounded super) : index.Bounded name := by
  refine Acc.intro name fun super ⟨other, ho, hm⟩ => hs super ?_
  rw [h] at ho
  cases ho
  exact hm

theorem not_transGen_of_bounded (h : ∀ name, index.Bounded name) (name : BinaryName) :
    ¬TransGen index.Extends name name := by
  have hwf : WellFounded (fun super sub => index.Extends sub super) := ⟨h⟩
  intro hc
  exact hwf.transGen.irrefl.irrefl name (transGen_swap.2 hc)

/-- The path of the search, with the class that has been entered last from its first class. What has
been looked at below a class leads to no cycle, that class aside. -/
def Stacked (index : ClassIndex) :
    List (BinaryName × List BinaryName) → (above : Option BinaryName) → Prop
  | [], _ => True
  | (name, rest) :: path, above =>
    (∃ summary before, index.get? name = some summary ∧ summary.supertypes = before ++ rest ∧
      ∀ super ∈ before, index.Bounded super ∨ above = some super) ∧
    (∀ super, above = some super → index.Extends name super) ∧ Stacked index path (some name)

theorem Stacked.settle {path : List (BinaryName × List BinaryName)} {name : BinaryName}
    (h : Stacked index path (some name)) (hb : index.Bounded name) : Stacked index path none := by
  cases path with
  | nil => trivial
  | cons entry path =>
    obtain ⟨⟨summary, before, hs, he, hall⟩, -, hrest⟩ := h
    refine ⟨⟨summary, before, hs, he, fun super hm => ?_⟩, by simp, hrest⟩
    rcases hall super hm with hb' | ha
    · exact .inl hb'
    · cases ha
      exact .inl hb

/-- Every class on the path has the one that was entered last among its supertypes. -/
theorem Stacked.transGen {path : List (BinaryName × List BinaryName)} {above : BinaryName}
    (h : Stacked index path (some above)) {name : BinaryName} (hm : name ∈ path.map (·.1)) :
    TransGen index.Extends name above := by
  induction path generalizing above with
  | nil => simp at hm
  | cons entry path ih =>
    obtain ⟨-, hext, hrest⟩ := h
    have hlast := hext above rfl
    rcases List.mem_cons.1 hm with rfl | hm
    · exact .single hlast
    · exact .tail (ih hrest hm) hlast

structure Search (index : ClassIndex) (path : List (BinaryName × List BinaryName))
    (visits : Std.HashMap BinaryName Visit) : Prop where
  stacked : Stacked index path none
  nodup : (path.map (·.1)).Nodup
  entered : ∀ name, visits[name]? = some .entered ↔ name ∈ path.map (·.1)
  done : ∀ name, visits[name]? = some .done → index.Bounded name

namespace Search

variable {path : List (BinaryName × List BinaryName)} {visits : Std.HashMap BinaryName Visit}
  {name next : BinaryName} {rest : List BinaryName}

theorem getElem?_insert_iff {other : BinaryName} {visit found : Visit} :
    (visits.insert name visit)[other]? = some found ↔
      (name = other ∧ visit = found) ∨ (name ≠ other ∧ visits[other]? = some found) := by
  rw [Std.HashMap.getElem?_insert]
  split <;> simp_all

theorem empty : Search index [] ∅ := ⟨trivial, .nil, by simp, by simp⟩

theorem leave (h : Search index ((name, []) :: path) visits) :
    Search index path (visits.insert name .done) := by
  obtain ⟨⟨summary, before, hs, he, hall⟩, -, hrest⟩ := h.stacked
  obtain ⟨hnot, hnodup⟩ := List.nodup_cons.1 h.nodup
  have hb : index.Bounded name := by
    refine bounded_of_supertypes hs fun super hm => ?_
    rw [he, List.append_nil] at hm
    exact (hall super hm).resolve_right (by simp)
  refine ⟨hrest.settle hb, hnodup, fun other => ?_, fun other ho => ?_⟩
  · rw [getElem?_insert_iff, h.entered, List.map_cons, List.mem_cons]
    constructor
    · rintro (⟨-, hv⟩ | ⟨hne, hm⟩)
      · cases hv
      · exact hm.resolve_left (Ne.symm hne)
    · intro hm
      exact .inr ⟨fun heq => hnot (heq ▸ hm), .inr hm⟩
  · rcases getElem?_insert_iff.1 ho with ⟨rfl, -⟩ | ⟨-, ho⟩
    · exact hb
    · exact h.done other ho

theorem skip (h : Search index ((name, next :: rest) :: path) visits) (hb : index.Bounded next) :
    Search index ((name, rest) :: path) visits := by
  obtain ⟨⟨summary, before, hs, he, hall⟩, -, hrest⟩ := h.stacked
  refine ⟨⟨⟨summary, before ++ [next], hs, by simp [he], fun super hm => ?_⟩, by simp, hrest⟩,
    h.nodup, h.entered, h.done⟩
  rcases List.mem_append.1 hm with hm | hm
  · exact hall super hm
  · exact .inl (List.mem_singleton.1 hm ▸ hb)

theorem push (h : Search index path visits) {below : List (BinaryName × List BinaryName)}
    (hb : Stacked index below (some next)) (same : below.map (·.1) = path.map (·.1))
    {summary : ClassSummary} (hn : visits[next]? = none) (hs : index.get? next = some summary) :
    Search index ((next, summary.supertypes) :: below) (visits.insert next .entered) := by
  have hnot : next ∉ below.map (·.1) := by
    rw [same, ← h.entered, hn]
    simp
  refine ⟨⟨⟨summary, [], hs, rfl, by simp⟩, by simp, hb⟩,
    List.nodup_cons.2 ⟨hnot, same ▸ h.nodup⟩, fun other => ?_, fun other ho => ?_⟩
  · rw [getElem?_insert_iff, h.entered, List.map_cons, List.mem_cons, same]
    constructor
    · rintro (⟨rfl, -⟩ | ⟨-, hm⟩)
      · exact .inl rfl
      · exact .inr hm
    · intro hm
      by_cases heq : next = other
      · exact .inl ⟨heq, rfl⟩
      · exact .inr ⟨heq, hm.resolve_left (Ne.symm heq)⟩
  · rcases getElem?_insert_iff.1 ho with ⟨-, hv⟩ | ⟨-, ho⟩
    · cases hv
    · exact h.done other ho

theorem enter (h : Search index ((name, next :: rest) :: path) visits) {summary : ClassSummary}
    (hn : visits[next]? = none) (hs : index.get? next = some summary) :
    Search index ((next, summary.supertypes) :: (name, rest) :: path)
      (visits.insert next .entered) := by
  obtain ⟨⟨outer, before, ho, he, hall⟩, -, hrest⟩ := h.stacked
  have hext : index.Extends name next := ⟨outer, ho, by simp [he]⟩
  have hb : Stacked index ((name, rest) :: path) (some next) := by
    refine ⟨⟨outer, before ++ [next], ho, by simp [he], fun super hm => ?_⟩,
      by simpa using hext, hrest⟩
    rcases List.mem_append.1 hm with hm | hm
    · exact .inl ((hall super hm).resolve_right (by simp))
    · exact .inr (by rw [List.mem_singleton.1 hm])
  exact h.push hb rfl hn hs

/-- A supertype that has been entered and not been left closes a cycle. -/
theorem cycle (h : Search index ((name, next :: rest) :: path) visits)
    (he : visits[next]? = some .entered) : TransGen index.Extends next next := by
  obtain ⟨⟨summary, before, hs, hsup, -⟩, -, hrest⟩ := h.stacked
  have hext : index.Extends name next := ⟨summary, hs, by simp [hsup]⟩
  rcases List.mem_cons.1 ((h.entered next).1 he) with heq | hm
  · exact .single (heq ▸ hext)
  · exact .tail (hrest.transGen hm) hext

end Search

section Steps

variable {path : List (BinaryName × List BinaryName)} {visits : Std.HashMap BinaryName Visit}

/-- The steps that are left for the classes on the path. -/
def pathSteps (path : List (BinaryName × List BinaryName)) : Nat :=
  (path.map fun entry => entry.2.length + 1).sum

/-- The steps that are left for the classes that have not been entered. -/
def stepsAhead (index : ClassIndex) (visits : Std.HashMap BinaryName Visit) : Nat :=
  (index.classes.toList.map fun entry =>
    if visits.contains entry.1 then 0 else entry.2.supertypes.length + 1).sum

theorem sum_map_add_le {α : Type} {f g : α → Nat} {items : List α} (h : ∀ x ∈ items, f x ≤ g x)
    {x : α} {k : Nat} (hx : x ∈ items) (hk : f x + k ≤ g x) :
    (items.map f).sum + k ≤ (items.map g).sum := by
  induction items with
  | nil => simp at hx
  | cons y items ih =>
    have hy := h y (by simp)
    have hle := List.sum_le_sum fun z hz => h z (List.mem_cons_of_mem y hz)
    simp only [List.map_cons, List.sum_cons]
    rcases List.mem_cons.1 hx with rfl | hx
    · omega
    · have hi := ih (fun z hz => h z (by simp [hz])) hx
      omega

theorem steps_insert_le (name : BinaryName) (visit : Visit) (entry : BinaryName × ClassSummary) :
    (if (visits.insert name visit).contains entry.1 then 0 else entry.2.supertypes.length + 1) ≤
      if visits.contains entry.1 then 0 else entry.2.supertypes.length + 1 := by
  rw [Std.HashMap.contains_insert]
  split <;> split <;> simp_all

theorem stepsAhead_insert_le (name : BinaryName) (visit : Visit) :
    index.stepsAhead (visits.insert name visit) ≤ index.stepsAhead visits :=
  List.sum_le_sum fun entry _ => steps_insert_le name visit entry

/-- Entering a class takes its steps from those that are ahead. -/
theorem stepsAhead_enter {name : BinaryName} {summary : ClassSummary}
    (hn : visits[name]? = none) (hs : index.get? name = some summary) (visit : Visit) :
    index.stepsAhead (visits.insert name visit) + (summary.supertypes.length + 1) ≤
      index.stepsAhead visits := by
  have hm : (name, summary) ∈ index.classes.toList :=
    Std.HashMap.mem_toList_iff_getElem?_eq_some.2 hs
  have hc : visits.contains name = false := by
    rw [← Std.HashMap.isSome_getElem?_eq_contains, hn]
    rfl
  refine sum_map_add_le (fun entry _ => steps_insert_le name visit entry) hm ?_
  simp [hc]

theorem values_eq_map_toList {α β : Type} [BEq α] [Hashable α] (map : Std.HashMap α β) :
    map.values = map.toList.map (·.2) := by
  show Std.DHashMap.Raw.values map.inner.1 = (Std.DHashMap.Raw.Const.toList map.inner.1).map (·.2)
  unfold Std.DHashMap.Raw.values Std.DHashMap.Raw.Const.toList
  rw [Std.DHashMap.Internal.Raw.foldRev_cons_apply, Std.DHashMap.Internal.Raw.foldRev_cons_mk]
  simp

theorem stepsAhead_lt_searchSteps : index.stepsAhead visits < index.searchSteps := by
  have hle : index.stepsAhead visits ≤
      (index.classes.toList.map fun entry => entry.2.supertypes.length + 1).sum := by
    refine List.sum_le_sum fun entry _ => ?_
    split <;> omega
  have hsum : ∀ (summaries : List ClassSummary) (n : Nat),
      summaries.foldl (fun n summary => n + summary.supertypes.length + 1) n =
        n + (summaries.map fun summary => summary.supertypes.length + 1).sum := by
    intro summaries
    induction summaries with
    | nil => simp
    | cons summary summaries ih =>
      intro n
      rw [List.foldl_cons, ih, List.map_cons, List.sum_cons]
      omega
  rw [searchSteps, hsum, toList, values_eq_map_toList, List.map_map]
  exact Nat.lt_one_add_iff.2 hle

/-- What a search that began with the given visits has found out. -/
def Outcome (index : ClassIndex) (visits : Std.HashMap BinaryName Visit) :
    Except BinaryName (Std.HashMap BinaryName Visit) → Prop
  | .ok after => Search index [] after ∧ ∀ name, visits.contains name → after.contains name
  | .error name => TransGen index.Extends name name

theorem Outcome.mono {visits' : Std.HashMap BinaryName Visit}
    {result : Except BinaryName (Std.HashMap BinaryName Visit)} (h : Outcome index visits' result)
    (hv : ∀ name, visits.contains name → visits'.contains name) : Outcome index visits result := by
  cases result with
  | ok after => exact ⟨h.1, fun name hn => h.2 name (hv name hn)⟩
  | error name => exact h

/-- A search with enough fuel leaves the whole path or finds a cycle. -/
theorem searchCycle_outcome {fuel : Nat} (h : Search index path visits)
    (hf : pathSteps path + index.stepsAhead visits < fuel) :
    Outcome index visits (index.searchCycle fuel path visits) := by
  fun_induction searchCycle index fuel path visits with
  | case1 => omega
  | case2 => exact ⟨h, fun _ hn => hn⟩
  | case3 fuel name path visits ih =>
    have hs := @stepsAhead_insert_le index visits name .done
    have hi := ih h.leave (by simp only [pathSteps, List.map_cons, List.sum_cons] at hf ⊢; omega)
    exact hi.mono fun other ho => by simp [ho]
  | case4 fuel name next rest path visits hv => exact h.cycle hv
  | case5 fuel name next rest path visits hv ih =>
    refine ih (h.skip (h.done next hv)) ?_
    simp only [pathSteps, List.map_cons, List.sum_cons, List.length_cons] at hf ⊢
    omega
  | case6 fuel name next rest path visits hv hg ih =>
    refine ih (h.skip (bounded_of_get?_eq_none hg)) ?_
    simp only [pathSteps, List.map_cons, List.sum_cons, List.length_cons] at hf ⊢
    omega
  | case7 fuel name next rest path visits hv summary hg ih =>
    have hs := stepsAhead_enter hv hg .entered
    have hi := ih (h.enter hv hg) (by
      simp only [pathSteps, List.map_cons, List.sum_cons, List.length_cons] at hf ⊢
      omega)
    exact hi.mono fun other ho => by simp [ho]

end Steps

/-- The search from one root, unless that has been seen. -/
def searchRoot (index : ClassIndex) (visits : Std.HashMap BinaryName Visit) (root : BinaryName) :
    Except BinaryName (Std.HashMap BinaryName Visit) :=
  match visits[root]?, index.get? root with
  | none, some summary =>
    index.searchCycle index.searchSteps [(root, summary.supertypes)] (visits.insert root .entered)
  | _, _ => .ok visits

theorem searchRoot_outcome {visits : Std.HashMap BinaryName Visit} (h : Search index [] visits)
    (root : BinaryName) : Outcome index visits (index.searchRoot visits root) ∧
      ∀ after, index.searchRoot visits root = .ok after → index.get? root ≠ none →
        after.contains root := by
  rcases hv : visits[root]? with _ | visit
  · rcases hg : index.get? root with _ | summary
    · simp only [searchRoot, hv, hg]
      exact ⟨⟨h, fun _ hn => hn⟩, by simp⟩
    · simp only [searchRoot, hv, hg]
      have hahead := stepsAhead_enter hv hg .entered
      have hsteps := @stepsAhead_lt_searchSteps index visits
      have hstart : Search index [(root, summary.supertypes)] (visits.insert root .entered) :=
        @Search.push index [] visits root h [] trivial rfl summary hv hg
      have ho := @searchCycle_outcome index _ _ index.searchSteps hstart (by
        simp only [pathSteps, List.map_cons, List.map_nil, List.sum_cons, List.sum_nil]
        omega)
      refine ⟨ho.mono fun other hm => by simp [hm], fun after ha _ => ?_⟩
      rw [ha] at ho
      exact ho.2 root (by simp)
  · have hc : visits.contains root := by
      rw [← Std.HashMap.isSome_getElem?_eq_contains, hv]
      rfl
    simp only [searchRoot, hv]
    refine ⟨⟨h, fun _ hn => hn⟩, fun after ha _ => ?_⟩
    cases ha
    exact hc

theorem roots_outcome {visits : Std.HashMap BinaryName Visit} (h : Search index [] visits)
    (roots : List BinaryName) : Outcome index visits (roots.foldlM index.searchRoot visits) ∧
      ∀ after, roots.foldlM index.searchRoot visits = .ok after →
        ∀ root ∈ roots, index.get? root ≠ none → after.contains root := by
  induction roots generalizing visits with
  | nil =>
    refine ⟨⟨h, fun _ hn => hn⟩, fun after _ root hm => ?_⟩
    simp at hm
  | cons root roots ih =>
    obtain ⟨ho, hfirst⟩ := searchRoot_outcome h root
    rw [List.foldlM_cons]
    rcases hr : index.searchRoot visits root with name | mid
    · rw [hr] at ho
      exact ⟨ho, fun after ha => by cases ha⟩
    · rw [hr] at ho
      obtain ⟨ho', hrest⟩ := ih ho.1
      refine ⟨ho'.mono ho.2, fun after ha other hm hg => ?_⟩
      have ha : roots.foldlM index.searchRoot mid = .ok after := ha
      rcases List.mem_cons.1 hm with rfl | hm
      · rw [ha] at ho'
        exact ho'.2 other (hfirst mid hr hg)
      · exact hrest after ha other hm hg

theorem findCycleFrom?_eq (index : ClassIndex) (roots : List BinaryName) :
    index.findCycleFrom? roots = match roots.foldlM index.searchRoot ∅ with
      | .ok _ => none
      | .error name => some name := rfl

/-- A class that names itself as its superclass is found where the search begins with it. -/
theorem findCycleFrom?_of_self {root : BinaryName} {summary : ClassSummary}
    {others roots : List BinaryName} (hg : index.get? root = some summary)
    (hs : summary.supertypes = root :: others) :
    index.findCycleFrom? (root :: roots) = some root := by
  have hsteps := @stepsAhead_lt_searchSteps index ∅
  obtain ⟨steps, hfuel⟩ : ∃ steps, index.searchSteps = steps + 1 :=
    Nat.exists_eq_add_one.2 (Nat.zero_lt_of_lt hsteps)
  have hroot : index.searchRoot ∅ root = .error root := by
    simp [searchRoot, hg, hs, hfuel, searchCycle]
  rw [findCycleFrom?_eq, List.foldlM_cons, hroot]
  rfl

section Roots

variable {roots : List BinaryName} {name : BinaryName}

/-- A search from all indexed classes, in any order, that finds nothing has been everywhere. -/
theorem bounded_of_findCycleFrom? (hall : ∀ root ∈ index.names, root ∈ roots)
    (h : index.findCycleFrom? roots = none) (name : BinaryName) : index.Bounded name := by
  obtain ⟨ho, hroots⟩ := roots_outcome (@Search.empty index) roots
  rw [findCycleFrom?_eq] at h
  split at h
  · rename_i after ha
    rw [ha] at ho
    rcases hg : index.get? name with _ | summary
    · exact bounded_of_get?_eq_none hg
    · have hm : name ∈ index.names := mem_names_iff.2 ⟨summary, hg⟩
      have hc := hroots after ha name (hall name hm) (by simp [hg])
      rw [← Std.HashMap.isSome_getElem?_eq_contains] at hc
      obtain ⟨visit, hv⟩ := Option.isSome_iff_exists.1 hc
      cases visit with
      | entered => simpa using (ho.1.entered name).1 hv
      | done => exact ho.1.done name hv
  · simp at h

/-- The search finds nothing but classes that are their own supertypes. -/
theorem transGen_of_findCycleFrom? (h : index.findCycleFrom? roots = some name) :
    TransGen index.Extends name name := by
  obtain ⟨ho, -⟩ := roots_outcome (@Search.empty index) roots
  rw [findCycleFrom?_eq] at h
  split at h
  · simp at h
  · rename_i found hf
    cases h
    rw [hf] at ho
    exact ho

end Roots

/-- The search finds a class that is its own supertype if there is one. -/
theorem not_transGen_of_findCycle? (h : index.findCycle? = none) (name : BinaryName) :
    ¬TransGen index.Extends name name := by
  have hb := @bounded_of_findCycleFrom? index index.names (fun _ hroot => hroot) h
  exact not_transGen_of_bounded hb name

theorem transGen_of_findCycle? {name : BinaryName} (h : index.findCycle? = some name) :
    TransGen index.Extends name name :=
  @transGen_of_findCycleFrom? index index.names name h

end JarRename.ClassIndex
