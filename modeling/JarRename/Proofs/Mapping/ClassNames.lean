import Mathlib
import JarRename.Mapping.Set
import JarRename.Proofs.Text.Cut

/-!
# New names of classes are names

A class with a valid name gets a valid name, from its own entry or below the new name of the class
around it. So the new name can stand wherever the old one did.
-/
namespace JarRename

open Text Name

namespace Name

theorem binaryError?_eq_none_iff_parts {cs : List Char} :
    binaryError? cs = none ↔ ∀ part ∈ splitOn '/' cs, partError? part = none := by
  rw [binaryError?_eq_none_iff, and_iff_right_iff_imp]
  rintro h rfl
  have hp := h [] (by simp [splitOn])
  simp [partError?] at hp

/-- The only mark in a valid name is the slash. -/
theorem isMark_of_mem {cs : List Char} (h : binaryError? cs = none) {c : Char} (hc : c ∈ cs) :
    isMark c = false ∨ c = '/' := by
  rw [binaryError?_eq_none_iff_parts] at h
  obtain hslash | ⟨piece, hpiece, hc⟩ := exists_piece_of_mem (· == '/') hc
  · exact .inr (by simpa using hslash)
  · exact .inl ((partError?_eq_none_iff.1 (h piece hpiece)).2 c hc)

/-- No other mark can be looked for in a valid name. -/
theorem notMem_of_isMark {cs : List Char} (h : binaryError? cs = none) {c : Char}
    (hm : isMark c = true) (hs : c ≠ '/') : c ∉ cs := by
  intro hc
  obtain hmark | hslash := isMark_of_mem h hc
  · rw [hm] at hmark
    cases hmark
  · exact hs hslash

/-- A valid name is no descriptor of an array type. -/
theorem head?_ne_bracket {cs : List Char} (h : binaryError? cs = none) : cs.head? ≠ some '[' :=
  fun hhead => notMem_of_isMark h rfl (by decide) (List.mem_of_head? hhead)

/-- A valid name is not that of a package with a slash at its end. -/
theorem getLast?_ne_slash {cs : List Char} (h : binaryError? cs = none) :
    cs.getLast? ≠ some '/' := by
  intro hlast
  obtain ⟨init, rfl⟩ := List.getLast?_eq_some_iff.1 hlast
  obtain ⟨front, last, hi⟩ := (List.eq_nil_or_concat' (splitOn '/' init)).resolve_left
    (splitWhere_ne_nil _ _)
  have hsplit : splitOn '/' (init ++ ['/']) = front ++ (last ++ []) :: [[]] :=
    splitWhere_append hi (by simp [splitWhere_cons])
  have hempty := binaryError?_eq_none_iff_parts.1 h [] (by simp [hsplit])
  simp [partError?] at hempty

/-- What stands before and after a `$` in a valid name. -/
theorem binaryError?_dollar {outer nested : List Char}
    (h : binaryError? (outer ++ '$' :: nested) = none) (ho : outer ≠ [])
    (hl : outer.getLast? ≠ some '/') :
    binaryError? outer = none ∧ ∀ mapped, binaryError? mapped = none →
      binaryError? (mapped ++ '$' :: nested) = none := by
  simp only [binaryError?_eq_none_iff_parts] at h ⊢
  obtain ⟨head, tail, hn⟩ : ∃ head tail, splitOn '/' ('$' :: nested) = head :: tail :=
    List.exists_cons_of_ne_nil (splitWhere_ne_nil _ _)
  obtain ⟨init, c, rfl⟩ := (List.eq_nil_or_concat' outer).resolve_left ho
  have hc : c ≠ '/' := by simpa using hl
  obtain ⟨front, last, hi⟩ := (List.eq_nil_or_concat' (splitOn '/' init)).resolve_left
    (splitWhere_ne_nil _ _)
  have hsplit : splitOn '/' (init ++ [c]) = front ++ [last ++ [c]] :=
    splitWhere_append hi (by simp [splitWhere_cons, hc])
  have hwhole : splitOn '/' (init ++ [c] ++ '$' :: nested) =
      front ++ (last ++ [c] ++ head) :: tail := splitWhere_append hsplit hn
  rw [hwhole] at h
  have hmid := partError?_eq_none_iff.1 (h (last ++ [c] ++ head) (by simp))
  refine ⟨fun part hm => ?_, fun mapped hmapped part hm => ?_⟩
  · rw [hsplit] at hm
    rcases List.mem_append.1 hm with hm | hm
    · exact h part (by simp [hm])
    · cases List.mem_singleton.1 hm
      exact partError?_eq_none_iff.2 ⟨by simp, fun c hc => hmid.2 c (List.mem_append_left _ hc)⟩
  · obtain ⟨front', last', hm'⟩ := (List.eq_nil_or_concat' (splitOn '/' mapped)).resolve_left
      (splitWhere_ne_nil _ _)
    have hlast := partError?_eq_none_iff.1 (hmapped last' (by simp [hm']))
    rw [show splitOn '/' (mapped ++ '$' :: nested) = front' ++ (last' ++ head) :: tail from
      splitWhere_append hm' hn] at hm
    rcases List.mem_append.1 hm with hm | hm
    · exact hmapped part (by simp [hm', hm])
    rcases List.mem_cons.1 hm with rfl | hm
    · refine partError?_eq_none_iff.2 ⟨by simp [hlast.1], fun c hc => ?_⟩
      rcases List.mem_append.1 hc with hc | hc
      · exact hlast.2 c hc
      · exact hmid.2 c (List.mem_append_right _ hc)
    · exact h part (by simp [hm])

end Name

namespace ClassTable

/-- What stands before the cut is no package, and there is something. -/
theorem outer_of_enclosing? {name outer nested : List Char}
    (h : enclosing? name = some (outer, nested)) : outer ≠ [] ∧ outer.getLast? ≠ some '/' := by
  unfold enclosing? at h
  split at h
  · simp at h
  · split at h
    · simp at h
    · rename_i hb
      cases h
      simp only [Bool.or_eq_true, List.isEmpty_iff, beq_iff_eq, not_or] at hb
      exact ⟨hb.1.1, hb.2⟩

/-- A proof about new names follows the ways to a new name: an entry of its own, no class around,
and the new name of the class around. -/
@[elab_as_elim]
theorem mapName_induct (table : ClassTable) {motive : List Char → Prop}
    (entry : ∀ name mapped, table.get? (String.ofList name) = some mapped →
      table.mapName name = mapped.text.toList → motive name)
    (alone : ∀ name, table.get? (String.ofList name) = none → enclosing? name = none →
      table.mapName name = name → motive name)
    (nested : ∀ outer part, table.get? (String.ofList (outer ++ '$' :: part)) = none →
      enclosing? (outer ++ '$' :: part) = some (outer, part) →
      table.mapName (outer ++ '$' :: part) = table.mapName outer ++ '$' :: part →
      motive outer → motive (outer ++ '$' :: part))
    (name : List Char) : motive name := by
  -- The class around a nested class has a shorter name.
  induction hn : name.length using Nat.strong_induction_on generalizing name with
  | h n ih =>
    have hmap := table.mapName_eq name
    cases ho : table.get? (String.ofList name) with
    | some mapped =>
      rw [ho] at hmap
      exact entry name mapped ho hmap
    | none =>
      cases he : enclosing? name with
      | none =>
        rw [ho, he] at hmap
        exact alone name ho he hmap
      | some cut =>
        obtain ⟨outer, part⟩ := cut
        obtain rfl := eq_append_of_enclosing? he
        rw [ho, he] at hmap
        have hshorter : outer.length < n := by
          rw [← hn, List.length_append, List.length_cons]
          omega
        exact nested outer part ho he hmap (ih outer.length hshorter outer rfl)

/-- A class without a name has no entry and no class around it. -/
theorem mapName_nil (table : ClassTable) : table.mapName [] = [] := by
  have hnone : table.get? (String.ofList []) = none := rfl
  rw [table.mapName_eq, hnone]
  rfl

theorem mapName_ne_nil {table : ClassTable} {name : List Char} (h : name ≠ []) :
    table.mapName name ≠ [] := by
  induction name using table.mapName_induct with
  | entry name mapped _ hmap =>
    rw [hmap]
    exact (binaryError?_eq_none_iff.1 mapped.valid).1
  | alone name _ _ hmap => rwa [hmap]
  | nested outer part _ _ hmap _ => simp [hmap]

theorem binaryError?_mapName (table : ClassTable) {name : List Char}
    (h : binaryError? name = none) : binaryError? (table.mapName name) = none := by
  induction name using table.mapName_induct with
  | entry name mapped _ hmap =>
    rw [hmap]
    exact mapped.valid
  | alone name _ _ hmap =>
    rw [hmap]
    exact h
  | nested outer part _ he hmap ih =>
    obtain ⟨ho, hl⟩ := outer_of_enclosing? he
    obtain ⟨houter, hall⟩ := binaryError?_dollar h ho hl
    rw [hmap]
    exact hall _ (ih houter)

/-- A new name is made of the old one and of mapped names. -/
theorem mem_mapName {table : ClassTable} {c : Char} {name : List Char}
    (h : c ∈ table.mapName name) :
    c ∈ name ∨ ∃ own mapped, table.get? own = some mapped ∧ c ∈ mapped.text.toList := by
  induction name using table.mapName_induct with
  | entry name mapped ho hmap =>
    rw [hmap] at h
    exact .inr ⟨_, mapped, ho, h⟩
  | alone name _ _ hmap =>
    rw [hmap] at h
    exact .inl h
  | nested outer part _ _ hmap ih =>
    rw [hmap] at h
    obtain hm | hm := List.mem_append.1 h
    · obtain hc | hc := ih hm
      · exact .inl (List.mem_append_left _ hc)
      · exact .inr hc
    · exact .inl (List.mem_append_right _ hm)

end ClassTable

namespace MappingSet

/-- A valid name is not left out of the renaming. -/
@[simp] theorem mapBinaryName_text (set : MappingSet) (name : BinaryName) :
    (set.mapBinaryName name).text = set.mapClass name.text := by
  have hv : binaryError? (set.mapClass name.text).toList = none := by
    rw [mapClass, String.toList_ofList]
    exact set.classes.binaryError?_mapName name.valid
  have ho := BinaryName.ofString?_text ⟨set.mapClass name.text, hv⟩
  simp only at ho
  simp [mapBinaryName, ho]

end MappingSet

end JarRename
