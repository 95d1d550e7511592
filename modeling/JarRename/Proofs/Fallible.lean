import Mathlib

/-!
# Computations that may fail

A computation succeeds exactly if all its steps do, and otherwise its first failing step says why. A
list is worked through element by element, so its results stand beside its elements.
-/
namespace JarRename

namespace Fallible

variable {α β δ ε : Type}

theorem exists_ok_of_isOk {action : Except ε α} (h : action.isOk = true) :
    ∃ x, action = .ok x := by
  cases action with
  | error e => cases h
  | ok x => exact ⟨x, rfl⟩

theorem eq_ok_getD [Inhabited α] {action : Except ε α} (h : action.isOk = true) :
    action = .ok (action.toOption.getD default) := by
  obtain ⟨x, rfl⟩ := exists_ok_of_isOk h
  rfl

theorem bind_ok_iff {action : Except ε α} {next : α → Except ε β} {y : β} :
    (action >>= next) = .ok y ↔ ∃ x, action = .ok x ∧ next x = .ok y := by
  cases action with
  | error e => simp [bind, Except.bind]
  | ok x => simp [bind, Except.bind]

theorem bind_error_iff {action : Except ε α} {next : α → Except ε β} {e : ε} :
    (action >>= next) = .error e ↔
      action = .error e ∨ ∃ x, action = .ok x ∧ next x = .error e := by
  cases action <;> simp [bind, Except.bind]

theorem map_ok_iff {action : Except ε α} {f : α → β} {y : β} :
    f <$> action = .ok y ↔ ∃ x, action = .ok x ∧ f x = y := by
  cases action with
  | error e => simp [Functor.map, Except.map]
  | ok x => simp [Functor.map, Except.map]

theorem map_error_iff {action : Except ε α} {f : α → β} {e : ε} :
    f <$> action = .error e ↔ action = .error e := by
  cases action <;> simp [Functor.map, Except.map]

theorem mapError_ok_iff {action : Except ε α} {f : ε → δ} {x : α} :
    action.mapError f = .ok x ↔ action = .ok x := by
  cases action <;> simp [Except.mapError]

theorem mapError_error_iff {action : Except ε α} {f : ε → δ} {d : δ} :
    action.mapError f = .error d ↔ ∃ e, action = .error e ∧ f e = d := by
  cases action <;> simp [Except.mapError]

theorem mapM_ok_iff {f : α → Except ε β} {xs : List α} {ys : List β} :
    xs.mapM f = .ok ys ↔ List.Forall₂ (fun x y => f x = .ok y) xs ys := by
  induction xs generalizing ys with
  | nil => simp [pure, Except.pure, eq_comm]
  | cons x xs ih =>
    simp only [List.mapM_cons, bind_ok_iff, ih, List.forall₂_cons_left_iff, pure, Except.pure,
      Except.ok.injEq]
    constructor
    · rintro ⟨y, hy, rest, hr, rfl⟩
      exact ⟨y, rest, hy, hr, rfl⟩
    · rintro ⟨y, rest, hy, hr, rfl⟩
      exact ⟨y, hy, rest, hr, rfl⟩

/-- A list is refused for its first element that is. -/
theorem mapM_error_iff {f : α → Except ε β} {xs : List α} {e : ε} :
    xs.mapM f = .error e ↔ ∃ before x after, xs = before ++ x :: after ∧ f x = .error e ∧
      ∀ y ∈ before, ∃ z, f y = .ok z := by
  induction xs with
  | nil => simp [pure, Except.pure]
  | cons x xs ih =>
    simp only [List.mapM_cons, bind_pure_comp, bind_error_iff, map_error_iff]
    constructor
    · rintro (hx | ⟨y, hx, hrest⟩)
      · exact ⟨[], x, xs, rfl, hx, by simp⟩
      · obtain ⟨before, z, after, rfl, hz, hb⟩ := ih.1 hrest
        exact ⟨x :: before, z, after, rfl, hz, by simpa [hx] using hb⟩
    · rintro ⟨before, z, after, heq, hz, hb⟩
      cases before with
      | nil =>
        cases heq
        exact .inl hz
      | cons w before =>
        cases heq
        obtain ⟨y, hy⟩ := hb x (by simp)
        exact .inr ⟨y, hy, ih.2 ⟨before, z, after, rfl, hz, fun v hv => hb v (by simp [hv])⟩⟩

/-- A state that grows by what each element gives is the state that grows by all of them. -/
theorem foldlM_map {σ : Type} (step : σ → β → σ) (f : α → Except ε β) (start : σ) (xs : List α) :
    xs.foldlM (fun state x => step state <$> f x) start =
      (fun ys => ys.foldl step start) <$> xs.mapM f := by
  induction xs generalizing start with
  | nil => rfl
  | cons x xs ih =>
    rw [List.foldlM_cons, List.mapM_cons]
    cases f x with
    | error e => rfl
    | ok y =>
      refine (ih (step start y)).trans ?_
      cases xs.mapM f <;> rfl

variable {rel : α → β → Prop} {xs : List α} {ys : List β}

theorem exists_of_mem_right (h : List.Forall₂ rel xs ys) {y : β} (hy : y ∈ ys) :
    ∃ x ∈ xs, rel x y := by
  induction h with
  | nil => simp at hy
  | @cons x _ _ _ hr _ ih =>
    rcases List.mem_cons.1 hy with rfl | hy
    · exact ⟨x, by simp, hr⟩
    · obtain ⟨z, hz, hzy⟩ := ih hy
      exact ⟨z, by simp [hz], hzy⟩

/-- What stands beside an element also stands beside a member of the list. -/
theorem forall₂_mem (h : List.Forall₂ rel xs ys) :
    List.Forall₂ (fun x y => x ∈ xs ∧ rel x y) xs ys :=
  (List.forall₂_and_left xs ys).2 ⟨fun _ hx => hx, h⟩

theorem exists_of_mem_left (h : List.Forall₂ rel xs ys) {x : α} (hx : x ∈ xs) :
    ∃ y ∈ ys, rel x y :=
  exists_of_mem_right h.flip hx

theorem exists_of_singleton {x : α} (h : List.Forall₂ rel [x] ys) : ∃ y, rel x y ∧ ys = [y] := by
  obtain ⟨y, rest, hy, hrest, rfl⟩ := List.forall₂_cons_left_iff.1 h
  cases hrest
  exact ⟨y, hy, rfl⟩

end Fallible

end JarRename
