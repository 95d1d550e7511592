import JarRename.Text.Blank

/-!
# Cutting text at marks

`splitWhere` cuts a text at every character of a class and loses only those characters. `cut?` and
`cutLast?` cut it once, at the first or at the last occurrence of a mark.
-/
namespace JarRename.Text

variable {α : Type}

/-- The pieces between the elements that satisfy `p`; there is always one more piece than there
are such elements. -/
def splitWhere (p : α → Bool) (xs : List α) : List (List α) :=
  xs.foldr (fun x pieces =>
    if p x then [] :: pieces
    else match pieces with
      | [] => [[x]]
      | piece :: rest => (x :: piece) :: rest) [[]]

/-- The pieces between the occurrences of `mark`. -/
def splitOn (mark : Char) (cs : List Char) : List (List Char) := splitWhere (· == mark) cs

/-- The maximal runs of characters that are not blank. -/
def words (cs : List Char) : List (List Char) :=
  (splitWhere isBlank cs).filter fun word => !word.isEmpty

/-- What stands before and after the first `mark`. -/
def cut? (mark : Char) (cs : List Char) : Option (List Char × List Char) :=
  match cs.dropWhile (· != mark) with
  | [] => none
  | _ :: after => some (cs.takeWhile (· != mark), after)

/-- What stands before and after the last `mark`. -/
def cutLast? (mark : Char) (cs : List Char) : Option (List Char × List Char) :=
  (cut? mark cs.reverse).map fun (after, before) => (before.reverse, after.reverse)

/-- The rest of `cs` after `head`, when `cs` begins with it. -/
def dropPrefix? : (head cs : List Char) → Option (List Char)
  | [], cs => some cs
  | _ :: _, [] => none
  | h :: hs, c :: cs => if h == c then dropPrefix? hs cs else none

/-- The beginning of `cs` before `tail`, when `cs` ends with it. -/
def dropSuffix? (tail cs : List Char) : Option (List Char) :=
  (dropPrefix? tail.reverse cs.reverse).map List.reverse

/-- `cs` with every `a` written as `b`. -/
def exchange (a b : Char) (cs : List Char) : List Char :=
  cs.map fun c => if c == a then b else c

/-- Whether `part` occurs in `cs`. -/
def hasPart (part : List Char) : List Char → Bool
  | [] => part.isEmpty
  | c :: cs => (dropPrefix? part (c :: cs)).isSome || hasPart part cs

/-- The longest beginning of `cs` that takes at most `room` bytes in UTF-8, and the rest; `seen`
holds the characters taken so far, last one first. -/
def splitBytes : (room : Nat) → (seen cs : List Char) → List Char × List Char
  | _, seen, [] => (seen.reverse, [])
  | room, seen, c :: cs =>
    if c.utf8Size ≤ room then splitBytes (room - c.utf8Size) (c :: seen) cs
    else (seen.reverse, c :: cs)

/-- Number of bytes that `cs` takes in UTF-8. -/
def utf8Length (cs : List Char) : Nat := cs.foldl (fun n c => n + c.utf8Size) 0

@[simp] theorem splitWhere_nil (p : α → Bool) : splitWhere p [] = [[]] := rfl

theorem splitWhere_cons (p : α → Bool) (x : α) (xs : List α) :
    splitWhere p (x :: xs) =
      if p x then [] :: splitWhere p xs
      else match splitWhere p xs with
        | [] => [[x]]
        | piece :: rest => (x :: piece) :: rest := rfl

theorem splitWhere_ne_nil (p : α → Bool) (xs : List α) : splitWhere p xs ≠ [] := by
  cases xs with
  | nil => simp
  | cons x xs =>
    rw [splitWhere_cons]
    split
    · simp
    · split <;> simp

theorem dropPrefix?_append (head cs : List Char) : dropPrefix? head (head ++ cs) = some cs := by
  induction head with
  | nil => rfl
  | cons h hs ih => simp [dropPrefix?, ih]

theorem eq_append_of_dropPrefix? {head cs rest : List Char}
    (h : dropPrefix? head cs = some rest) : cs = head ++ rest := by
  fun_induction dropPrefix? head cs with
  | case1 => simp_all
  | case2 => simp at h
  | case3 _ _ _ _ hc ih => simp_all
  | case4 => simp at h

theorem dropPrefix?_eq_some_iff {head cs rest : List Char} :
    dropPrefix? head cs = some rest ↔ cs = head ++ rest :=
  ⟨eq_append_of_dropPrefix?, fun h => h ▸ dropPrefix?_append head rest⟩

theorem cut?_cons_of_ne {mark c : Char} (hc : c ≠ mark) (cs : List Char) :
    cut? mark (c :: cs) = (cut? mark cs).map fun (before, after) => (c :: before, after) := by
  simp only [cut?, List.dropWhile_cons, List.takeWhile_cons, bne_iff_ne, ne_eq, hc,
    not_false_eq_true, if_true]
  split <;> simp_all

theorem eq_append_of_cut? {mark : Char} {cs before after : List Char}
    (h : cut? mark cs = some (before, after)) :
    cs = before ++ mark :: after ∧ mark ∉ before := by
  induction cs generalizing before with
  | nil => simp [cut?] at h
  | cons c cs ih =>
    by_cases hc : c = mark
    · subst hc
      simp [cut?] at h
      obtain ⟨rfl, rfl⟩ := h
      simp
    · rw [cut?_cons_of_ne hc] at h
      obtain ⟨⟨b, a⟩, hb, heq⟩ := Option.map_eq_some_iff.1 h
      simp only [Prod.mk.injEq] at heq
      obtain ⟨rfl, rfl⟩ := heq
      obtain ⟨rfl, hm⟩ := ih hb
      exact ⟨rfl, by simp [hm, Ne.symm hc]⟩

theorem cut?_append {mark : Char} {before : List Char} (h : mark ∉ before) (after : List Char) :
    cut? mark (before ++ mark :: after) = some (before, after) := by
  induction before with
  | nil => simp [cut?]
  | cons c before ih =>
    obtain ⟨hc, hb⟩ : ¬mark = c ∧ mark ∉ before := by simpa using h
    rw [List.cons_append, cut?_cons_of_ne (Ne.symm hc), ih hb]
    rfl

theorem not_mem_of_cut? {mark : Char} {cs : List Char} (h : cut? mark cs = none) : mark ∉ cs := by
  induction cs with
  | nil => simp
  | cons c cs ih =>
    by_cases hc : c = mark
    · simp [cut?, hc] at h
    · rw [cut?_cons_of_ne hc, Option.map_eq_none_iff] at h
      simpa [Ne.symm hc] using ih h

theorem eq_append_of_cutLast? {mark : Char} {cs before after : List Char}
    (h : cutLast? mark cs = some (before, after)) :
    cs = before ++ mark :: after ∧ mark ∉ after := by
  obtain ⟨⟨a, b⟩, hab, heq⟩ := Option.map_eq_some_iff.1 h
  simp only [Prod.mk.injEq] at heq
  obtain ⟨rfl, rfl⟩ := heq
  obtain ⟨hcs, hm⟩ := eq_append_of_cut? hab
  refine ⟨?_, by simpa using hm⟩
  have := congrArg List.reverse hcs
  simpa using this

end JarRename.Text
