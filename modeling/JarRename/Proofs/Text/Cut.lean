import Mathlib
import JarRename.Text.Cut

/-!
# Pieces of a text

A text is cut into the same pieces as the library cuts it into. Where a mark stands between two
texts, they are cut one after the other, and so are their words.
-/
namespace JarRename.Text

theorem splitWhere_eq_splitOnP {α : Type} (p : α → Bool) (xs : List α) :
    splitWhere p xs = xs.splitOnP p := by
  induction xs with
  | nil => rfl
  | cons x xs ih =>
    rw [splitWhere_cons, List.splitOnP_cons_eq_if_modifyHead, ih]
    cases hp : xs.splitOnP p with
    | nil => exact absurd hp (List.splitOnP_ne_nil p xs)
    | cons piece pieces => rfl

/-- Joining the pieces of a text gives the text again. -/
theorem intercalate_splitOn (mark : Char) (cs : List Char) :
    [mark].intercalate (splitOn mark cs) = cs := by
  rw [splitOn, splitWhere_eq_splitOnP]
  exact List.intercalate_splitOn mark

theorem cutLast?_append {mark : Char} {after : List Char} (h : mark ∉ after)
    (before : List Char) : cutLast? mark (before ++ mark :: after) = some (before, after) := by
  have hcut : cut? mark (after.reverse ++ mark :: before.reverse) =
      some (after.reverse, before.reverse) := cut?_append (by simpa using h) before.reverse
  simp [cutLast?, hcut]

/-- The last piece of the first text and the first piece of the second one grow together. -/
theorem splitWhere_append {α : Type} {p : α → Bool} {xs ys last head : List α}
    {front tail : List (List α)} (hx : splitWhere p xs = front ++ [last])
    (hy : splitWhere p ys = head :: tail) :
    splitWhere p (xs ++ ys) = front ++ (last ++ head) :: tail := by
  -- Only the first piece of `xs` changes with its first element, and it may also be the last one.
  induction xs generalizing front last with
  | nil =>
    rcases front with _ | ⟨piece, front⟩
    · cases hx
      exact hy
    · simp at hx
  | cons x xs ih =>
    obtain ⟨front', last', hs⟩ : ∃ front' last', splitWhere p xs = front' ++ [last'] :=
      (List.eq_nil_or_concat' _).resolve_left (splitWhere_ne_nil p xs)
    have hi := ih hs
    rw [splitWhere_cons] at hx
    rw [List.cons_append, splitWhere_cons, hi]
    split at hx
    · rename_i hp
      rw [hs] at hx
      obtain ⟨rfl, hl⟩ := List.append_inj'
        (show ([] :: front') ++ [last'] = front ++ [last] from hx) rfl
      cases hl
      rw [if_pos hp]
      rfl
    · rename_i hp
      rw [if_neg hp]
      rcases front' with _ | ⟨piece, front'⟩
      · rw [hs] at hx
        obtain ⟨rfl, hl⟩ := List.append_inj' (show [] ++ [x :: last'] = front ++ [last] from hx) rfl
        cases hl
        rfl
      · rw [hs] at hx
        obtain ⟨rfl, hl⟩ := List.append_inj'
          (show ((x :: piece) :: front') ++ [last'] = front ++ [last] from hx) rfl
        cases hl
        rfl

/-- What is not lost at a cut stands in one of the pieces. -/
theorem exists_piece_of_mem {α : Type} (p : α → Bool) {x : α} {xs : List α} (h : x ∈ xs) :
    p x = true ∨ ∃ piece ∈ splitWhere p xs, x ∈ piece := by
  induction xs with
  | nil => cases h
  | cons y ys ih =>
    rw [splitWhere_cons]
    by_cases hy : p y
    · rw [if_pos hy]
      obtain rfl | hx := List.mem_cons.1 h
      · exact .inl hy
      · obtain hp | ⟨piece, hm, hx⟩ := ih hx
        · exact .inl hp
        · exact .inr ⟨piece, List.mem_cons_of_mem _ hm, hx⟩
    · rw [if_neg hy]
      obtain ⟨head, tail, hs⟩ := List.exists_cons_of_ne_nil (splitWhere_ne_nil p ys)
      rw [hs] at ih ⊢
      obtain rfl | hx := List.mem_cons.1 h
      · exact .inr ⟨x :: head, List.mem_cons_self, List.mem_cons_self⟩
      · obtain hp | ⟨piece, hm, hx⟩ := ih hx
        · exact .inl hp
        · obtain rfl | hm := List.mem_cons.1 hm
          · exact .inr ⟨y :: piece, List.mem_cons_self, List.mem_cons_of_mem _ hx⟩
          · exact .inr ⟨piece, List.mem_cons_of_mem _ hm, hx⟩

/-- Elements of a piece are elements of the text at which it is not cut. -/
theorem mem_of_mem_piece {α : Type} {p : α → Bool} {xs piece : List α} {x : α}
    (hp : piece ∈ splitWhere p xs) (hx : x ∈ piece) : x ∈ xs ∧ p x = false := by
  induction xs generalizing piece with
  | nil => simp_all
  | cons y ys ih =>
    rw [splitWhere_cons] at hp
    split at hp
    · obtain rfl | hp := List.mem_cons.1 hp
      · cases hx
      · have hmem := ih hp hx
        exact ⟨List.mem_cons_of_mem _ hmem.1, hmem.2⟩
    · rename_i hy
      obtain ⟨head, tail, hs⟩ := List.exists_cons_of_ne_nil (splitWhere_ne_nil p ys)
      simp only [hs, List.mem_cons] at hp ih
      obtain rfl | hp := hp
      · obtain rfl | hx := List.mem_cons.1 hx
        · exact ⟨List.mem_cons_self, by simpa using hy⟩
        · have hmem := ih (.inl rfl) hx
          exact ⟨List.mem_cons_of_mem _ hmem.1, hmem.2⟩
      · have hmem := ih (.inr hp) hx
        exact ⟨List.mem_cons_of_mem _ hmem.1, hmem.2⟩

/-- The first piece stands before the first mark. -/
theorem splitWhere_append_cons {α : Type} {p : α → Bool} {piece : List α} {mark : α}
    (h : ∀ x ∈ piece, p x = false) (hm : p mark = true) (rest : List α) :
    splitWhere p (piece ++ mark :: rest) = piece :: splitWhere p rest := by
  rw [splitWhere_eq_splitOnP, splitWhere_eq_splitOnP]
  exact List.splitOnP_append_cons_of_forall_mem h mark hm rest

theorem splitWhere_eq_singleton {α : Type} {p : α → Bool} {piece : List α}
    (h : ∀ x ∈ piece, p x = false) : splitWhere p piece = [piece] := by
  rw [splitWhere_eq_splitOnP, List.splitOnP_eq_singleton h]

section Mark

variable {mark : Char} {cs : List Char}

theorem beq_of_notMem (h : mark ∉ cs) : ∀ c ∈ cs, (c == mark) = false := by
  intro c hc
  simpa using ne_of_mem_of_not_mem hc h

theorem bne_of_notMem (h : mark ∉ cs) : ∀ c ∈ cs, (c != mark) = true := by
  intro c hc
  simpa using ne_of_mem_of_not_mem hc h

theorem splitOn_eq_singleton (h : mark ∉ cs) : splitOn mark cs = [cs] :=
  splitWhere_eq_singleton (beq_of_notMem h)

theorem splitOn_append_cons (h : mark ∉ cs) (rest : List Char) :
    splitOn mark (cs ++ mark :: rest) = cs :: splitOn mark rest :=
  splitWhere_append_cons (beq_of_notMem h) (beq_self_eq_true mark) rest

theorem notMem_of_mem_splitOn {piece : List Char} (h : piece ∈ splitOn mark cs) : mark ∉ piece := by
  intro hm
  simpa using (mem_of_mem_piece h hm).2

/-- Pieces without the mark are found again. -/
theorem splitOn_intercalate {pieces : List (List Char)} (h : ∀ piece ∈ pieces, mark ∉ piece)
    (hne : pieces ≠ []) : splitOn mark ([mark].intercalate pieces) = pieces := by
  rw [splitOn, splitWhere_eq_splitOnP]
  exact List.splitOn_intercalate mark h hne

end Mark

theorem dropSuffix?_eq_some_iff {tail cs rest : List Char} :
    dropSuffix? tail cs = some rest ↔ cs = rest ++ tail := by
  simp only [dropSuffix?, Option.map_eq_some_iff, dropPrefix?_eq_some_iff]
  constructor
  · rintro ⟨front, hcs, rfl⟩
    simpa using congrArg List.reverse hcs
  · rintro rfl
    exact ⟨rest.reverse, by simp, by simp⟩

section Trim

variable {cs : List Char}

theorem notMem_blanks {c : Char} {blanks : List Char} (hc : isBlank c = false)
    (h : ∀ c ∈ blanks, isBlank c = true) : c ∉ blanks := by
  intro hm
  rw [h c hm] at hc
  cases hc

theorem mem_of_mem_trim {c : Char} (h : c ∈ trim cs) : c ∈ cs := by
  have hend : c ∈ trimStart cs := by
    have hrev : c ∈ (trimStart cs).reverse.dropWhile isBlank := by simpa [trim, trimEnd] using h
    simpa using (List.dropWhile_sublist _).subset hrev
  exact (List.dropWhile_sublist _).subset hend

theorem not_blank_of_getLast?_trim {c : Char} (h : (trim cs).getLast? = some c) :
    isBlank c = false := by
  rw [trim, trimEnd, List.getLast?_reverse] at h
  have hnot := List.head?_dropWhile_not isBlank (trimStart cs).reverse
  rw [h] at hnot
  exact hnot

theorem exists_trimStart (cs : List Char) :
    ∃ blanks, cs = blanks ++ trimStart cs ∧ ∀ c ∈ blanks, isBlank c = true :=
  ⟨cs.takeWhile isBlank, List.takeWhile_append_dropWhile.symm, fun _ => List.mem_takeWhile_imp⟩

theorem exists_trimEnd (cs : List Char) :
    ∃ blanks, cs = trimEnd cs ++ blanks ∧ ∀ c ∈ blanks, isBlank c = true := by
  obtain ⟨blanks, hcs, hb⟩ := exists_trimStart cs.reverse
  refine ⟨blanks.reverse, ?_, fun c hc => hb c (List.mem_reverse.1 hc)⟩
  have hreverse := congrArg List.reverse hcs
  rwa [List.reverse_reverse, List.reverse_append] at hreverse

/-- Only blanks are lost. -/
theorem exists_trim (cs : List Char) :
    ∃ before after, cs = before ++ trim cs ++ after ∧ (∀ c ∈ before, isBlank c = true) ∧
      ∀ c ∈ after, isBlank c = true := by
  obtain ⟨before, hstart, hb⟩ := exists_trimStart cs
  obtain ⟨after, hend, ha⟩ := exists_trimEnd (trimStart cs)
  refine ⟨before, after, ?_, hb, ha⟩
  rw [List.append_assoc]
  exact hstart.trans (congrArg (before ++ ·) hend)

theorem not_blank_of_head?_trim {c : Char} (h : (trim cs).head? = some c) :
    isBlank c = false := by
  obtain ⟨after, hend, -⟩ := exists_trimEnd (trimStart cs)
  have hnot := List.head?_dropWhile_not isBlank cs
  rw [← trimStart, hend, List.head?_append, ← trim, h] at hnot
  exact hnot

theorem trimStart_blanks_append {blanks : List Char} (h : ∀ c ∈ blanks, isBlank c = true)
    (cs : List Char) : trimStart (blanks ++ cs) = trimStart cs :=
  List.dropWhile_append_of_pos h

theorem trimEnd_append_blanks {blanks : List Char} (h : ∀ c ∈ blanks, isBlank c = true)
    (cs : List Char) : trimEnd (cs ++ blanks) = trimEnd cs := by
  have hreverse : ∀ c ∈ blanks.reverse, isBlank c = true := fun c hc => h c (List.mem_reverse.1 hc)
  rw [trimEnd, List.reverse_append, List.dropWhile_append_of_pos hreverse, ← trimEnd]

/-- Blanks around a text do not count. -/
theorem trim_surrounded {before after : List Char} (hb : ∀ c ∈ before, isBlank c = true)
    (ha : ∀ c ∈ after, isBlank c = true) (cs : List Char) :
    trim (before ++ cs ++ after) = trim cs := by
  rw [trim, List.append_assoc, trimStart_blanks_append hb, trimStart, List.dropWhile_append]
  split
  · -- The text is blank itself.
    rename_i hempty
    have hnil : after.dropWhile isBlank = [] := List.dropWhile_eq_nil_iff.2 ha
    rw [hnil, trim, trimStart, List.isEmpty_iff.1 hempty]
  · rw [trimEnd_append_blanks ha]
    rfl

theorem trim_blanks {blanks : List Char} (h : ∀ c ∈ blanks, isBlank c = true) :
    trim blanks = [] := by
  rw [trim, trimStart, List.dropWhile_eq_nil_iff.2 h]
  rfl

theorem trimStart_eq_self (head : ∀ c, cs.head? = some c → isBlank c = false) :
    trimStart cs = cs := by
  cases cs with
  | nil => rfl
  | cons c cs => exact List.dropWhile_cons_of_neg (by simp [head c rfl])

/-- A text that neither begins nor ends with a blank is left as it is. -/
theorem trim_eq_self (head : ∀ c, cs.head? = some c → isBlank c = false)
    (last : ∀ c, cs.getLast? = some c → isBlank c = false) : trim cs = cs := by
  have hend : trimStart cs.reverse = cs.reverse :=
    trimStart_eq_self fun c hc => last c (by rwa [← List.head?_reverse])
  rw [trim, trimStart_eq_self head, trimEnd, ← trimStart, hend, List.reverse_reverse]

end Trim

section Exchange

variable {a b : Char} {cs : List Char}

theorem isBlank_exchange (h : isBlank a = isBlank b) (c : Char) :
    isBlank (if c == a then b else c) = isBlank c := by
  split
  · rename_i heq
    rw [eq_of_beq heq, h]
  · rfl

theorem head?_exchange (h : isBlank a = isBlank b)
    (head : ∀ c, cs.head? = some c → isBlank c = false) :
    ∀ c, (exchange a b cs).head? = some c → isBlank c = false := by
  intro c hc
  rw [exchange, List.head?_map, Option.map_eq_some_iff] at hc
  obtain ⟨d, hd, rfl⟩ := hc
  rw [isBlank_exchange h, head d hd]

theorem getLast?_exchange (h : isBlank a = isBlank b)
    (last : ∀ c, cs.getLast? = some c → isBlank c = false) :
    ∀ c, (exchange a b cs).getLast? = some c → isBlank c = false := by
  intro c hc
  rw [exchange, List.getLast?_map, Option.map_eq_some_iff] at hc
  obtain ⟨d, hd, rfl⟩ := hc
  rw [isBlank_exchange h, last d hd]

theorem mem_of_mem_exchange {c : Char} (h : c ∈ exchange a b cs)
    (hb : c ≠ b) : c ∈ cs := by
  obtain ⟨d, hd, rfl⟩ := List.mem_map.1 h
  split at hb
  · exact absurd rfl hb
  · rename_i hne
    rwa [if_neg hne]

/-- A character that did not occur stands only where it was put. -/
theorem exchange_exchange (h : b ∉ cs) : exchange b a (exchange a b cs) = cs := by
  induction cs with
  | nil => rfl
  | cons c cs ih =>
    obtain ⟨hc, hcs⟩ : ¬b = c ∧ b ∉ cs := by simpa using h
    refine congrArg₂ List.cons ?_ (ih hcs)
    by_cases ha : c = a
    · simp [ha]
    · simp [ha, Ne.symm hc]

end Exchange

section Words

variable {cs : List Char} {ws : List (List Char)}

@[simp] theorem words_nil : words [] = [] := rfl

/-- The words on both sides of a blank. -/
theorem words_append_cons {c : Char} (hc : isBlank c = true) (before after : List Char) :
    words (before ++ c :: after) = words before ++ words after := by
  simp only [words, splitWhere_eq_splitOnP]
  rw [List.splitOnP_append_cons before after hc, List.filter_append]

/-- Blanks in front of the first word do not count. -/
theorem words_blanks_append {blanks : List Char} (h : ∀ c ∈ blanks, isBlank c = true)
    (cs : List Char) : words (blanks ++ cs) = words cs := by
  induction blanks with
  | nil => rfl
  | cons c blanks ih =>
    have hstep := words_append_cons (h c List.mem_cons_self) [] (blanks ++ cs)
    rw [List.cons_append, ← List.nil_append (c :: _), hstep, words_nil, List.nil_append]
    exact ih fun c hc => h c (List.mem_cons_of_mem _ hc)

theorem words_eq_singleton (hne : cs ≠ []) (h : ∀ c ∈ cs, isBlank c = false) :
    words cs = [cs] := by
  rw [words, splitWhere_eq_splitOnP, List.splitOnP_eq_singleton h]
  simpa using hne

/-- Words with spaces between them. -/
theorem words_intercalate (h : ∀ word ∈ ws, word ≠ [] ∧ ∀ c ∈ word, isBlank c = false) :
    words ([' '].intercalate ws) = ws := by
  induction ws with
  | nil => rfl
  | cons word ws ih =>
    obtain ⟨hne, hword⟩ := h word List.mem_cons_self
    have hrest := ih fun other ho => h other (List.mem_cons_of_mem _ ho)
    cases ws with
    | nil => rw [List.intercalate_singleton, words_eq_singleton hne hword]
    | cons next ws =>
      rw [List.intercalate_cons_cons, List.append_assoc, List.singleton_append,
        words_append_cons (by decide), words_eq_singleton hne hword, hrest, List.singleton_append]

end Words

end JarRename.Text
