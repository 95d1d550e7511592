import Mathlib
import JarRename.Proofs.Text.Cut
import JarRename.Text.Lines

/-!
# Where lines stand in a text

A text is its lines with their ends, and perhaps an unfinished line behind them.
-/
namespace JarRename.Text

/-- What can end a line: a line feed, and a carriage return before it if there is one. -/
inductive LineEnd (line : List Char) : List Char → Prop
  | feed (bare : line.getLast? ≠ some '\r') : LineEnd line ['\n']
  | both : LineEnd line ['\r', '\n']

/-- Nothing stands in the last line of a text. -/
def Finished (text : List Char) : Prop := text = [] ∨ text.getLast? = some '\n'

/-- `line`, without its end, is the line of the text with this number. `before` is the text up to
it. -/
structure LineAt (text : List Char) (number : Nat) (before line : List Char) : Prop where
  finished : Finished before
  number_eq : number = before.count '\n' + 1
  feed_notMem : '\n' ∉ line
  ends : line ≠ [] ∧ text = before ++ line ∨
    ∃ ending after, LineEnd line ending ∧ text = before ++ (line ++ ending ++ after)

theorem linesWith_eq {line : List Char} (h : '\n' ∉ line) :
    linesWith '\n' '\r' line = if line = [] then [] else [line] := by
  rw [linesWith, splitWhere_eq_splitOnP, List.splitOnP_eq_singleton (beq_of_notMem h)]
  cases line <;> rfl

theorem linesWith_append_cons {line : List Char} (h : '\n' ∉ line) (rest : List Char) :
    linesWith '\n' '\r' (line ++ '\n' :: rest) =
      (if line.getLast? == some '\r' then line.dropLast else line) :: linesWith '\n' '\r' rest := by
  obtain ⟨piece, pieces, hs⟩ := List.exists_cons_of_ne_nil (List.splitOnP_ne_nil (· == '\n') rest)
  rw [linesWith, linesWith, splitWhere_eq_splitOnP, splitWhere_eq_splitOnP,
    List.splitOnP_append_cons_of_forall_mem (beq_of_notMem h) '\n' (by simp), hs]
  simp only [List.dropLast_cons_cons, List.map_cons, List.getLast?_cons_cons]
  split <;> simp_all

/-- The first line of a text stands before the first end. -/
theorem linesWith_append {line ending : List Char} (h : '\n' ∉ line) (he : LineEnd line ending)
    (rest : List Char) :
    linesWith '\n' '\r' (line ++ ending ++ rest) = line :: linesWith '\n' '\r' rest := by
  cases he with
  | feed bare =>
    rw [List.append_assoc, List.singleton_append, linesWith_append_cons h,
      if_neg (by simpa using bare)]
  | both =>
    have hline : '\n' ∉ line ++ ['\r'] := by simp [h]
    have hlaw := linesWith_append_cons hline rest
    simpa using hlaw

/-- Lines that end with line feeds are read back. -/
theorem linesWith_flatMap {lines : List (List Char)}
    (h : ∀ line ∈ lines, '\n' ∉ line ∧ line.getLast? ≠ some '\r') :
    linesWith '\n' '\r' (lines.flatMap (· ++ ['\n'])) = lines := by
  induction lines with
  | nil => rfl
  | cons line lines ih =>
    obtain ⟨hline, hlast⟩ := h line List.mem_cons_self
    rw [List.flatMap_cons, linesWith_append hline (.feed hlast),
      ih fun other ho => h other (List.mem_cons_of_mem _ ho)]

/-- Every text is an unfinished line, or a line with its end and another text. -/
theorem lines_induction {motive : List Char → Prop}
    (last : ∀ line, '\n' ∉ line → motive line)
    (cons : ∀ line ending rest, '\n' ∉ line → LineEnd line ending → motive rest →
      motive (line ++ ending ++ rest)) (text : List Char) : motive text := by
  induction hn : text.length using Nat.strong_induction_on generalizing text with
  | _ n ih =>
    cases hc : cut? '\n' text with
    | none => exact last text (not_mem_of_cut? hc)
    | some cut =>
      obtain ⟨line, rest⟩ := cut
      obtain ⟨rfl, hline⟩ := eq_append_of_cut? hc
      have hrest : motive rest := ih rest.length (by simp at hn; omega) rest rfl
      by_cases hr : line.getLast? = some '\r'
      · obtain ⟨init, rfl⟩ := List.getLast?_eq_some_iff.1 hr
        have hinit : '\n' ∉ init := fun hm => hline (List.mem_append_left _ hm)
        simpa using cons init ['\r', '\n'] rest hinit .both hrest
      · simpa using cons line ['\n'] rest hline (.feed hr) hrest

/-- The lines of a text stand in it one after the other. -/
theorem LineAt.of_linesWith {text line : List Char} {front after : List (List Char)}
    (h : linesWith '\n' '\r' text = front ++ line :: after) :
    ∃ before, LineAt text (front.length + 1) before line ∧ linesWith '\n' '\r' before = front := by
  induction text using lines_induction generalizing front with
  | last unfinished hn =>
    rw [linesWith_eq hn] at h
    split at h
    · simp at h
    · rename_i hne
      obtain ⟨rfl, hline⟩ := (List.singleton_eq_append_iff.1 h).resolve_right (by simp)
      obtain ⟨rfl, -⟩ := List.cons.inj hline
      exact ⟨[], ⟨.inl rfl, rfl, hn, .inl ⟨hne, rfl⟩⟩, rfl⟩
  | cons first ending rest hf he ih =>
    rw [linesWith_append hf he] at h
    cases front with
    | nil =>
      obtain ⟨rfl, -⟩ := List.cons.inj h
      exact ⟨[], ⟨.inl rfl, rfl, hf, .inr ⟨ending, rest, he, rfl⟩⟩, rfl⟩
    | cons head front =>
      obtain ⟨rfl, htail⟩ := List.cons.inj h
      obtain ⟨before, hat, hb⟩ := ih htail
      have hcount : (first ++ ending).count '\n' = 1 := by
        rw [List.count_append, List.count_eq_zero.2 hf]
        cases he <;> rfl
      refine ⟨first ++ ending ++ before, ⟨?_, ?_, hat.feed_notMem, ?_⟩, ?_⟩
      · obtain rfl | hlast := hat.finished
        · cases he <;> simp [Finished]
        · simp [Finished, List.getLast?_append, hlast]
      · rw [List.count_append, hcount, List.length_cons, hat.number_eq]
        omega
      · obtain ⟨hne, rfl⟩ | ⟨ending', after', he', rfl⟩ := hat.ends
        · exact .inl ⟨hne, by simp⟩
        · exact .inr ⟨ending', after', he', by simp⟩
      · rw [linesWith_append hf he, hb]

end JarRename.Text
