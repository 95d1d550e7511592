import Mathlib
import JarRename.Mapping.Format
import JarRename.Proofs.Text.Cut

/-!
# Rows of columns

Texts without blanks and comments that are written in a row are the columns that a reader finds.
-/
namespace JarRename.Mapping

open Text

/-- Columns with spaces between them. -/
def row (columns : List String) : List Char := [' '].intercalate (columns.map String.toList)

/-- There are no blanks in the text, and no comment begins in it. -/
def Plain (text : String) : Prop := ∀ c ∈ text.toList, isBlank c = false ∧ c ≠ '#'

/-- A text that can stand in a column. -/
def Column (text : String) : Prop := text.toList ≠ [] ∧ Plain text

def Columns (columns : List String) : Prop := columns ≠ [] ∧ ∀ column ∈ columns, Column column

variable {columns : List String} {indent : List Char}

/-- The columns of a row are read back. -/
theorem columns_row (h : Columns columns) (hi : ∀ c ∈ indent, c = ' ') :
    (Line.mk (indent ++ row columns)).columns = columns := by
  have hblank : ∀ c ∈ indent, isBlank c = true := by
    intro c hc
    rw [hi c hc]
    decide
  rw [Line.columns, words_blanks_append hblank, row, words_intercalate]
  · simp [Function.comp_def]
  · intro word hw
    obtain ⟨column, hc, rfl⟩ := List.mem_map.1 hw
    exact ⟨(h.2 column hc).1, fun c hm => ((h.2 column hc).2 c hm).1⟩

theorem eq_or_mem_of_mem_row {c : Char} (h : c ∈ row columns) :
    c = ' ' ∨ ∃ column ∈ columns, c ∈ column.toList := by
  induction columns with
  | nil => cases h
  | cons column columns ih =>
    cases columns with
    | nil =>
      rw [row, List.map_singleton, List.intercalate_singleton] at h
      exact .inr ⟨column, by simp, h⟩
    | cons next columns =>
      rw [row, List.map_cons, List.map_cons, List.intercalate_cons_cons, List.append_assoc] at h
      obtain hc | hc := List.mem_append.1 h
      · exact .inr ⟨column, by simp, hc⟩
      · obtain hspace | hc := List.mem_append.1 hc
        · exact .inl (by simpa using hspace)
        · obtain hspace | ⟨other, ho, hc⟩ := ih hc
          · exact .inl hspace
          · exact .inr ⟨other, List.mem_cons_of_mem _ ho, hc⟩

theorem Plain.append {text other : String} (h : Plain text) (ho : Plain other) :
    Plain (text ++ other) := by
  intro c hc
  rw [String.toList_append] at hc
  obtain hc | hc := List.mem_append.1 hc
  · exact h c hc
  · exact ho c hc

theorem Column.append {text other : String} (h : Column text) (ho : Plain other) :
    Column (text ++ other) := by
  refine ⟨?_, h.2.append ho⟩
  rw [String.toList_append]
  exact List.append_ne_nil_of_left_ne_nil h.1 _

/-- A row begins and ends with what is no blank. -/
theorem ends_of_row (h : Columns columns) :
    (∃ c rest, row columns = c :: rest ∧ isBlank c = false) ∧
      ∃ c front, row columns = front ++ [c] ∧ isBlank c = false := by
  obtain ⟨hne, hall⟩ := h
  induction columns with
  | nil => cases hne rfl
  | cons column columns ih =>
    obtain ⟨hcolumn, hplain⟩ := hall column List.mem_cons_self
    obtain ⟨c, rest, hc⟩ := List.exists_cons_of_ne_nil hcolumn
    have hhead : isBlank c = false := (hplain c (by simp [hc])).1
    cases columns with
    | nil =>
      have hrow : row [column] = column.toList := List.intercalate_singleton
      obtain ⟨front, d, hd⟩ := (List.eq_nil_or_concat' column.toList).resolve_left hcolumn
      exact ⟨⟨c, rest, hrow.trans hc, hhead⟩, d, front, hrow.trans hd, (hplain d (by simp [hd])).1⟩
    | cons next columns =>
      have hrow : row (column :: next :: columns) =
          column.toList ++ [' '] ++ row (next :: columns) := List.intercalate_cons_cons
      obtain ⟨-, d, front, hd, hlast⟩ :=
        ih (List.cons_ne_nil _ _) fun other ho => hall other (List.mem_cons_of_mem _ ho)
      exact ⟨⟨c, rest ++ [' '] ++ row (next :: columns), by rw [hrow, hc]; simp, hhead⟩,
        d, column.toList ++ [' '] ++ front, by rw [hrow, hd]; simp, hlast⟩

/-- A row is one line of a text. -/
theorem row_line (h : Columns columns) (hi : ∀ c ∈ indent, c = ' ') :
    '\n' ∉ indent ++ row columns ∧ (indent ++ row columns).getLast? ≠ some '\r' := by
  obtain ⟨-, c, front, hrow, hc⟩ := ends_of_row h
  constructor
  · intro hm
    obtain hm | hm := List.mem_append.1 hm
    · cases hi _ hm
    · obtain hs | ⟨column, hcolumn, hm⟩ := eq_or_mem_of_mem_row hm
      · cases hs
      · exact absurd ((h.2 column hcolumn).2 _ hm).1 (by decide)
  · rw [hrow, ← List.append_assoc, List.getLast?_concat]
    rintro ⟨⟩
    cases hc

theorem trimEnd_append_of_not_blank {c : Char} (h : isBlank c = false) (front : List Char) :
    trimEnd (front ++ [c]) = front ++ [c] := by
  simp [trimEnd, h]

/-- Nothing of a row is a comment. -/
theorem readLine_row (reader : LineReader) (h : Columns columns) (hi : ∀ c ∈ indent, c = ' ') :
    reader.readLine (String.ofList (indent ++ row columns)) = reader ⟨indent ++ row columns⟩ := by
  obtain ⟨-, c, front, hrow, hc⟩ := ends_of_row h
  have hkept : ∀ c ∈ indent ++ row columns, (c != '#') = true := by
    intro c hm
    rw [bne_iff_ne]
    obtain hm | hm := List.mem_append.1 hm
    · rw [hi c hm]
      decide
    · obtain hs | ⟨column, hcolumn, hm⟩ := eq_or_mem_of_mem_row hm
      · rw [hs]
        decide
      · exact ((h.2 column hcolumn).2 c hm).2
  have hline : Line.ofText? (String.ofList (indent ++ row columns)) =
      some ⟨indent ++ row columns⟩ := by
    rw [Line.ofText?, String.toList_ofList, List.takeWhile_eq_self_iff.2 hkept, hrow,
      ← List.append_assoc, trimEnd_append_of_not_blank hc]
    split
    · rename_i hnil
      simp at hnil
    · rfl
  rw [LineReader.readLine, hline]

end JarRename.Mapping
