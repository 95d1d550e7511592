import Mathlib
import JarRename.Jar.Manifest
import JarRename.Proofs.Text.Lines

/-!
# Sections that are read again

A manifest is cut at its blank lines, and a section before each line that does not continue a
header. Sections that come from such a cut are read again, with either line end, as they were
written, if no carriage return stands alone.
-/
namespace JarRename.Jar

open Text

/-- Every carriage return is directly followed by a line feed. -/
def PairedReturns (text : List Char) : Prop :=
  ∀ i < text.length, text[i]? = some '\r' → text[i + 1]? = some '\n'

/-- A line that stands in a section. -/
structure PlainLine (line : Line) : Prop where
  nonempty : line ≠ []
  feed_notMem : '\n' ∉ line
  return_notMem : '\r' ∉ line

structure Header.WellFormed (header : Header) : Prop where
  plain : ∀ line ∈ header.lines, PlainLine line
  continued : ∀ line ∈ header.more, Manifest.isContinuation line = true

/-- Headers that make up a section. Only the first one may begin as a continuation does. -/
structure Section.WellFormed (headers : Section) : Prop where
  nonempty : headers ≠ []
  header : ∀ header ∈ headers, header.WellFormed
  begun : ∀ header ∈ headers.tail, Manifest.isContinuation header.first = false

/-- An end for all lines that hold no carriage return. -/
def EndsLines (ending : List Char) : Prop := ∀ line, '\r' ∉ line → LineEnd line ending

namespace PairedReturns

variable {text : List Char}

theorem head?_after (h : PairedReturns text) {before after : List Char}
    (ht : text = before ++ '\r' :: after) : after.head? = some '\n' := by
  subst ht
  have hnext := h before.length (by simp) (by simp)
  rw [List.getElem?_append_right (by omega), Nat.add_sub_cancel_left] at hnext
  simpa [List.head?_eq_getElem?] using hnext

theorem of_append {before after : List Char} (h : PairedReturns (before ++ after)) :
    PairedReturns after := by
  intro i hi hr
  have hnext := h (before.length + i) (by simp [hi])
    (by simpa [List.getElem?_append_right] using hr)
  simpa [List.getElem?_append_right, Nat.add_assoc] using hnext

theorem notMem_unfinished {line : List Char} (h : PairedReturns line) (hf : '\n' ∉ line) :
    '\r' ∉ line := by
  intro hm
  obtain ⟨before, after, rfl⟩ := List.append_of_mem hm
  have hfeed : '\n' ∈ after := List.mem_of_head? (h.head?_after rfl)
  exact hf (List.mem_append_right _ (List.mem_cons_of_mem _ hfeed))

/-- The carriage return of the line end is the only one. -/
theorem notMem_line {line ending rest : List Char}
    (h : PairedReturns (line ++ ending ++ rest)) (hf : '\n' ∉ line) (he : LineEnd line ending) :
    '\r' ∉ line := by
  intro hm
  obtain ⟨before, after, rfl⟩ := List.append_of_mem hm
  have hsplit : before ++ '\r' :: after ++ ending ++ rest =
      before ++ '\r' :: (after ++ ending ++ rest) := by simp
  have hhead := h.head?_after hsplit
  cases after with
  | nil =>
    cases he with
    | feed bare => simp at bare
    | both => simp at hhead
  | cons c after =>
    obtain rfl : c = '\n' := by simpa using hhead
    simp at hf

end PairedReturns

namespace Manifest

theorem linesOf_singleton {line : List Char} (hf : '\n' ∉ line) (hr : '\r' ∉ line) :
    linesOf line = [line] := by
  have hbare : dropSuffix? ['\r'] line = none := by
    rw [Option.eq_none_iff_forall_ne_some]
    intro rest hrest
    rw [dropSuffix?_eq_some_iff] at hrest
    simp [hrest] at hr
  rw [linesOf, splitOn_eq_singleton hf, List.map_singleton, hbare]
  rfl

/-- The first line stands before the first line end. -/
theorem linesOf_append {line ending : List Char} (hf : '\n' ∉ line) (he : LineEnd line ending)
    (rest : List Char) : linesOf (line ++ ending ++ rest) = line :: linesOf rest := by
  cases he with
  | feed bare =>
    have hbare : dropSuffix? ['\r'] line = none := by
      rw [Option.eq_none_iff_forall_ne_some]
      intro front hfront
      rw [dropSuffix?_eq_some_iff] at hfront
      simp [hfront] at bare
    rw [linesOf, List.append_assoc, List.singleton_append, splitOn_append_cons hf, List.map_cons,
      hbare]
    rfl
  | both =>
    have hline : '\n' ∉ line ++ ['\r'] := by simp [hf]
    have hreturn : dropSuffix? ['\r'] (line ++ ['\r']) = some line :=
      dropSuffix?_eq_some_iff.2 rfl
    have hsplit : line ++ ['\r', '\n'] ++ rest = line ++ ['\r'] ++ '\n' :: rest := by simp
    rw [linesOf, hsplit, splitOn_append_cons hline, List.map_cons, hreturn]
    rfl

/-- No line of a text with paired carriage returns holds a character of a line end. -/
theorem notMem_of_mem_linesOf {text line : List Char} (h : PairedReturns text)
    (hl : line ∈ linesOf text) : '\n' ∉ line ∧ '\r' ∉ line := by
  induction text using lines_induction with
  | last unfinished hf =>
    have hr := h.notMem_unfinished hf
    rw [linesOf_singleton hf hr, List.mem_singleton] at hl
    exact hl ▸ ⟨hf, hr⟩
  | cons first ending rest hf he ih =>
    rw [linesOf_append hf he] at hl
    obtain rfl | hl := List.mem_cons.1 hl
    · exact ⟨hf, h.notMem_line hf he⟩
    · exact ih h.of_append hl

theorem endsLines_lineEnd (text : List Char) : EndsLines (lineEnd text) := by
  intro line hr
  unfold lineEnd
  split
  · exact .both
  · exact .feed fun hlast => hr (List.mem_of_getLast? hlast)

/-- Lines with ends are read again. -/
theorem linesOf_flatMap {lines : List Line} {ending : List Char} (he : EndsLines ending)
    (h : ∀ line ∈ lines, PlainLine line) (rest : List Char) :
    linesOf (lines.flatMap (· ++ ending) ++ rest) = lines ++ linesOf rest := by
  induction lines with
  | nil => rfl
  | cons line lines ih =>
    have hline := h line List.mem_cons_self
    rw [List.flatMap_cons, List.append_assoc,
      linesOf_append hline.feed_notMem (he line hline.return_notMem),
      ih fun other ho => h other (List.mem_cons_of_mem _ ho), List.cons_append]

section Headers

/-- Lines that continue a header stand in front of what is gathered from the rest. -/
theorem gather_append {more : List Line} (h : ∀ line ∈ more, isContinuation line = true)
    (lines : List Line) :
    gather (more ++ lines) = (more ++ (gather lines).1, (gather lines).2) := by
  induction more with
  | nil => rfl
  | cons line more ih =>
    have hmore := ih fun other ho => h other (List.mem_cons_of_mem _ ho)
    rw [List.cons_append, gather, List.foldr_cons, ← gather, hmore]
    simp [h line List.mem_cons_self]

theorem gather_cons {line : Line} (h : isContinuation line = false) (lines : List Line) :
    gather (line :: lines) = ([], ⟨line, (gather lines).1⟩ :: (gather lines).2) := by
  rw [gather, List.foldr_cons, ← gather, h]
  rfl

/-- The lines of headers are gathered into these headers. -/
theorem gather_flatMap {headers : Section}
    (h : ∀ header ∈ headers, header.WellFormed ∧ isContinuation header.first = false) :
    gather (headers.flatMap Header.lines) = ([], headers) := by
  induction headers with
  | nil => rfl
  | cons header headers ih =>
    obtain ⟨hwell, hbegun⟩ := h header List.mem_cons_self
    have hrest := ih fun other ho => h other (List.mem_cons_of_mem _ ho)
    rw [List.flatMap_cons, Header.lines, List.cons_append, gather_cons hbegun,
      gather_append hwell.continued, hrest, List.append_nil]

/-- What is gathered holds every line in its place. -/
theorem gather_spec (lines : List Line) :
    (gather lines).1 ++ (gather lines).2.flatMap Header.lines = lines ∧
    (∀ line ∈ (gather lines).1, isContinuation line = true) ∧
    ∀ header ∈ (gather lines).2, isContinuation header.first = false ∧
      ∀ line ∈ header.more, isContinuation line = true := by
  induction lines with
  | nil => simp [gather]
  | cons line lines ih =>
    obtain ⟨hall, hpending, hheaders⟩ := ih
    by_cases hc : isContinuation line = true
    · have hline : ∀ other ∈ [line], isContinuation other = true := by simpa using hc
      have hstep := gather_append hline lines
      rw [List.singleton_append] at hstep
      rw [hstep]
      refine ⟨congrArg (line :: ·) hall, fun other ho => ?_, hheaders⟩
      obtain rfl | ho := List.mem_cons.1 ho
      · exact hc
      · exact hpending other ho
    · rw [gather_cons (by simpa using hc)]
      refine ⟨by simpa [Header.lines] using hall, by simp, fun header hh => ?_⟩
      obtain rfl | hh := List.mem_cons.1 hh
      · exact ⟨by simpa using hc, hpending⟩
      · exact hheaders header hh

theorem headersOf_flatMap {headers : Section} (h : headers.WellFormed) :
    headersOf (headers.flatMap Header.lines) = headers := by
  obtain ⟨header, headers, rfl⟩ := List.exists_cons_of_ne_nil h.nonempty
  have hrest : gather (headers.flatMap Header.lines) = ([], headers) :=
    gather_flatMap fun other ho => ⟨h.header other (List.mem_cons_of_mem _ ho), h.begun other ho⟩
  have hmore := gather_append (h.header header List.mem_cons_self).continued
    (headers.flatMap Header.lines)
  rw [hrest, List.append_nil] at hmore
  rw [List.flatMap_cons, Header.lines, List.cons_append, headersOf, hmore]

theorem flatMap_headersOf (lines : List Line) : (headersOf lines).flatMap Header.lines = lines := by
  cases lines with
  | nil => rfl
  | cons first rest => exact congrArg (first :: ·) (gather_spec rest).1

theorem wellFormed_headersOf {lines : List Line} (hne : lines ≠ [])
    (h : ∀ line ∈ lines, PlainLine line) : (headersOf lines).WellFormed := by
  have hplain : ∀ header ∈ headersOf lines, ∀ line ∈ header.lines, PlainLine line :=
    fun header hh line hl => h line <| by
      rw [← flatMap_headersOf lines]
      exact List.mem_flatMap.2 ⟨header, hh, hl⟩
  obtain ⟨first, rest, rfl⟩ := List.exists_cons_of_ne_nil hne
  obtain ⟨-, hpending, hheaders⟩ := gather_spec rest
  refine ⟨List.cons_ne_nil _ _, fun header hh => ⟨hplain header hh, ?_⟩,
    fun header hh => (hheaders header hh).1⟩
  obtain rfl | hh := List.mem_cons.1 hh
  · exact hpending
  · exact (hheaders header hh).2

end Headers

theorem wellFormed_sectionsOf {text : List Char} (h : PairedReturns text) {headers : Section}
    (hs : headers ∈ sectionsOf text) : headers.WellFormed := by
  obtain ⟨piece, hp, rfl⟩ := List.mem_map.1 hs
  obtain ⟨hpiece, hne⟩ := List.mem_filter.1 hp
  refine wellFormed_headersOf (by simpa using hne) fun line hl => ?_
  obtain ⟨hmem, hfull⟩ := mem_of_mem_piece hpiece hl
  obtain ⟨hf, hr⟩ := notMem_of_mem_linesOf h hmem
  exact ⟨by simpa using hfull, hf, hr⟩

/-- The lines of a section are those between two blank lines. -/
theorem splitWhere_sections {sections : List Section}
    (h : ∀ headers ∈ sections, headers.WellFormed) (rest : List Line) :
    splitWhere List.isEmpty
        (sections.flatMap (fun headers => headers.flatMap Header.lines ++ [[]]) ++ rest) =
      sections.map (·.flatMap Header.lines) ++ splitWhere List.isEmpty rest := by
  induction sections with
  | nil => rfl
  | cons headers sections ih =>
    have hfull : ∀ line ∈ headers.flatMap Header.lines, line.isEmpty = false := by
      intro line hl
      obtain ⟨header, hh, hl⟩ := List.mem_flatMap.1 hl
      have hne := (((h headers List.mem_cons_self).header header hh).plain line hl).nonempty
      simpa using hne
    have hrest := ih fun other ho => h other (List.mem_cons_of_mem _ ho)
    rw [List.flatMap_cons, List.append_assoc, List.append_assoc, List.singleton_append,
      splitWhere_append_cons hfull rfl, hrest, List.map_cons, List.cons_append]

theorem linesOf_render {sections : List Section} {ending : List Char} (he : EndsLines ending)
    (h : ∀ headers ∈ sections, headers.WellFormed) :
    linesOf (render ending sections) =
      sections.flatMap (fun headers => headers.flatMap Header.lines ++ [[]]) ++ [[]] := by
  induction sections with
  | nil => rfl
  | cons headers sections ih =>
    have hplain : ∀ line ∈ headers.flatMap Header.lines, PlainLine line := by
      intro line hl
      obtain ⟨header, hh, hl⟩ := List.mem_flatMap.1 hl
      exact ((h headers List.mem_cons_self).header header hh).plain line hl
    have hblank := linesOf_append List.not_mem_nil (he [] List.not_mem_nil)
      (render ending sections)
    rw [List.nil_append] at hblank
    rw [render, List.flatMap_cons, ← render, List.append_assoc, linesOf_flatMap he hplain, hblank,
      ih fun other ho => h other (List.mem_cons_of_mem _ ho), List.flatMap_cons]
    simp

/-- Sections are read as they were written. -/
theorem sectionsOf_render {sections : List Section} {ending : List Char} (he : EndsLines ending)
    (h : ∀ headers ∈ sections, headers.WellFormed) :
    sectionsOf (render ending sections) = sections := by
  have hfull : ∀ lines ∈ sections.map (·.flatMap Header.lines), (!lines.isEmpty) = true := by
    intro lines hl
    obtain ⟨headers, hh, rfl⟩ := List.mem_map.1 hl
    obtain ⟨header, more, rfl⟩ := List.exists_cons_of_ne_nil (h headers hh).nonempty
    rfl
  have hread : ∀ headers ∈ sections,
      (headersOf ∘ fun headers : Section => headers.flatMap Header.lines) headers = headers :=
    fun headers hh => headersOf_flatMap (h headers hh)
  rw [sectionsOf, linesOf_render he h, splitWhere_sections h, List.filter_append,
    List.filter_eq_self.2 hfull]
  simpa [splitWhere_cons] using List.map_congr_left hread

end Manifest

end JarRename.Jar
