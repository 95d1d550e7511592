import Mathlib
import JarRename.Proofs.Mapping.Reading
import JarRename.Proofs.Text.Lines

/-!
# A bad line ends the reading

The first line that is refused is the one that is reported. What has been read by then is what its
lines before say. Lines that hold nothing can stand anywhere between the others.
-/
namespace JarRename.Mapping

open Text

/-- A line of blanks, which may end in a comment. -/
def Filler (line : List Char) : Prop :=
  '\n' ∉ line ∧ ∃ blanks comment, line = blanks ++ comment ∧ (∀ c ∈ blanks, isBlank c = true) ∧
    (comment = [] ∨ comment.head? = some '#')

/-- One line that holds nothing is added to a text: in front of one of its lines, or at its end. -/
inductive AddsLine : (text padded : List Char) → Prop
  | between {before line : List Char} (after : List Char) (finished : Finished before)
      (filler : Filler line) : AddsLine (before ++ after) (before ++ (line ++ '\n' :: after))
  | last {text line : List Char} (finished : Finished text) (filler : Filler line) :
      AddsLine text (text ++ line)
  | below {text line : List Char} (ending : List Char)
      (ends : ending = ['\n'] ∨ ending = ['\r', '\n']) (filler : Filler line) :
      AddsLine text (text ++ ending ++ line)

/-- Lines that hold nothing are added to a text, one after the other. -/
def Padded : (text padded : List Char) → Prop := Relation.ReflTransGen AddsLine

/-- The lines of a text that hold something. -/
def contents (text : List Char) : List Line :=
  (linesWith '\n' '\r' text).filterMap fun line => Line.ofText? (String.ofList line)

section Contents

variable {text padded line : List Char}

/-- The comment of a line is what follows the first `#`. -/
theorem takeWhile_comment {held : List Char} (h : '#' ∉ held) (comment : List Char) :
    (held ++ '#' :: comment).takeWhile (· != '#') = held := by
  rw [List.takeWhile_append_of_pos (bne_of_notMem h)]
  simp

theorem trimEnd_eq_nil {cs : List Char} (h : ∀ c ∈ cs, isBlank c = true) : trimEnd cs = [] := by
  simpa [trimEnd] using h

/-- A carriage return at the end of a line does not count. -/
theorem ofText?_append_return (line : List Char) :
    Line.ofText? (String.ofList (line ++ ['\r'])) = Line.ofText? (String.ofList line) := by
  have hsame : trimEnd ((line ++ ['\r']).takeWhile (· != '#')) =
      trimEnd (line.takeWhile (· != '#')) := by
    by_cases h : '#' ∈ line
    · obtain ⟨held, comment, rfl, hheld⟩ := List.eq_append_cons_of_mem h
      rw [List.append_assoc, List.cons_append, takeWhile_comment hheld, takeWhile_comment hheld]
    · rw [List.takeWhile_append_of_pos (bne_of_notMem h),
        List.takeWhile_eq_self_iff.2 (bne_of_notMem h)]
      exact trimEnd_append_blanks (List.forall_mem_singleton.2 (by decide)) line
  simp only [Line.ofText?, String.toList_ofList, hsame]

theorem Filler.ofText?_eq_none (h : Filler line) : Line.ofText? (String.ofList line) = none := by
  obtain ⟨-, blanks, comment, rfl, hblank, hcomment⟩ := h
  have hheld : '#' ∉ blanks := fun hm => absurd (hblank _ hm) (by decide)
  have hnil : trimEnd ((blanks ++ comment).takeWhile (· != '#')) = [] := by
    rw [List.takeWhile_append_of_pos (bne_of_notMem hheld)]
    obtain rfl | hc := hcomment
    · simpa using trimEnd_eq_nil hblank
    · obtain ⟨rest, rfl⟩ := List.head?_eq_some_iff.1 hc
      simpa using trimEnd_eq_nil hblank
  simp only [Line.ofText?, String.toList_ofList, hnil]

@[simp] theorem contents_nil : contents [] = [] := rfl

theorem contents_eq (h : '\n' ∉ line) :
    contents line = (Line.ofText? (String.ofList line)).toList := by
  rw [contents, linesWith_eq h]
  split
  · rename_i hnil
    subst hnil
    rfl
  · cases hl : Line.ofText? (String.ofList line) <;> simp [hl]

theorem contents_append {ending : List Char} (h : '\n' ∉ line) (he : LineEnd line ending)
    (rest : List Char) :
    contents (line ++ ending ++ rest) =
      (Line.ofText? (String.ofList line)).toList ++ contents rest := by
  rw [contents, linesWith_append h he]
  cases hl : Line.ofText? (String.ofList line) <;> simp [hl, contents]

/-- A line feed makes lines of what stands before it and of what stands behind it. -/
theorem contents_append_feed (text rest : List Char) :
    contents (text ++ '\n' :: rest) = contents text ++ contents rest := by
  induction text using lines_induction with
  | last line h =>
    rw [contents_eq h]
    by_cases hr : line.getLast? = some '\r'
    · obtain ⟨init, rfl⟩ := List.getLast?_eq_some_iff.1 hr
      have hinit : '\n' ∉ init := fun hm => h (List.mem_append_left _ hm)
      rw [ofText?_append_return, ← contents_append hinit .both]
      simp
    · rw [← contents_append h (.feed hr)]
      simp
  | cons line ending after h he ih =>
    have hwhole : line ++ ending ++ after ++ '\n' :: rest =
        line ++ ending ++ (after ++ '\n' :: rest) := by simp
    rw [hwhole, contents_append h he, contents_append h he, ih, List.append_assoc]

theorem contents_append_return (text : List Char) : contents (text ++ ['\r']) = contents text := by
  induction text using lines_induction with
  | last line h =>
    rw [contents_eq h, contents_eq (by simp [h]), ofText?_append_return]
  | cons line ending after h he ih =>
    rw [List.append_assoc, contents_append h he, contents_append h he, ih]

theorem contents_append_of_finished (h : Finished text) (rest : List Char) :
    contents (text ++ rest) = contents text ++ contents rest := by
  obtain rfl | hlast := h
  · rfl
  · obtain ⟨init, rfl⟩ := List.getLast?_eq_some_iff.1 hlast
    rw [List.append_assoc, List.singleton_append, contents_append_feed, contents_append_feed,
      contents_nil, List.append_nil]

theorem Filler.contents_eq_nil (h : Filler line) : contents line = [] := by
  rw [contents_eq h.1, h.ofText?_eq_none]
  rfl

theorem AddsLine.contents_eq (h : AddsLine text padded) : contents padded = contents text := by
  cases h with
  | between after finished filler =>
    rw [contents_append_of_finished finished, contents_append_of_finished finished,
      contents_append_feed, filler.contents_eq_nil, List.nil_append]
  | last finished filler =>
    rw [contents_append_of_finished finished, filler.contents_eq_nil, List.append_nil]
  | @below _ line ending ends filler =>
    obtain rfl | rfl := ends
    · rw [List.append_assoc, List.singleton_append, contents_append_feed, filler.contents_eq_nil,
        List.append_nil]
    · have hwhole : text ++ ['\r', '\n'] ++ line = text ++ ['\r'] ++ '\n' :: line := by simp
      rw [hwhole, contents_append_feed, contents_append_return, filler.contents_eq_nil,
        List.append_nil]

theorem Padded.contents_eq (h : Padded text padded) : contents padded = contents text := by
  induction h with
  | refl => rfl
  | tail _ adds ih => rw [adds.contents_eq, ih]

end Contents

namespace LineReader

variable {reader : LineReader} {progress last : Progress} {text : String} {texts : List String}

/-- The reader accepts all of these lines, and gets from `progress` to `last` with them. -/
inductive Passes (reader : LineReader) : Progress → List String → Progress → Prop
  | nil {progress : Progress} : Passes reader progress [] progress
  | cons {progress next last : Progress} {text : String} {texts : List String}
      (read : (reader.readLine text).outcome progress = (.ok (), next))
      (rest : Passes reader next texts last) : Passes reader progress (text :: texts) last

theorem Passes.append {next : Progress} {more : List String} (h : Passes reader progress texts next)
    (rest : Passes reader next more last) : Passes reader progress (texts ++ more) last := by
  induction h with
  | nil => exact rest
  | cons read _ ih => exact .cons read (ih rest)

theorem Passes.readLines_append (h : Passes reader progress texts last) (number : Nat)
    (rest : List (Option String)) :
    reader.readLines number progress (texts.map some ++ rest) =
      reader.readLines (number + texts.length) last rest := by
  induction h generalizing number with
  | nil => rfl
  | cons read _ ih =>
    rw [List.map_cons, List.cons_append, readLines, read]
    dsimp only
    rw [ih, List.length_cons, Nat.add_right_comm, Nat.add_assoc]

theorem Passes.readLines (h : Passes reader progress texts last) (number : Nat) :
    reader.readLines number progress (texts.map some) = (.ok (), last.set) := by
  have hall := h.readLines_append number []
  rw [List.append_nil] at hall
  rw [hall]
  rfl

/-- All lines are accepted, or there is a first one that is refused. -/
theorem passes_or_refuses (reader : LineReader) (progress : Progress) (texts : List String) :
    (∃ last, Passes reader progress texts last) ∨
      ∃ front text after last cause left, texts = front ++ text :: after ∧
        Passes reader progress front last ∧
        (reader.readLine text).outcome last = (.error cause, left) := by
  induction texts generalizing progress with
  | nil => exact .inl ⟨progress, .nil⟩
  | cons text texts ih =>
    rcases hread : (reader.readLine text).outcome progress with ⟨cause | _, next⟩
    · exact .inr ⟨[], text, texts, progress, cause, next, rfl, .nil, hread⟩
    · obtain ⟨last, h⟩ | ⟨front, bad, after, last, cause, left, rfl, h, hbad⟩ := ih next
      · exact .inl ⟨last, .cons hread h⟩
      · exact .inr ⟨text :: front, bad, after, last, cause, left, rfl, .cons hread h, hbad⟩

/-- What reading lines comes to: whether all of them are accepted, and the mappings. -/
def readAll (reader : LineReader) (progress : Progress) : List Line → Bool × MappingSet
  | [] => (true, progress.set)
  | line :: rest =>
    match (reader line).outcome progress with
    | (.error _, progress) => (false, progress.set)
    | (.ok (), progress) => readAll reader progress rest

/-- Only lines that hold something are read, and their numbers are only reported. -/
theorem readLines_readAll (reader : LineReader) (number : Nat) (progress : Progress)
    (texts : List String) :
    readAll reader progress (texts.filterMap Line.ofText?) =
      ((reader.readLines number progress (texts.map some)).1.isOk,
        (reader.readLines number progress (texts.map some)).2) := by
  induction texts generalizing number progress with
  | nil => rfl
  | cons text texts ih =>
    rw [List.map_cons, LineReader.readLines, LineReader.readLine, List.filterMap_cons]
    cases Line.ofText? text with
    | none => exact ih _ _
    | some line =>
      dsimp only
      rw [readAll]
      rcases (reader line).outcome progress with ⟨_ | _, next⟩
      · rfl
      · exact ih _ _

theorem readText_readAll (reader : LineReader) (set : MappingSet) (text : String) :
    readAll reader ⟨none, set⟩ (contents text.toList) =
      ((reader.readText text set).1.isOk, (reader.readText text set).2) := by
  have hcontents : contents text.toList = (linesOf text).filterMap Line.ofText? := by
    rw [contents, linesOf, List.filterMap_map]
    rfl
  rw [hcontents]
  exact readLines_readAll reader 1 ⟨none, set⟩ (linesOf text)

/-- The first line of a text that the reader refuses, if reading starts with the given mappings:
its number and what it holds. `before` is the text up to it, and `progress` what has been read of
that. -/
structure FirstRefused (reader : LineReader) (set : MappingSet) (text : String) (number : Nat)
    (before content : String) (progress : Progress) (cause : LineError) : Prop where
  place : LineAt text.toList number before.toList content.toList
  accepted : Passes reader ⟨none, set⟩ (linesOf before) progress
  /-- Nothing of the line stays. -/
  refused : (reader.readLine content).outcome progress = (.error cause, progress)

theorem exists_firstRefused (atomic : ∀ line, (reader line).Atomic) {set : MappingSet}
    {number : Nat} {content : String} {cause : LineError}
    (h : (reader.readText text set).1 = .error (.badLine number content cause)) :
    ∃ before progress, FirstRefused reader set text number before content progress cause ∧
      (reader.readText text set).2 = progress.set := by
  obtain ⟨last, hall⟩ | ⟨front, bad, after, last, found, left, htexts, hfront, hbad⟩ :=
    passes_or_refuses reader ⟨none, set⟩ (linesOf text)
  · rw [readText, hall.readLines] at h
    cases h
  · obtain rfl := atomic_readLine atomic bad last found left hbad
    have hread : reader.readText text set =
        (.error (.badLine (1 + front.length) bad found), left.set) := by
      rw [readText, htexts, List.map_append, hfront.readLines_append, List.map_cons,
        LineReader.readLines, hbad]
    rw [hread] at h ⊢
    cases h
    have hlines : linesWith '\n' '\r' text.toList =
        front.map String.toList ++ content.toList :: after.map String.toList := by
      have hmap := congrArg (List.map String.toList) htexts
      simpa [linesOf, Function.comp_def] using hmap
    obtain ⟨before, hplace, hbefore⟩ := LineAt.of_linesWith hlines
    have hfrontLines : linesOf (String.ofList before) = front := by
      rw [linesOf, String.toList_ofList, hbefore, List.map_map]
      simp [Function.comp_def]
    refine ⟨String.ofList before, left, ⟨?_, hfrontLines ▸ hfront, hbad⟩, rfl⟩
    rw [String.toList_ofList, Nat.add_comm]
    simpa using hplace

/-- Lines that hold nothing change neither what is read nor whether it can be read. -/
theorem readText_padded {set : MappingSet} {text padded : String}
    (h : Padded text.toList padded.toList) :
    (reader.readText padded set).2 = (reader.readText text set).2 ∧
      (reader.readText padded set).1.isOk = (reader.readText text set).1.isOk := by
  have hall := readText_readAll reader set padded
  rw [h.contents_eq, readText_readAll, Prod.mk.injEq] at hall
  exact ⟨hall.2.symm, hall.1.symm⟩

end LineReader

/-- For every format, whatever the records of its lines are: a line that is reported is the first
one that is refused, and the mappings are those of the text before it. Lines that hold nothing can
be added anywhere. -/
theorem bad_line_ends_reading (cut : List Char → Option Proguard.Record) (format : MappingFormat)
    (set : MappingSet) (text : String) :
    let reader := format.lineReaderWith cut
    (∀ number content cause,
      (reader.readText text set).1 = .error (.badLine number content cause) →
        ∃ before progress, reader.FirstRefused set text number before content progress cause ∧
          reader.readText before set = (.ok (), progress.set) ∧
          (reader.readText text set).2 = progress.set) ∧
    ∀ padded : String, Padded text.toList padded.toList →
      (reader.readText padded set).2 = (reader.readText text set).2 ∧
        (reader.readText padded set).1.isOk = (reader.readText text set).1.isOk := by
  intro reader
  refine ⟨fun number content cause h => ?_, fun padded h => LineReader.readText_padded h⟩
  obtain ⟨before, progress, hfirst, hset⟩ :=
    LineReader.exists_firstRefused (atomic_lineReader cut format) h
  exact ⟨before, progress, hfirst, hfirst.accepted.readLines 1, hset⟩

/-- The second line is that of a member with one column only. -/
def memberText : String := "a/B x/Y\n    c\n"

/-- The comment in front of the text changes nothing. -/
theorem bad_line_ends_reading_member :
    let reader := MappingFormat.tsrg.lineReaderWith Proguard.record?
    (reader.readText memberText .empty).1 =
        .error (.badLine 2 "    c" (.twoOrThreeColumns 1)) ∧
      Padded memberText.toList ("# names\n" ++ memberText).toList ∧
      (∃ before progress, reader.FirstRefused .empty memberText 2 before "    c" progress
          (.twoOrThreeColumns 1) ∧
        reader.readText before .empty = (.ok (), progress.set) ∧
        (reader.readText memberText .empty).2 = progress.set) ∧
      (reader.readText ("# names\n" ++ memberText) .empty).2 =
        (reader.readText memberText .empty).2 := by
  intro reader
  have hbad : (reader.readText memberText .empty).1 =
      .error (.badLine 2 "    c" (.twoOrThreeColumns 1)) := by
    decide +kernel
  have hfiller : Filler "# names".toList :=
    ⟨by decide, [], "# names".toList, rfl, by simp, .inr (by decide)⟩
  have hpadded : Padded memberText.toList ("# names\n" ++ memberText).toList :=
    .single (.between memberText.toList (.inl rfl) hfiller)
  have hall := bad_line_ends_reading Proguard.record? .tsrg .empty memberText
  exact ⟨hbad, hpadded, hall.1 _ _ _ hbad, (hall.2 _ hpadded).1⟩

end JarRename.Mapping
