import Mathlib
import JarRename.Proofs.Jar.Sections
import JarRename.Proofs.Jar.SourceName
import JarRename.Proofs.Mapping.NestedClasses

/-!
# The main class of a manifest

Where the main class gets a new name, one header is written anew, in lines that are short enough,
and all others are read again as they were. Where it keeps its name, the text is kept.
-/
namespace JarRename

open Text

namespace Text

@[simp] theorem utf8Length_nil : utf8Length [] = 0 := rfl

theorem utf8Length_eq_sum (cs : List Char) : utf8Length cs = (cs.map Char.utf8Size).sum := by
  rw [utf8Length, List.sum_eq_foldl, List.foldl_map]

@[simp] theorem utf8Length_cons (c : Char) (cs : List Char) :
    utf8Length (c :: cs) = c.utf8Size + utf8Length cs := by
  simp [utf8Length_eq_sum]

/-- What fits is taken. -/
theorem splitBytes_append {room : Nat} {front : List Char} (h : utf8Length front ≤ room)
    (seen cs : List Char) :
    splitBytes room seen (front ++ cs) =
      splitBytes (room - utf8Length front) (front.reverse ++ seen) cs := by
  induction front generalizing room seen with
  | nil => rfl
  | cons c front ih =>
    rw [utf8Length_cons] at h
    have hroom : utf8Length front ≤ room - c.utf8Size := by omega
    rw [List.cons_append, splitBytes, if_pos (by omega), ih hroom, utf8Length_cons, Nat.sub_sub]
    simp

/-- The two parts make up the text, and the first one fits. -/
theorem splitBytes_spec (room : Nat) (seen cs : List Char) :
    ∃ line rest, splitBytes room seen cs = (seen.reverse ++ line, rest) ∧ cs = line ++ rest ∧
      utf8Length line ≤ room := by
  induction cs generalizing room seen with
  | nil => exact ⟨[], [], by simp [splitBytes]⟩
  | cons c cs ih =>
    rw [splitBytes]
    split
    · rename_i hfits
      obtain ⟨line, rest, hs, rfl, hl⟩ := ih (room - c.utf8Size) (c :: seen)
      refine ⟨c :: line, rest, by simpa using hs, rfl, ?_⟩
      rw [utf8Length_cons]
      omega
    · exact ⟨[], c :: cs, by simp⟩

/-- The first part is the longest beginning that fits. -/
theorem prefix_splitBytes {room : Nat} {front cs : List Char} (h : front <+: cs)
    (hroom : utf8Length front ≤ room) : front <+: (splitBytes room [] cs).1 := by
  obtain ⟨tail, rfl⟩ := h
  obtain ⟨line, rest, hs, -⟩ := splitBytes_spec (room - utf8Length front) front.reverse tail
  rw [splitBytes_append hroom, List.append_nil, hs, List.reverse_reverse]
  exact List.prefix_append front line

end Text

namespace Jar

namespace Manifest

/-- A continuation without the space in front of it. -/
def joined (line : Line) : Line := (dropPrefix? [' '] line).getD line

/-- Lines into which a text is cut: joined they are the text, and all but the first continue it. -/
structure Wrapped (room : Nat) (cs : List Char) (first : Line) (more : List Line) : Prop where
  join : first ++ more.flatMap joined = cs
  fits : utf8Length first ≤ room
  begins : ∀ front, front <+: cs → utf8Length front ≤ room → front <+: first
  continues : ∀ line ∈ more, isContinuation line = true ∧ utf8Length line ≤ maxLineLength
  nothing_new : ∀ line ∈ more, ∀ c ∈ line, c = ' ' ∨ c ∈ cs

theorem joined_space (line : Line) : joined (' ' :: line) = line := by
  rw [joined, show ' ' :: line = [' '] ++ line from rfl, dropPrefix?_append, Option.getD_some]

namespace Wrapped

variable {room : Nat} {line rest first : Line} {more : List Line}

/-- Every character is kept. -/
theorem mem_of_mem_first (h : Wrapped room rest first more) {c : Char} (hc : c ∈ first) :
    c ∈ rest := by
  rw [← h.join]
  exact List.mem_append_left _ hc

/-- A line in front, with room for the space that the next one gets. -/
theorem cons (h : Wrapped (maxLineLength - 1) rest first more) (fits : utf8Length line ≤ room)
    (begins : ∀ front, front <+: line ++ rest → utf8Length front ≤ room → front <+: line) :
    Wrapped room (line ++ rest) line ((' ' :: first) :: more) := by
  have hfit : utf8Length (' ' :: first) ≤ maxLineLength := by
    have hfirst := h.fits
    rw [utf8Length_cons, show ' '.utf8Size = 1 by decide]
    simp only [maxLineLength] at hfirst ⊢
    omega
  refine ⟨?_, fits, begins, fun other ho => ?_, fun other ho c hc => ?_⟩
  · rw [List.flatMap_cons, joined_space, h.join]
  · obtain rfl | ho := List.mem_cons.1 ho
    · exact ⟨rfl, hfit⟩
    · exact h.continues other ho
  · obtain rfl | ho := List.mem_cons.1 ho
    · obtain rfl | hc := List.mem_cons.1 hc
      · exact .inl rfl
      · exact .inr (List.mem_append_right _ (h.mem_of_mem_first hc))
    · exact (h.nothing_new other ho c hc).imp_right (List.mem_append_right _)

end Wrapped

/-- Room for four bytes is room for every character, so each line takes one. -/
theorem wrapped_wrap {fuel room : Nat} {cs : List Char} (hr : 4 ≤ room) (hf : cs.length ≤ fuel) :
    ∃ first more, wrap fuel room cs = first :: more ∧ Wrapped room cs first more := by
  induction fuel generalizing room cs with
  | zero =>
    obtain rfl : cs = [] := List.length_eq_zero_iff.1 (by omega)
    exact ⟨[], [], rfl, by simp, by simp, by simp, by simp, by simp⟩
  | succ fuel ih =>
    obtain ⟨line, rest, hs, rfl, hl⟩ := splitBytes_spec room [] cs
    rw [List.reverse_nil, List.nil_append] at hs
    have hbegins : ∀ front, front <+: line ++ rest → utf8Length front ≤ room → front <+: line :=
      fun front hfront hroom => by simpa [hs] using prefix_splitBytes hfront hroom
    cases rest with
    | nil =>
      rw [wrap, hs]
      exact ⟨line, [], rfl, by simp, hl, hbegins, by simp, by simp⟩
    | cons c rest =>
      have hchar : utf8Length [c] ≤ room := by simpa using (Char.utf8Size_le_four c).trans hr
      have hne : line ≠ [] := by
        rintro rfl
        simpa using hbegins [c] (by simp) hchar
      have hshort : (c :: rest).length ≤ fuel := by
        have hpos := List.length_pos_of_ne_nil hne
        rw [List.length_append] at hf
        omega
      have hroom : 4 ≤ maxLineLength - 1 := by decide
      obtain ⟨first, more, hw, hwrapped⟩ := ih hroom hshort
      rw [wrap, hs]
      exact ⟨line, (' ' :: first) :: more, by simp [hw], hwrapped.cons hl hbegins⟩

/-- What stands in the first line in front of the value. -/
def mainClassLabel : List Char := "Main-Class: ".toList

theorem mainClassHeader_eq (value : List Char) :
    ∃ first more, mainClassHeader value = ⟨mainClassLabel ++ first, more⟩ ∧
      Wrapped maxLineLength (mainClassLabel ++ value) (mainClassLabel ++ first) more := by
  have hroom : 4 ≤ maxLineLength := by decide
  have hlabel : utf8Length mainClassLabel ≤ maxLineLength := by decide
  obtain ⟨first, more, hw, hwrapped⟩ :=
    wrapped_wrap hroom (le_refl (mainClassLabel ++ value).length)
  obtain ⟨tail, rfl⟩ := hwrapped.begins mainClassLabel (List.prefix_append _ _) hlabel
  refine ⟨tail, more, ?_, hwrapped⟩
  have hlines : wrap ("Main-Class: ".toList ++ value).length maxLineLength
      ("Main-Class: ".toList ++ value) = (mainClassLabel ++ tail) :: more := hw
  rw [mainClassHeader, hlines]

section NewHeader

variable {value : List Char}

theorem cut?_mainClassLabel (first : Line) :
    cut? ':' (mainClassLabel ++ first) = some ("Main-Class".toList, ' ' :: first) :=
  cut?_append (show ':' ∉ "Main-Class".toList by decide) (' ' :: first)

theorem isMainClass_mainClassHeader : (mainClassHeader value).isMainClass = true := by
  obtain ⟨first, more, hh, -⟩ := mainClassHeader_eq value
  rw [hh, Header.isMainClass, Header.name, cut?_mainClassLabel]
  exact show sameLetters (trim "Main-Class".toList) "Main-Class".toList = true by decide

/-- The lines of the new header hold its value. -/
theorem value_mainClassHeader (head : ∀ c, value.head? = some c → isBlank c = false)
    (last : ∀ c, value.getLast? = some c → isBlank c = false) :
    (mainClassHeader value).value = value := by
  obtain ⟨first, more, hh, hwrapped⟩ := mainClassHeader_eq value
  have hjoin : first ++ more.flatMap joined = value := by
    have hall := hwrapped.join
    rw [List.append_assoc] at hall
    exact List.append_cancel_left hall
  calc (mainClassHeader value).value
      = trim (' ' :: first ++ more.flatMap joined) := by
        rw [hh, Header.value, cut?_mainClassLabel]
        rfl
    _ = trim value := by
        rw [List.cons_append, hjoin]
        rfl
    _ = value := trim_eq_self head last

theorem lines_mainClassHeader {line : Line} (h : line ∈ (mainClassHeader value).lines) :
    utf8Length line ≤ maxLineLength := by
  obtain ⟨first, more, hh, hwrapped⟩ := mainClassHeader_eq value
  rw [hh] at h
  obtain rfl | h := List.mem_cons.1 h
  · exact hwrapped.fits
  · exact (hwrapped.continues line h).2

theorem isContinuation_mainClassHeader : isContinuation (mainClassHeader value).first = false := by
  obtain ⟨first, more, hh, -⟩ := mainClassHeader_eq value
  rw [hh]
  rfl

theorem wellFormed_mainClassHeader (hf : '\n' ∉ value) (hr : '\r' ∉ value) :
    (mainClassHeader value).WellFormed := by
  obtain ⟨first, more, hh, hwrapped⟩ := mainClassHeader_eq value
  have hnew : ∀ line ∈ (mainClassHeader value).lines, ∀ c ∈ line,
      c = ' ' ∨ c ∈ mainClassLabel ++ value := by
    intro line hl c hc
    rw [hh] at hl
    obtain rfl | hl := List.mem_cons.1 hl
    · exact .inr (hwrapped.mem_of_mem_first hc)
    · exact hwrapped.nothing_new line hl c hc
  have hlabel : mainClassLabel ≠ [] ∧ '\n' ∉ mainClassLabel ∧ '\r' ∉ mainClassLabel := by decide
  refine ⟨fun line hl => ⟨?_, fun hm => ?_, fun hm => ?_⟩, fun line hl => ?_⟩
  · rw [hh] at hl
    obtain rfl | hl := List.mem_cons.1 hl
    · exact List.append_ne_nil_of_left_ne_nil hlabel.1 first
    · rintro rfl
      simpa [isContinuation] using (hwrapped.continues [] hl).1
  · simpa [hlabel.2.1, hf] using hnew line hl _ hm
  · simpa [hlabel.2.2, hr] using hnew line hl _ hm
  · rw [hh] at hl
    exact (hwrapped.continues line hl).1

end NewHeader

section Rename

variable {set : MappingSet} {before after : Section} {header : Header}

theorem renameInSection?_of_forall (h : ∀ header ∈ before, header.isMainClass = false) :
    renameInSection? set before = none := by
  induction before with
  | nil => rfl
  | cons header before ih =>
    rw [renameInSection?, h header List.mem_cons_self,
      ih fun other ho => h other (List.mem_cons_of_mem _ ho)]
    rfl

/-- The first header of a main class is the one that is looked at. -/
theorem renameInSection?_append (h : ∀ header ∈ before, header.isMainClass = false)
    (hm : header.isMainClass = true) :
    renameInSection? set (before ++ header :: after) =
      (set.mapSourceName? header.value).map fun mapped =>
        before ++ mainClassHeader mapped :: after := by
  induction before with
  | nil => rw [List.nil_append, renameInSection?, if_pos hm]; rfl
  | cons other before ih =>
    rw [List.cons_append, renameInSection?, h other List.mem_cons_self,
      ih fun other ho => h other (List.mem_cons_of_mem _ ho)]
    simp [Function.comp_def]

end Rename

/-- Only one header is another one. -/
theorem wellFormed_replace {before after : Section} {header new : Header}
    (h : Section.WellFormed (before ++ header :: after)) (hn : new.WellFormed)
    (hc : isContinuation new.first = false) : Section.WellFormed (before ++ new :: after) := by
  refine ⟨by simp, fun other ho => ?_, fun other ho => ?_⟩
  · obtain hb | ho := List.mem_append.1 ho
    · exact h.header other (List.mem_append_left _ hb)
    · obtain rfl | ha := List.mem_cons.1 ho
      · exact hn
      · exact h.header other (List.mem_append_right _ (List.mem_cons_of_mem _ ha))
  · cases before with
    | nil => exact h.begun other ho
    | cons first before =>
      obtain hb | ho := List.mem_append.1 ho
      · exact h.begun other (List.mem_append_left _ hb)
      · obtain rfl | ha := List.mem_cons.1 ho
        · exact hc
        · exact h.begun other (List.mem_append_right _ (List.mem_cons_of_mem _ ha))

end Manifest

/-- The characters of a value stand in the lines of its header. -/
theorem Header.mem_of_mem_value {header : Header} {c : Char} (h : c ∈ header.value) :
    ∃ line ∈ header.lines, c ∈ line := by
  obtain hfirst | hmore := List.mem_append.1 (mem_of_mem_trim h)
  · cases hcut : cut? ':' header.first with
    | none => simp [hcut] at hfirst
    | some cut =>
      obtain ⟨name, value⟩ := cut
      have hvalue : c ∈ value := by simpa [hcut] using hfirst
      rw [Header.lines, (eq_append_of_cut? hcut).1]
      exact ⟨_, List.mem_cons_self, by simp [hvalue]⟩
  · obtain ⟨line, hl, hc⟩ := List.mem_flatMap.1 hmore
    refine ⟨line, List.mem_cons_of_mem _ hl, ?_⟩
    cases hdrop : dropPrefix? [' '] line with
    | none => simpa [hdrop] using hc
    | some rest =>
      rw [eq_append_of_dropPrefix? hdrop]
      exact List.mem_append_right _ (by simpa [hdrop] using hc)

/-- The main class with slashes, as classes are named in mappings. -/
def Header.className (header : Header) : String := String.ofList (exchange '.' '/' header.value)

/-- The new name of a main class, with points again. -/
def newMainClass (set : MappingSet) (header : Header) : List Char :=
  exchange '/' '.' (set.mapClass header.className).toList

/-- A header of the main class that has the new name of the one in another header. -/
structure Repointed (set : MappingSet) (header new : Header) : Prop where
  isMainClass : new.isMainClass = true
  value : new.value = newMainClass set header
  short : ∀ line ∈ new.lines, utf8Length line ≤ 72

namespace Manifest

variable {set : MappingSet} {text : List Char}

theorem mapSourceName?_eq (set : MappingSet) (header : Header) :
    set.mapSourceName? header.value =
      if set.mapClass header.className = header.className then none
      else some (newMainClass set header) :=
  MappingSet.mapSourceName?_eq set header.value

theorem renameMainClass_of_none {main : Section} {rest : List Section}
    (hs : sectionsOf text = main :: rest) (h : renameInSection? set main = none) :
    renameMainClass set text = text := by
  simp only [renameMainClass, hs, h]

theorem renameMainClass_of_some {main new : Section} {rest : List Section}
    (hs : sectionsOf text = main :: rest) (h : renameInSection? set main = some new) :
    renameMainClass set text = render (lineEnd text) (new :: rest) := by
  simp only [renameMainClass, hs, h]

/-- The main class changes in the first header of the main section that has one, or the text stays
as it is. -/
theorem renameMainClass_exact (paired : PairedReturns text) (plain : set.NoBlanks) :
    ((∀ main rest, sectionsOf text = main :: rest → ∀ header ∈ main, header.isMainClass = false) →
      renameMainClass set text = text) ∧
    ∀ before header after rest, sectionsOf text = (before ++ header :: after) :: rest →
      (∀ other ∈ before, other.isMainClass = false) → header.isMainClass = true →
        (set.mapClass header.className = header.className → renameMainClass set text = text) ∧
        (set.mapClass header.className ≠ header.className → ∃ new, Repointed set header new ∧
          sectionsOf (renameMainClass set text) = (before ++ new :: after) :: rest) := by
  constructor
  · intro hnone
    cases hs : sectionsOf text with
    | nil => simp only [renameMainClass, hs]
    | cons main rest =>
      exact renameMainClass_of_none hs (renameInSection?_of_forall (hnone main rest hs))
  intro before header after rest hs hbefore hmain
  have hrename : renameInSection? set (before ++ header :: after) =
      (set.mapSourceName? header.value).map fun mapped =>
        before ++ mainClassHeader mapped :: after := renameInSection?_append hbefore hmain
  have hmapped := mapSourceName?_eq set header
  refine ⟨fun heq => ?_, fun hne => ?_⟩
  · rw [hmapped, if_pos heq] at hrename
    exact renameMainClass_of_none hs hrename
  · rw [if_neg hne] at hmapped
    rw [hmapped] at hrename
    obtain ⟨hhead, hlast, hblank⟩ := plain.mapSourceName? hmapped
      fun c hc => not_blank_of_getLast?_trim hc
    have hsection : Section.WellFormed (before ++ header :: after) :=
      wellFormed_sectionsOf paired (by simp [hs])
    have hvalue : ∀ c ∈ header.value, c ≠ '\n' ∧ c ≠ '\r' := by
      intro c hc
      obtain ⟨line, hl, hc⟩ := header.mem_of_mem_value hc
      have hline := (hsection.header header (by simp)).plain line hl
      exact ⟨ne_of_mem_of_not_mem hc hline.feed_notMem,
        ne_of_mem_of_not_mem hc hline.return_notMem⟩
    have hnew := wellFormed_mainClassHeader
      (fun hm => (hvalue _ (hblank _ hm (by decide))).1 rfl)
      (fun hm => (hvalue _ (hblank _ hm (by decide))).2 rfl)
    refine ⟨_, ⟨isMainClass_mainClassHeader, value_mainClassHeader hhead hlast,
      fun line hl => lines_mainClassHeader hl⟩, ?_⟩
    have hall : ∀ headers ∈ (before ++ mainClassHeader (newMainClass set header) :: after) :: rest,
        Section.WellFormed headers := by
      intro headers hh
      obtain rfl | hh := List.mem_cons.1 hh
      · exact wellFormed_replace hsection hnew isContinuation_mainClassHeader
      · exact wellFormed_sectionsOf paired (by simp [hs, hh])
    rw [renameMainClass_of_some hs hrename]
    exact sectionsOf_render (endsLines_lineEnd text) hall

/-- A manifest with two sections, in whose second one a header of this name does not count. -/
def mainClassSample : List Char :=
  "Main-Class: lib\r\nMain-Class: x\r\n\r\nName: a\r\nMain-Class: lib\r\n".toList

theorem renameMainClass_exact_sample :
    PairedReturns mainClassSample ∧ MappingSet.packageSet.NoBlanks ∧
      ∃ new, new.value = "core".toList ∧
        sectionsOf (renameMainClass MappingSet.packageSet mainClassSample) =
          [[new, ⟨"Main-Class: x".toList, []⟩],
            [⟨"Name: a".toList, []⟩, ⟨"Main-Class: lib".toList, []⟩]] := by
  have hpaired : PairedReturns mainClassSample := by unfold PairedReturns; decide +kernel
  have hentry : MappingSet.packageSet.class? "lib" = some ⟨"core", by decide +kernel⟩ := by
    simp [MappingSet.class?_packageSet]
  have hmap : MappingSet.packageSet.mapClass "lib" = "core" := MappingSet.mapClass_of_class? hentry
  obtain ⟨-, hsome⟩ := renameMainClass_exact hpaired MappingSet.noBlanks_packageSet
  obtain ⟨-, hrename⟩ := hsome [] ⟨"Main-Class: lib".toList, []⟩ [⟨"Main-Class: x".toList, []⟩]
    [[⟨"Name: a".toList, []⟩, ⟨"Main-Class: lib".toList, []⟩]] (by decide +kernel) (by simp)
    (by decide +kernel)
  have hname : Header.className ⟨"Main-Class: lib".toList, []⟩ = "lib" := by decide +kernel
  rw [hname, hmap] at hrename
  obtain ⟨new, hnew, hsections⟩ := hrename (by decide)
  refine ⟨hpaired, MappingSet.noBlanks_packageSet, new, ?_, hsections⟩
  rw [hnew.value, newMainClass, hname, hmap]
  decide +kernel

end Manifest

end Jar

end JarRename
