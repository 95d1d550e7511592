import Mathlib
import JarRename.Jar.Services
import JarRename.Proofs.Jar.SourceName

/-!
# The providers of a service file

Every line of a service file is a provider with blanks around it and a comment. Renaming changes the
provider alone, so the lines that come out are cut at the same places, and end as they did.
-/
namespace JarRename.Jar.Services

open Text

/-- A provider with the blanks around it, and the comment behind it. -/
structure ServiceLine where
  lead : List Char
  provider : List Char
  trail : List Char
  comment : List Char

namespace ServiceLine

def text (parts : ServiceLine) : List Char :=
  parts.lead ++ parts.provider ++ parts.trail ++ parts.comment

/-- A line is made of these parts: the comment begins at the first `#`, and the provider is what
stands before it, less the blanks at both ends. -/
structure Of (parts : ServiceLine) (line : List Char) : Prop where
  text_eq : parts.text = line
  provider_eq : parts.provider = trim (line.takeWhile (· != '#'))
  comment_eq : parts.comment = line.dropWhile (· != '#')
  lead_blank : ∀ c ∈ parts.lead, isBlank c = true
  trail_blank : ∀ c ∈ parts.trail, isBlank c = true

end ServiceLine

/-- The new name of a provider, with points, or the provider as it is written if the mappings leave
its class alone. -/
def newProvider (set : MappingSet) (provider : List Char) : List Char :=
  if set.mapClass (slashed provider) = slashed provider then provider
  else set.newSourceName provider

namespace ServiceLine

def rename (set : MappingSet) (parts : ServiceLine) : ServiceLine :=
  { parts with provider := newProvider set parts.provider }

variable {parts : ServiceLine} {line : List Char}

/-- Every line can be cut into its parts. -/
theorem exists_of (line : List Char) : ∃ parts : ServiceLine, parts.Of line := by
  obtain ⟨lead, trail, hcode, hl, ht⟩ := exists_trim (line.takeWhile (· != '#'))
  have hline : lead ++ trim (line.takeWhile (· != '#')) ++ trail ++ line.dropWhile (· != '#') =
      line := by
    rw [← hcode]
    exact List.takeWhile_append_dropWhile
  exact ⟨⟨lead, _, trail, _⟩, hline, rfl, rfl, hl, ht⟩

/-- The text before the comment holds no `#`. -/
theorem hash_notMem_code (hl : ∀ c ∈ parts.lead, isBlank c = true) (hp : '#' ∉ parts.provider)
    (ht : ∀ c ∈ parts.trail, isBlank c = true) :
    '#' ∉ parts.lead ++ parts.provider ++ parts.trail := by
  have hash : isBlank '#' = false := rfl
  simp [notMem_blanks hash hl, hp, notMem_blanks hash ht]

/-- Parts that look like a provider with blanks and a comment are read again. -/
theorem of_text (hl : ∀ c ∈ parts.lead, isBlank c = true)
    (ht : ∀ c ∈ parts.trail, isBlank c = true) (hp : '#' ∉ parts.provider)
    (htrim : trim parts.provider = parts.provider)
    (hc : ∀ c, parts.comment.head? = some c → c = '#') : parts.Of parts.text := by
  have hcode := bne_of_notMem (hash_notMem_code hl hp ht)
  have hcomment : parts.comment.takeWhile (· != '#') = [] ∧
      parts.comment.dropWhile (· != '#') = parts.comment := by
    cases hparts : parts.comment with
    | nil => exact ⟨rfl, rfl⟩
    | cons c rest =>
      obtain rfl := hc c (by rw [hparts]; rfl)
      exact ⟨rfl, rfl⟩
  refine ⟨rfl, ?_, ?_, hl, ht⟩
  · rw [text, List.takeWhile_append_of_pos hcode, hcomment.1, List.append_nil,
      trim_surrounded hl ht, htrim]
  · rw [text, List.dropWhile_append_of_pos hcode, hcomment.2]

namespace Of

variable (h : parts.Of line)
include h

theorem code_eq : line.takeWhile (· != '#') = parts.lead ++ parts.provider ++ parts.trail := by
  have hline : line.takeWhile (· != '#') ++ line.dropWhile (· != '#') = parts.text :=
    List.takeWhile_append_dropWhile.trans h.text_eq.symm
  rw [text, h.comment_eq] at hline
  exact List.append_cancel_right hline

theorem hash_notMem_provider : '#' ∉ parts.provider := by
  intro hm
  have hcode : '#' ∈ line.takeWhile (· != '#') := by
    rw [h.code_eq]
    simp [hm]
  simpa using List.mem_takeWhile_imp hcode

theorem head_provider {c : Char} (hc : parts.provider.head? = some c) : isBlank c = false :=
  not_blank_of_head?_trim (h.provider_eq ▸ hc)

theorem getLast_provider {c : Char} (hc : parts.provider.getLast? = some c) : isBlank c = false :=
  not_blank_of_getLast?_trim (h.provider_eq ▸ hc)

theorem head_comment {c : Char} (hc : parts.comment.head? = some c) : c = '#' := by
  rw [h.comment_eq] at hc
  have hnot := List.head?_dropWhile_not (· != '#') line
  rw [hc] at hnot
  simpa using hnot

/-- The blanks in front of a provider are those at the beginning of the line. -/
theorem takeWhile_code (hne : parts.provider ≠ []) :
    (line.takeWhile (· != '#')).takeWhile isBlank = parts.lead := by
  obtain ⟨c, rest, hp⟩ := List.exists_cons_of_ne_nil hne
  have hc : isBlank c = false := h.head_provider (by rw [hp]; rfl)
  rw [h.code_eq, List.append_assoc, List.takeWhile_append_of_pos h.lead_blank, hp,
    List.cons_append, List.takeWhile_cons_of_neg (by simp [hc]), List.append_nil]

theorem takeWhile_reverse_code (hne : parts.provider ≠ []) :
    ((line.takeWhile (· != '#')).reverse.takeWhile isBlank).reverse = parts.trail := by
  obtain ⟨init, c, hp⟩ := (List.eq_nil_or_concat' parts.provider).resolve_left hne
  have hc : isBlank c = false := h.getLast_provider (by rw [hp]; simp)
  have htrail : ∀ c ∈ parts.trail.reverse, isBlank c = true :=
    fun c hm => h.trail_blank c (List.mem_reverse.1 hm)
  have hreverse : (parts.lead ++ parts.provider).reverse =
      c :: (init.reverse ++ parts.lead.reverse) := by
    simp [hp]
  rw [h.code_eq, List.reverse_append, List.takeWhile_append_of_pos htrail, hreverse,
    List.takeWhile_cons_of_neg (by simp [hc]), List.append_nil, List.reverse_reverse]

/-- A line ends with a carriage return behind the provider, or it has no provider. -/
theorem getLast_eq_return_iff :
    line.getLast? = some '\r' ↔
      (parts.trail ++ parts.comment).getLast? = some '\r' ∨
        parts.trail ++ parts.comment = [] ∧ parts.provider = [] ∧
          parts.lead.getLast? = some '\r' := by
  rw [← h.text_eq, text, List.append_assoc]
  cases hrest : parts.trail ++ parts.comment using List.reverseRecOn with
  | append_singleton => simp [← List.append_assoc]
  | nil =>
    cases hp : parts.provider using List.reverseRecOn with
    | nil => simp
    | append_singleton init c =>
      have hc : isBlank c = false := h.getLast_provider (by rw [hp]; simp)
      have hne : c ≠ '\r' := by
        rintro rfl
        cases hc
      simp [← List.append_assoc, hne]

end Of

end ServiceLine

/-- The old and the new text of a line. All parts stay but the provider. -/
structure LineRenamed (set : MappingSet) (old new : List Char) : Prop where
  parts : ∃ parts : ServiceLine, parts.Of old ∧ (parts.rename set).Of new
  returned : new.getLast? = some '\r' ↔ old.getLast? = some '\r'

section Provider

variable {set : MappingSet} {provider : List Char}

theorem newProvider_nil (set : MappingSet) : newProvider set [] = [] := by
  rw [newProvider, if_pos set.mapClass_slashed_nil]

theorem newProvider_eq_nil_iff : newProvider set provider = [] ↔ provider = [] := by
  constructor
  · intro h
    by_contra hne
    unfold newProvider at h
    split at h
    · exact hne h
    · exact MappingSet.newSourceName_ne_nil hne h
  · rintro rfl
    exact newProvider_nil set

theorem notMem_newProvider {c : Char} (avoids : set.Avoids c) (hp : c ≠ '.') (hs : c ≠ '/')
    (h : c ∉ provider) : c ∉ newProvider set provider := by
  unfold newProvider
  split
  · exact h
  · exact avoids.notMem_newSourceName hp hs h

/-- A new provider has no blanks at its ends, if the old one has none. -/
theorem trim_newProvider (plain : set.NoBlanks)
    (head : ∀ c, provider.head? = some c → isBlank c = false)
    (last : ∀ c, provider.getLast? = some c → isBlank c = false) :
    trim (newProvider set provider) = newProvider set provider := by
  unfold newProvider
  split
  · exact trim_eq_self head last
  · rename_i hne
    have hmapped : set.mapSourceName? provider = some (set.newSourceName provider) := by
      rw [MappingSet.mapSourceName?_eq, if_neg hne]
    obtain ⟨hhead, hlast, -⟩ := plain.mapSourceName? hmapped last
    exact trim_eq_self hhead hlast

end Provider

section Lines

variable {set : MappingSet} {parts : ServiceLine} {line : List Char}

theorem rename_eq_self (hname : set.mapClass (slashed parts.provider) = slashed parts.provider) :
    parts.rename set = parts := by
  rw [ServiceLine.rename, newProvider, if_pos hname]

/-- The line that comes out has the new provider between the old parts. -/
theorem renameLine_eq (set : MappingSet) (h : parts.Of line) :
    renameLine set line = (parts.rename set).text := by
  have hmapped := MappingSet.mapSourceName?_eq set parts.provider
  by_cases hname : set.mapClass (slashed parts.provider) = slashed parts.provider
  · rw [if_pos hname, h.provider_eq] at hmapped
    rw [renameLine, hmapped, rename_eq_self hname, h.text_eq]
  · have hfull : parts.provider ≠ [] := by
      intro hnil
      rw [hnil] at hname
      exact hname set.mapClass_slashed_nil
    rw [if_neg hname] at hmapped
    rw [renameLine, ← h.provider_eq, hmapped, ServiceLine.text, ServiceLine.rename, newProvider,
      if_neg hname]
    simp only [h.takeWhile_code hfull, h.takeWhile_reverse_code hfull, h.comment_eq]

/-- The parts that stay and the new provider leave one text for the new line. -/
theorem LineRenamed.eq_renameLine {old new : List Char} (h : LineRenamed set old new) :
    new = renameLine set old := by
  obtain ⟨parts, hold, hnew⟩ := h.parts
  rw [renameLine_eq set hold, hnew.text_eq]

theorem lineRenamed_renameLine (plain : set.NoBlanks) (unmarked : set.Avoids '#')
    (line : List Char) : LineRenamed set line (renameLine set line) := by
  obtain ⟨parts, h⟩ := ServiceLine.exists_of line
  have hnew : (parts.rename set).Of (renameLine set line) := by
    rw [renameLine_eq set h]
    exact ServiceLine.of_text h.lead_blank h.trail_blank
      (notMem_newProvider unmarked (by decide) (by decide) h.hash_notMem_provider)
      (trim_newProvider plain (fun _ => h.head_provider) fun _ => h.getLast_provider)
      fun _ => h.head_comment
  refine ⟨⟨parts, h, hnew⟩, ?_⟩
  rw [hnew.getLast_eq_return_iff, h.getLast_eq_return_iff]
  simp only [ServiceLine.rename, newProvider_eq_nil_iff]

/-- No line is cut in two. -/
theorem feed_notMem_renameLine (plain : set.NoBlanks) (hf : '\n' ∉ line) :
    '\n' ∉ renameLine set line := by
  have avoids : set.Avoids '\n' := plain.avoids rfl
  obtain ⟨parts, h⟩ := ServiceLine.exists_of line
  have hparts : '\n' ∉ parts.text := h.text_eq ▸ hf
  simp only [ServiceLine.text, List.mem_append, not_or] at hparts
  obtain ⟨⟨⟨hl, hp⟩, ht⟩, hc⟩ := hparts
  have hnew := notMem_newProvider avoids (by decide) (by decide) hp
  rw [renameLine_eq set h]
  simp [ServiceLine.text, ServiceLine.rename, hl, hnew, ht, hc]

theorem splitOn_renameProviders (plain : set.NoBlanks) (text : List Char) :
    splitOn '\n' (renameProviders set text) = (splitOn '\n' text).map (renameLine set) := by
  have hpieces : ∀ piece ∈ (splitOn '\n' text).map (renameLine set), '\n' ∉ piece := by
    intro piece hp
    obtain ⟨line, hl, rfl⟩ := List.mem_map.1 hp
    exact feed_notMem_renameLine plain (notMem_of_mem_splitOn hl)
  have hne : (splitOn '\n' text).map (renameLine set) ≠ [] :=
    fun hnil => splitWhere_ne_nil (· == '\n') text (List.map_eq_nil_iff.1 hnil)
  exact splitOn_intercalate hpieces hne

end Lines

variable {set : MappingSet}

/-- Every line keeps its blanks, its comment and its end, and has its provider renamed. A text in
which no provider is renamed is kept. -/
theorem renameProviders_exact (plain : set.NoBlanks) (unmarked : set.Avoids '#')
    (text : List Char) :
    List.Forall₂ (LineRenamed set) (splitOn '\n' text) (splitOn '\n' (renameProviders set text)) ∧
    ((∀ line ∈ splitOn '\n' text, ∀ parts : ServiceLine, parts.Of line →
      set.mapClass (slashed parts.provider) = slashed parts.provider) →
        renameProviders set text = text) := by
  constructor
  · rw [splitOn_renameProviders plain, List.forall₂_map_right_iff, List.forall₂_same]
    exact fun line _ => lineRenamed_renameLine plain unmarked line
  · intro hkept
    have hlines : ∀ line ∈ splitOn '\n' text, renameLine set line = line := by
      intro line hl
      obtain ⟨parts, h⟩ := ServiceLine.exists_of line
      rw [renameLine_eq set h, rename_eq_self (hkept line hl parts h), h.text_eq]
    rw [renameProviders, List.map_congr_left hlines, List.map_id', intercalate_splitOn]

theorem mapSourceName?_packageSet_lib :
    MappingSet.packageSet.mapSourceName? "lib".toList = some "core".toList := by
  have hname : slashed "lib".toList = "lib" := by decide +kernel
  have hentry : MappingSet.packageSet.class? "lib" = some ⟨"core", by decide +kernel⟩ := by
    simp [MappingSet.class?_packageSet]
  rw [MappingSet.mapSourceName?_eq, MappingSet.newSourceName, hname,
    MappingSet.mapClass_of_class? hentry, if_neg (by decide)]
  decide +kernel

theorem renameProviders_exact_sample :
    MappingSet.packageSet.NoBlanks ∧ MappingSet.packageSet.Avoids '#' ∧
      renameProviders MappingSet.packageSet "\tlib # lib\r\n# lib".toList =
        "\tcore # lib\r\n# lib".toList ∧
      renameProviders MappingSet.packageSet "# lib".toList = "# lib".toList := by
  have hplain := MappingSet.noBlanks_packageSet
  have hunmarked := MappingSet.avoids_packageSet
  obtain ⟨hlines, -⟩ :=
    renameProviders_exact hplain hunmarked "\tlib # lib\r\n# lib".toList
  have hsplit : splitOn '\n' "\tlib # lib\r\n# lib".toList =
      ["\tlib # lib\r".toList, "# lib".toList] := by decide +kernel
  rw [hsplit] at hlines
  obtain ⟨first, _, hfirst, hrest, hout⟩ := List.forall₂_cons_left_iff.1 hlines
  obtain ⟨second, _, hsecond, hend, rfl⟩ := List.forall₂_cons_left_iff.1 hrest
  obtain rfl := List.forall₂_nil_left_iff.1 hend
  have hcore : first = "\tcore # lib\r".toList := by
    have htrim : trim ("\tlib # lib\r".toList.takeWhile (· != '#')) = "lib".toList := by
      decide +kernel
    rw [hfirst.eq_renameLine, renameLine, htrim, mapSourceName?_packageSet_lib]
    decide +kernel
  have hcomment : second = "# lib".toList := by
    have htrim : trim ("# lib".toList.takeWhile (· != '#')) = [] := by decide +kernel
    rw [hsecond.eq_renameLine, renameLine, htrim, MappingSet.mapSourceName?_eq,
      if_pos (MappingSet.mapClass_slashed_nil _)]
  have hjoin := intercalate_splitOn '\n'
    (renameProviders MappingSet.packageSet "\tlib # lib\r\n# lib".toList)
  rw [hout, hcore, hcomment] at hjoin
  refine ⟨hplain, hunmarked, hjoin.symm, ?_⟩
  obtain ⟨-, hkept⟩ := renameProviders_exact hplain hunmarked "# lib".toList
  refine hkept fun line hl parts hparts => ?_
  have hone : splitOn '\n' "# lib".toList = ["# lib".toList] := by decide +kernel
  rw [hone, List.mem_singleton] at hl
  subst hl
  have hnone : parts.provider = [] := hparts.provider_eq.trans (by decide +kernel)
  rw [hnone, MappingSet.mapClass_slashed_nil]

end JarRename.Jar.Services
