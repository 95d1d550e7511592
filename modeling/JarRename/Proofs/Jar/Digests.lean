import Mathlib
import JarRename.Proofs.Jar.Sections

/-!
# The digests of a manifest

Digests are taken out of all sections but the first, each with the lines that continue it. A section
that loses one goes with them if it has only names left. What stays is read again as it was, and
holds no digest that could be taken out of it.
-/
namespace JarRename

open Text

namespace Text

variable {cs : List Char}

theorem isSome_dropPrefix?_iff {head : List Char} :
    (dropPrefix? head cs).isSome = true ↔ head <+: cs := by
  simp only [Option.isSome_iff_exists, dropPrefix?_eq_some_iff]
  exact exists_congr fun rest => eq_comm

theorem isSome_dropSuffix?_iff {tail : List Char} :
    (dropSuffix? tail cs).isSome = true ↔ tail <:+ cs := by
  simp only [Option.isSome_iff_exists, dropSuffix?_eq_some_iff]
  exact exists_congr fun rest => eq_comm

theorem hasPart_iff {part : List Char} : hasPart part cs = true ↔ part <:+: cs := by
  induction cs with
  | nil => simp [hasPart]
  | cons c cs ih =>
    rw [hasPart, Bool.or_eq_true, isSome_dropPrefix?_iff, ih, List.infix_cons_iff]

end Text

namespace Jar

/-- The name of a header is `…-Digest` or `…-Digest-Manifest…`, with letters of either case. -/
def Header.IsDigest (header : Header) : Prop :=
  "-digest".toList <:+ lower header.name ∨ "-digest-manifest".toList <:+: lower header.name

instance : DecidablePred Header.IsDigest := fun header =>
  inferInstanceAs (Decidable (_ <:+ lower header.name ∨ _ <:+: lower header.name))

theorem Header.isDigest_iff {header : Header} : header.isDigest = true ↔ header.IsDigest := by
  simp only [isDigest, Bool.or_eq_true, isSome_dropSuffix?_iff, hasPart_iff, IsDigest]

namespace Section

variable {headers : Section}

def HasDigest (headers : Section) : Prop := ∃ header ∈ headers, header.IsDigest

/-- The headers of a section that are no digests, each with all its lines. -/
def undigested (headers : Section) : Section := headers.filter fun header => ¬header.IsDigest

/-- A section loses a digest and has only names left. -/
def Emptied (headers : Section) : Prop :=
  headers.HasDigest ∧ ∀ header ∈ headers.undigested, header.isName = true

instance : DecidablePred HasDigest := fun headers =>
  inferInstanceAs (Decidable (∃ header ∈ headers, header.IsDigest))

instance : DecidablePred Emptied := fun headers =>
  inferInstanceAs (Decidable (headers.HasDigest ∧ ∀ header ∈ headers.undigested, _))

theorem any_isDigest_iff : headers.any Header.isDigest = true ↔ headers.HasDigest := by
  simp only [List.any_eq_true, Header.isDigest_iff, HasDigest]

theorem filter_isDigest (headers : Section) :
    headers.filter (!·.isDigest) = headers.undigested := by
  refine List.filter_congr fun header _ => ?_
  rw [decide_not, ← Bool.eq_iff_iff.2 (Header.isDigest_iff.trans decide_eq_true_iff.symm)]

theorem length_undigested_iff :
    headers.undigested.length = headers.length ↔ ¬headers.HasDigest := by
  simp [undigested, List.length_filter_eq_length_iff, HasDigest]

theorem not_hasDigest_undigested (headers : Section) : ¬headers.undigested.HasDigest := by
  rintro ⟨header, hm, hd⟩
  simpa [hd] using (List.mem_filter.1 hm).2

theorem undigested_ne_nil (hne : headers ≠ []) (h : ¬headers.Emptied) :
    headers.undigested ≠ [] := by
  intro hnil
  obtain ⟨header, hm⟩ := List.exists_mem_of_ne_nil headers hne
  have hdigest : header.IsDigest := by simpa using List.filter_eq_nil_iff.1 hnil header hm
  exact h ⟨⟨header, hm, hdigest⟩, by simp [hnil]⟩

/-- Only the first header may begin as a continuation does, and it stays the first or is gone. -/
theorem WellFormed.undigested (h : headers.WellFormed) (hne : headers.undigested ≠ []) :
    headers.undigested.WellFormed where
  nonempty := hne
  header := fun header hm => h.header header (List.mem_of_mem_filter hm)
  begun := fun header hm => h.begun header (List.filter_sublist.tail.subset hm)

end Section

namespace Manifest

variable {text : List Char} {main : Section} {rest : List Section}

theorem stripSection_eq (headers : Section) :
    stripSection headers = if headers.Emptied then none else some headers.undigested := by
  have hstays : headers.undigested.length = headers.length ∨
      headers.undigested.any (!·.isName) = true ↔ ¬headers.Emptied := by
    rw [Section.length_undigested_iff, List.any_eq_true, Section.Emptied, not_and_or]
    simp
  rw [stripSection, Section.filter_isDigest]
  simp only [hstays, ite_not]

theorem filterMap_stripSection (sections : List Section) :
    sections.filterMap stripSection =
      (sections.filter fun headers => ¬headers.Emptied).map Section.undigested := by
  induction sections with
  | nil => rfl
  | cons headers sections ih =>
    by_cases h : headers.Emptied
    · have hgone : stripSection headers = none := by rw [stripSection_eq, if_pos h]
      rw [List.filterMap_cons_none hgone, List.filter_cons_of_neg (by simpa using h), ih]
    · have hstays : stripSection headers = some headers.undigested := by
        rw [stripSection_eq, if_neg h]
      rw [List.filterMap_cons_some hstays, List.filter_cons_of_pos (by simpa using h),
        List.map_cons, ih]

theorem stripDigests_of_none (h : ∀ headers ∈ (sectionsOf text).tail, ¬headers.HasDigest) :
    stripDigests text = text := by
  cases hs : sectionsOf text with
  | nil => simp only [stripDigests, hs]
  | cons main rest =>
    rw [hs, List.tail_cons] at h
    have hnone : rest.any (fun headers => headers.any Header.isDigest) = false := by
      simpa only [List.any_eq_false, Section.any_isDigest_iff] using h
    simp only [stripDigests, hs, hnone, Bool.false_eq_true, if_false]

theorem stripDigests_of_some (hs : sectionsOf text = main :: rest)
    (h : ∃ headers ∈ rest, headers.HasDigest) :
    stripDigests text = render (lineEnd text)
      (main :: (rest.filter fun headers => ¬headers.Emptied).map Section.undigested) := by
  obtain ⟨headers, hm, hd⟩ := h
  have hsome : rest.any (fun headers => headers.any Header.isDigest) = true :=
    List.any_eq_true.2 ⟨headers, hm, Section.any_isDigest_iff.2 hd⟩
  simp only [stripDigests, hs, hsome, if_true, filterMap_stripSection]

/-- What is left after the digests is read again as it was. -/
theorem sectionsOf_stripDigests (paired : PairedReturns text) (hs : sectionsOf text = main :: rest)
    (h : ∃ headers ∈ rest, headers.HasDigest) :
    sectionsOf (stripDigests text) =
      main :: (rest.filter fun headers => ¬headers.Emptied).map Section.undigested := by
  have hwell : ∀ headers ∈ main :: rest, headers.WellFormed :=
    fun headers hh => wellFormed_sectionsOf paired (by rwa [hs])
  rw [stripDigests_of_some hs h]
  refine sectionsOf_render (endsLines_lineEnd text) fun headers hh => ?_
  obtain rfl | hh := List.mem_cons.1 hh
  · exact hwell headers List.mem_cons_self
  · obtain ⟨old, ho, rfl⟩ := List.mem_map.1 hh
    obtain ⟨ho, hkept⟩ := List.mem_filter.1 ho
    have hold := hwell old (List.mem_cons_of_mem _ ho)
    exact hold.undigested (Section.undigested_ne_nil hold.nonempty (by simpa using hkept))

/-- A text without digests behind its first section is kept. Otherwise exactly the digests go, with
the sections that have only names left then. A second time nothing changes. -/
theorem stripDigests_exact (paired : PairedReturns text) :
    ((∀ headers ∈ (sectionsOf text).tail, ¬headers.HasDigest) → stripDigests text = text) ∧
    (∀ main rest, sectionsOf text = main :: rest → (∃ headers ∈ rest, headers.HasDigest) →
      sectionsOf (stripDigests text) =
        main :: (rest.filter fun headers => ¬headers.Emptied).map Section.undigested) ∧
    stripDigests (stripDigests text) = stripDigests text := by
  refine ⟨stripDigests_of_none, fun main rest hs h => sectionsOf_stripDigests paired hs h, ?_⟩
  by_cases h : ∀ headers ∈ (sectionsOf text).tail, ¬headers.HasDigest
  · rw [stripDigests_of_none h, stripDigests_of_none h]
  · push Not at h
    obtain ⟨main, rest, hs⟩ : ∃ main rest, sectionsOf text = main :: rest := by
      refine List.exists_cons_of_ne_nil fun hnil => ?_
      simp [hnil] at h
    rw [hs, List.tail_cons] at h
    refine stripDigests_of_none fun headers hh => ?_
    rw [sectionsOf_stripDigests paired hs h, List.tail_cons] at hh
    obtain ⟨old, -, rfl⟩ := List.mem_map.1 hh
    exact old.not_hasDigest_undigested

/-- A manifest in which the digest of the first section stays. The second section is emptied, the
third one has only a name from the beginning. -/
def digestSample : List Char :=
  "V: 1\nA-Digest: m\r\n\r\nName: a\r\nA-DIGEST: x\r\n y\r\n\r\nName: b\r\n\r\n\r\n".toList ++
    "Name: c\r\nX: 1\r\n 2\r\nA-Digest-Manifest-Z: q\r\n".toList

theorem stripDigests_exact_sample :
    PairedReturns digestSample ∧
      sectionsOf (stripDigests digestSample) =
        [[⟨"V: 1".toList, []⟩, ⟨"A-Digest: m".toList, []⟩], [⟨"Name: b".toList, []⟩],
          [⟨"Name: c".toList, []⟩, ⟨"X: 1".toList, [" 2".toList]⟩]] := by
  have hpaired : PairedReturns digestSample := by unfold PairedReturns; decide +kernel
  obtain ⟨-, hstrip, -⟩ := stripDigests_exact hpaired
  refine ⟨hpaired, (hstrip [⟨"V: 1".toList, []⟩, ⟨"A-Digest: m".toList, []⟩]
    [[⟨"Name: a".toList, []⟩, ⟨"A-DIGEST: x".toList, [" y".toList]⟩], [⟨"Name: b".toList, []⟩],
      [⟨"Name: c".toList, []⟩, ⟨"X: 1".toList, [" 2".toList]⟩,
        ⟨"A-Digest-Manifest-Z: q".toList, []⟩]]
    (by decide +kernel) (by decide +kernel)).trans (by decide +kernel)⟩

end Manifest

end Jar

end JarRename
