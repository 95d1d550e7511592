import Mathlib
import JarRename.Descriptor.SourceType
import JarRename.Proofs.Mapping.Descriptors

/-!
# Types as source code writes them are read back

A type is written as a keyword or a class with points, and one `[]` for each dimension, with any
blanks around it and before each `[]`. The parameters of a method stand between commas. What is
written so is read as the type it was written for.
-/
namespace JarRename

open Text

variable {α : Type}

namespace FieldType

/-- The number of array dimensions. -/
def dims : FieldType α → Nat
  | base _ => 0
  | ref (.object dims _) => dims
  | ref (.primitiveArray extra _) => extra + 1

/-- The type less its array dimensions. -/
def element : FieldType α → FieldType α
  | base type => base type
  | ref (.object _ name) => object name
  | ref (.primitiveArray _ type) => base type

/-- A type without dimensions as source code writes it. -/
def elementSource : FieldType BinaryName → List Char
  | base type => type.keyword.toList
  | ref (.object _ name) => exchange '/' '.' name.spell
  | ref (.primitiveArray _ type) => type.keyword.toList

/-- A type as source code writes it, with a gap before each `[]`. -/
def source (type : FieldType BinaryName) (gaps : List (List Char)) : List Char :=
  type.elementSource ++ gaps.flatMap (· ++ ['[', ']'])

theorem arrays_object (name : α) (dims : Nat) :
    (object name).arrays dims = ref (.object dims name) := by
  induction dims with
  | zero => rfl
  | succ dims ih => exact congrArg array ih

theorem arrays_base (type : BaseType) (extra : Nat) :
    (base type : FieldType α).arrays (extra + 1) = ref (.primitiveArray extra type) := by
  induction extra with
  | zero => rfl
  | succ extra ih => exact congrArg array ih

theorem arrays_element (type : FieldType α) : type.element.arrays type.dims = type := by
  rcases type with type | ⟨dims, name⟩ | ⟨extra, type⟩
  · rfl
  · exact arrays_object name dims
  · exact arrays_base type extra

end FieldType

/-- A class whose name source code can write for itself: it is no keyword of a type, and no blank
or comma divides it. -/
structure BinaryName.IsSourceName (name : BinaryName) : Prop where
  not_keyword : ∀ type : BaseType, name.text ≠ type.keyword
  not_void : name.text ≠ "void"
  no_blank : ∀ c ∈ name.text.toList, isBlank c = false
  no_comma : ',' ∉ name.text.toList

/-- A type as it is written in source code: blanks stand around it and before each `[]`. -/
structure SourceType where
  type : FieldType BinaryName
  before : List Char
  gaps : List (List Char)
  after : List Char
  length_gaps : gaps.length = type.dims
  before_blank : ∀ c ∈ before, isBlank c = true
  gaps_blank : ∀ gap ∈ gaps, ∀ c ∈ gap, isBlank c = true
  after_blank : ∀ c ∈ after, isBlank c = true

/-- The result of a method as it is written in source code. -/
inductive SourceResult where
  | void (before after : List Char) (before_blank : ∀ c ∈ before, isBlank c = true)
      (after_blank : ∀ c ∈ after, isBlank c = true)
  | type (source : SourceType)

namespace SourceType

def text (source : SourceType) : List Char :=
  source.before ++ source.type.source source.gaps ++ source.after

def IsPlain (source : SourceType) : Prop := ∀ name ∈ source.type.classes, name.IsSourceName

/-- Parameters with commas between them. The blanks behind the last one may also stand alone. -/
def parametersText (sources : List SourceType) (blanks : List Char) : List Char :=
  [','].intercalate (sources.map text) ++ blanks

end SourceType

namespace SourceResult

def text : SourceResult → List Char
  | void before after _ _ => before ++ "void".toList ++ after
  | type source => source.text

def type? : SourceResult → Option (FieldType BinaryName)
  | void _ _ _ _ => none
  | type source => some source.type

def IsPlain : SourceResult → Prop
  | void _ _ _ _ => True
  | type source => source.IsPlain

end SourceResult

/-! ### The element type -/

/-- What is written for a type without dimensions. No part of it is taken for a dimension, for the
end of a parameter or for a blank around it. -/
structure IsElement (cs : List Char) : Prop where
  nonempty : cs ≠ []
  no_blank : ∀ c ∈ cs, isBlank c = false
  no_bracket : '[' ∉ cs
  no_comma : ',' ∉ cs
  not_void : cs ≠ "void".toList

theorem BaseType.isElement_keyword (type : BaseType) : IsElement type.keyword.toList := by
  have hblank : ∀ type : BaseType, (type.keyword.toList.all fun c => !isBlank c) = true := by
    intro type
    cases type <;> decide +kernel
  refine ⟨?_, fun c hc => by simpa using List.all_eq_true.1 (hblank type) c hc, ?_, ?_, ?_⟩ <;>
    cases type <;> decide +kernel

theorem BaseType.ofKeyword?_keyword (type : BaseType) :
    BaseType.ofKeyword? type.keyword.toList = some type := by
  cases type <;> decide +kernel

/-- Points only come from slashes, so the name with slashes again is the old one. -/
theorem BinaryName.exchange_spell (name : BinaryName) :
    exchange '.' '/' (exchange '/' '.' name.spell) = name.spell :=
  exchange_exchange (Name.notMem_of_isMark name.valid rfl (by decide))

theorem BinaryName.isElement_source {name : BinaryName} (h : name.IsSourceName) :
    IsElement (exchange '/' '.' name.spell) where
  nonempty := by
    rw [exchange, ne_eq, List.map_eq_nil_iff]
    exact (Name.binaryError?_eq_none_iff.1 name.valid).1
  no_blank := fun c hc => by
    obtain ⟨d, hd, rfl⟩ := List.mem_map.1 hc
    rw [isBlank_exchange (by decide), h.no_blank d hd]
  no_bracket := fun hm =>
    Name.notMem_of_isMark name.valid rfl (by decide) (mem_of_mem_exchange hm (by decide))
  no_comma := fun hm => h.no_comma (mem_of_mem_exchange hm (by decide))
  not_void := fun heq => by
    have hname := name.exchange_spell
    rw [heq, show exchange '.' '/' "void".toList = "void".toList by decide +kernel] at hname
    exact h.not_void (String.ext hname.symm)

/-- A class that is no keyword is not read as one, as no keyword has points. -/
theorem BinaryName.ofKeyword?_source {name : BinaryName} (h : name.IsSourceName) :
    BaseType.ofKeyword? (exchange '/' '.' name.spell) = none := by
  refine List.find?_eq_none.2 fun type _ heq => ?_
  have hplain : exchange '.' '/' type.keyword.toList = type.keyword.toList := by
    cases type <;> decide +kernel
  have hname := name.exchange_spell
  rw [← eq_of_beq heq, hplain] at hname
  exact h.not_keyword type (String.ext hname.symm)

namespace FieldType

variable {type : FieldType BinaryName}

theorem isElement_elementSource (h : ∀ name ∈ type.classes, name.IsSourceName) :
    IsElement type.elementSource := by
  rcases type with type | ⟨dims, name⟩ | ⟨extra, type⟩
  · exact type.isElement_keyword
  · exact BinaryName.isElement_source (h name List.mem_cons_self)
  · exact type.isElement_keyword

/-- The element type is read off its text, and gets the dimensions that were read before. -/
theorem ofSource_of_splitDims {cs : List Char}
    (h : splitDims 0 (trim cs).reverse = (type.elementSource, type.dims))
    (hplain : ∀ name ∈ type.classes, name.IsSourceName) : ofSource cs = .ok type := by
  have hall := arrays_element type
  rw [ofSource, h]
  rcases type with type | ⟨dims, name⟩ | ⟨extra, type⟩
  · simp only [elementSource, BaseType.ofKeyword?_keyword]
    exact congrArg Except.ok hall
  · have hname : BinaryName.ofString (String.ofList (exchange '.' '/'
        (exchange '/' '.' name.spell))) = .ok name := by
      rw [name.exchange_spell, BinaryName.spell, String.ofList_toList, BinaryName.ofString_text]
    simp only [elementSource, BinaryName.ofKeyword?_source (hplain name List.mem_cons_self), hname]
    exact congrArg Except.ok hall
  · simp only [elementSource, BaseType.ofKeyword?_keyword]
    exact congrArg Except.ok hall

end FieldType

/-! ### The dimensions -/

section Dimensions

variable {element : List Char} {gaps : List (List Char)}

theorem IsElement.head (h : IsElement element) (tail : List Char) {c : Char}
    (hc : (element ++ tail).head? = some c) : isBlank c = false := by
  obtain ⟨d, rest, rfl⟩ := List.exists_cons_of_ne_nil h.nonempty
  obtain rfl : d = c := by simpa using hc
  exact h.no_blank d List.mem_cons_self

/-- A type ends with its element or with a bracket. -/
theorem IsElement.getLast (h : IsElement element) {c : Char}
    (hc : (element ++ gaps.flatMap (· ++ ['[', ']'])).getLast? = some c) : isBlank c = false := by
  cases gaps using List.reverseRecOn with
  | nil =>
    rw [List.flatMap_nil, List.append_nil] at hc
    exact h.no_blank c (List.mem_of_getLast? hc)
  | append_singleton gaps gap =>
    obtain rfl : ']' = c := by simpa [List.getLast?_append] using hc
    decide

/-- Without brackets no dimension is taken off. -/
theorem IsElement.splitDims (h : IsElement element) (dims : Nat) :
    FieldType.splitDims dims element.reverse = (element, dims) := by
  rw [FieldType.splitDims.eq_def]
  split
  · rename_i before heq
    have hbracket : '[' ∈ element.reverse := by simp [heq]
    exact absurd (List.mem_reverse.1 hbracket) h.no_bracket
  · rw [List.reverse_reverse]

/-- The dimensions are taken off the end one by one, each with the gap before it. -/
theorem IsElement.splitDims_append (h : IsElement element)
    (blank : ∀ gap ∈ gaps, ∀ c ∈ gap, isBlank c = true) (dims : Nat) :
    FieldType.splitDims dims (element ++ gaps.flatMap (· ++ ['[', ']'])).reverse =
      (element, dims + gaps.length) := by
  induction gaps using List.reverseRecOn generalizing dims with
  | nil =>
    rw [List.flatMap_nil, List.append_nil]
    exact h.splitDims dims
  | append_singleton gaps gap ih =>
    have hgap : ∀ c ∈ gap.reverse, isBlank c = true :=
      fun c hc => blank gap (by simp) c (List.mem_reverse.1 hc)
    have hreverse : (element ++ (gaps ++ [gap]).flatMap (· ++ ['[', ']'])).reverse =
        ']' :: '[' :: (gap.reverse ++ (element ++ gaps.flatMap (· ++ ['[', ']'])).reverse) := by
      simp
    have hdrop : (element ++ gaps.flatMap (· ++ ['[', ']'])).reverse.dropWhile isBlank =
        (element ++ gaps.flatMap (· ++ ['[', ']'])).reverse :=
      trimStart_eq_self fun c hc => h.getLast (by rwa [List.head?_reverse] at hc)
    rw [hreverse, FieldType.splitDims, List.dropWhile_append_of_pos hgap, hdrop,
      ih (fun gap hg => blank gap (by simp [hg])) (dims + 1), List.length_append,
      List.length_singleton, Nat.add_assoc, Nat.add_comm 1]

end Dimensions

/-! ### Types with blanks, and lists of them -/

namespace SourceType

variable {source : SourceType}

theorem IsPlain.isElement (h : source.IsPlain) : IsElement source.type.elementSource :=
  FieldType.isElement_elementSource h

theorem IsPlain.trim_source (h : source.IsPlain) :
    trim (source.type.source source.gaps) = source.type.source source.gaps :=
  trim_eq_self (fun _ => h.isElement.head _) fun _ => h.isElement.getLast

theorem IsPlain.trim_text (h : source.IsPlain) :
    trim source.text = source.type.source source.gaps := by
  rw [text, trim_surrounded source.before_blank source.after_blank, h.trim_source]

theorem IsPlain.ofSource_of_trim (h : source.IsPlain) {cs : List Char}
    (ht : trim cs = source.type.source source.gaps) : FieldType.ofSource cs = .ok source.type := by
  refine FieldType.ofSource_of_splitDims ?_ h
  rw [ht, FieldType.source, h.isElement.splitDims_append source.gaps_blank, Nat.zero_add,
    source.length_gaps]

theorem IsPlain.source_ne_nil (h : source.IsPlain) : source.type.source source.gaps ≠ [] :=
  List.append_ne_nil_of_left_ne_nil h.isElement.nonempty _

theorem IsPlain.source_ne_void (h : source.IsPlain) :
    source.type.source source.gaps ≠ "void".toList := by
  intro hvoid
  cases hg : source.gaps using List.reverseRecOn with
  | nil =>
    rw [hg, FieldType.source, List.flatMap_nil, List.append_nil] at hvoid
    exact h.isElement.not_void hvoid
  | append_singleton gaps gap =>
    have hlast := congrArg List.getLast? hvoid
    rw [hg, FieldType.source] at hlast
    simp [List.getLast?_append] at hlast

/-- A comma only stands between two parameters. -/
theorem IsPlain.comma_notMem_text (h : source.IsPlain) : ',' ∉ source.text := by
  have hcomma : isBlank ',' = false := rfl
  have hgaps : ',' ∉ source.gaps.flatMap (· ++ ['[', ']']) := by
    intro hm
    obtain ⟨gap, hg, hm⟩ := List.mem_flatMap.1 hm
    simp [notMem_blanks hcomma (source.gaps_blank gap hg)] at hm
  simp [text, FieldType.source, h.isElement.no_comma, hgaps,
    notMem_blanks hcomma source.before_blank, notMem_blanks hcomma source.after_blank]

/-- The parameters are what is left between the commas. -/
theorem split_parametersText {sources : List SourceType} {blanks : List Char}
    (h : ∀ source ∈ sources, source.IsPlain) (blank : ∀ c ∈ blanks, isBlank c = true) :
    ((splitOn ',' (parametersText sources blanks)).map trim).filter (!·.isEmpty) =
      sources.map fun source => source.type.source source.gaps := by
  have hblanks : ',' ∉ blanks := notMem_blanks rfl blank
  induction sources with
  | nil =>
    have htext : parametersText [] blanks = blanks := rfl
    rw [htext, splitOn_eq_singleton hblanks, List.map_singleton, trim_blanks blank]
    rfl
  | cons source sources ih =>
    have hsource := h source List.mem_cons_self
    have hfull := hsource.source_ne_nil
    cases sources with
    | nil =>
      have htext : parametersText [source] blanks =
          source.before ++ source.type.source source.gaps ++ (source.after ++ blanks) := by
        simp [parametersText, text]
      have hcomma : ',' ∉ parametersText [source] blanks := by
        simp [parametersText, hsource.comma_notMem_text, hblanks]
      have hafter : ∀ c ∈ source.after ++ blanks, isBlank c = true :=
        List.forall_mem_append.2 ⟨source.after_blank, blank⟩
      rw [splitOn_eq_singleton hcomma, List.map_singleton, htext,
        trim_surrounded source.before_blank hafter, hsource.trim_source,
        List.filter_cons_of_pos (by simpa using hfull)]
      rfl
    | cons next sources =>
      have hrest := ih fun other ho => h other (List.mem_cons_of_mem _ ho)
      have htext : parametersText (source :: next :: sources) blanks =
          source.text ++ ',' :: parametersText (next :: sources) blanks := by
        simp [parametersText, List.intercalate_cons_cons]
      rw [htext, splitOn_append_cons hsource.comma_notMem_text, List.map_cons, hsource.trim_text,
        List.filter_cons_of_pos (by simpa using hfull), hrest]
      rfl

/-- Each of them is read as the type it was written for. -/
theorem mapM_ofSource {sources : List SourceType} (h : ∀ source ∈ sources, source.IsPlain) :
    (sources.map fun source => source.type.source source.gaps).mapM FieldType.ofSource =
      .ok (sources.map (·.type)) := by
  rw [Fallible.mapM_ok_iff, List.forall₂_map_left_iff, List.forall₂_map_right_iff,
    List.forall₂_same]
  exact fun source hs => (h source hs).ofSource_of_trim (h source hs).trim_source

/-- What is written for types in source code is read as these types: for one type, and for the
result and the parameters of a method. -/
theorem ofSource_written :
    (∀ source : SourceType, source.IsPlain → FieldType.ofSource source.text = .ok source.type) ∧
    ∀ (result : SourceResult) (sources : List SourceType) (blanks : List Char), result.IsPlain →
      (∀ source ∈ sources, source.IsPlain) → (∀ c ∈ blanks, isBlank c = true) →
        MethodType.ofSource result.text (parametersText sources blanks) =
          .ok ⟨sources.map (·.type), result.type?⟩ := by
  refine ⟨fun source h => h.ofSource_of_trim h.trim_text, fun result sources blanks hr hs hb => ?_⟩
  rw [MethodType.ofSource, split_parametersText hs hb, mapM_ofSource hs]
  cases result with
  | void before after before_blank after_blank =>
    have hvoid : trim (SourceResult.void before after before_blank after_blank).text =
        "void".toList := by
      rw [SourceResult.text, trim_surrounded before_blank after_blank]
      decide +kernel
    simp only [hvoid, beq_self_eq_true, if_true]
    rfl
  | type source =>
    have hr : source.IsPlain := hr
    have htext : (SourceResult.type source).text = source.text := rfl
    have hresult : (trim source.text == "void".toList) = false := by
      rw [hr.trim_text]
      exact beq_eq_false_iff_ne.2 hr.source_ne_void
    simp only [htext, hresult, Bool.false_eq_true, if_false, hr.ofSource_of_trim hr.trim_text]
    rfl

def arraySample : SourceType where
  type := .ref (.object 2 ⟨"a/b", by decide +kernel⟩)
  before := [' ']
  gaps := [[], ['\t']]
  after := [' ']
  length_gaps := rfl
  before_blank := List.forall_mem_singleton.2 rfl
  gaps_blank := List.forall_mem_cons.2
    ⟨List.forall_mem_nil _, List.forall_mem_singleton.2 (List.forall_mem_singleton.2 rfl)⟩
  after_blank := List.forall_mem_singleton.2 rfl

theorem isPlain_arraySample : arraySample.IsPlain := by
  intro name hn
  obtain rfl := List.mem_singleton.1 hn
  refine ⟨fun type => ?_, by decide +kernel, ?_, by decide +kernel⟩
  · cases type <;> decide +kernel
  · have hblank : ("a/b".toList.all fun c => !isBlank c) = true := by decide +kernel
    exact fun c hc => by simpa using List.all_eq_true.1 hblank c hc

theorem ofSource_written_sample :
    arraySample.IsPlain ∧ FieldType.ofSource " a.b[]\t[] ".toList = .ok arraySample.type ∧
      MethodType.ofSource "void ".toList " a.b[]\t[] , a.b[]\t[] ".toList =
        .ok ⟨[arraySample.type, arraySample.type], none⟩ := by
  have hplain := isPlain_arraySample
  have htext : arraySample.text = " a.b[]\t[] ".toList := by decide +kernel
  obtain ⟨hfield, hmethod⟩ := ofSource_written
  have hread := hmethod
    (.void [] [' '] (List.forall_mem_nil _) (List.forall_mem_singleton.2 rfl))
    [arraySample, arraySample] [] trivial (by simp [hplain]) (List.forall_mem_nil _)
  have hall : parametersText [arraySample, arraySample] [] =
      " a.b[]\t[] , a.b[]\t[] ".toList := by decide +kernel
  rw [hall] at hread
  exact ⟨hplain, htext ▸ hfield arraySample hplain, hread⟩

end SourceType

end JarRename
