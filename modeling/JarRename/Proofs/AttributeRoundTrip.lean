import Mathlib
import JarRename.Proofs.AttributeFormat

/-!
# Bodies of attributes round-trip both ways

`Representable` says which bodies have a binary form, without a bound on the depth of annotation
values: counts and lengths fit in their words, an index that may be absent is not zero, tags and
targets are known, and target and path have the form they need. These are the bodies that decoding
gives, and each is decoded from the bytes that are written for it.
-/
namespace JarRename

def Attribute.Representable (entry : Attribute) : Prop := entry.info.length < 2 ^ 32

def Code.Representable (code : Code) : Prop :=
  code.bytecode.length < 2 ^ 32 ∧ code.handlers.length ≤ 65535 ∧
    code.attributes.length ≤ 65535 ∧ ∀ entry ∈ code.attributes, entry.Representable

def RecordComponent.Representable (component : RecordComponent) : Prop :=
  component.attributes.length ≤ 65535 ∧ ∀ entry ∈ component.attributes, entry.Representable

def InnerClass.Representable (entry : InnerClass) : Prop :=
  entry.outer ≠ some 0 ∧ entry.simpleName ≠ some 0

/-- Values with known tags and with lists that fit behind their counts, at any depth. -/
inductive ElementValue.Representable : ElementValue → Prop
  | const {tag : UInt8} (index : PoolIndex) (known : isConstTag tag = true) :
    Representable (const tag index)
  | enumConstant (type name : PoolIndex) : Representable (enumConstant type name)
  | classLiteral (descriptor : PoolIndex) : Representable (classLiteral descriptor)
  | nested (type : PoolIndex) {elements : List (PoolIndex × ElementValue)}
    (count : elements.length ≤ 65535) (values : ∀ element ∈ elements, Representable element.2) :
    Representable (nested type elements)
  | array {values : List ElementValue} (count : values.length ≤ 65535)
    (each : ∀ value ∈ values, Representable value) : Representable (array values)

def AnnotationUse.Representable (entry : AnnotationUse) : Prop :=
  entry.elements.length ≤ 65535 ∧ ∀ element ∈ entry.elements, element.2.Representable

/-- The target is known and described as it needs to be, and every step of the path has two
bytes. -/
def TypeAnnotationUse.Representable (entry : TypeAnnotationUse) : Prop :=
  FitsTarget entry.target entry.info ∧ Even entry.path.length ∧ entry.path.length ≤ 510 ∧
    entry.use.Representable

def AttributeBody.Representable : AttributeBody → Prop
  | code body => body.Representable
  | signature _ => True
  | enclosingMethod _ method => method ≠ some 0
  | innerClasses classes => classes.length ≤ 65535 ∧ ∀ entry ∈ classes, entry.Representable
  | localVariables entries | localVariableTypes entries => entries.length ≤ 65535
  | record components => components.length ≤ 65535 ∧ ∀ entry ∈ components, entry.Representable
  | annotations entries => entries.length ≤ 65535 ∧ ∀ entry ∈ entries, entry.Representable
  | parameterAnnotations parameters => parameters.length ≤ 255 ∧
    ∀ entries ∈ parameters, entries.length ≤ 65535 ∧ ∀ entry ∈ entries, entry.Representable
  | typeAnnotations entries => entries.length ≤ 65535 ∧ ∀ entry ∈ entries, entry.Representable
  | annotationDefault value => value.Representable

theorem fitsList_iff {α : Type} {fits : α → Prop} {items : List α} :
    FitsList fits items ↔ items.length ≤ 65535 ∧ ∀ item ∈ items, fits item := by
  rw [FitsList, Nat.lt_succ_iff]

/-- One bound serves all elements of a list, as a bound may always be raised. -/
theorem exists_forall_fits {α : Type} (fits : Nat → α → Prop)
    (mono : ∀ {m n x}, fits m x → m ≤ n → fits n x) {items : List α}
    (h : ∀ item ∈ items, ∃ n, fits n item) : ∃ n, ∀ item ∈ items, fits n item := by
  induction items with
  | nil => exact ⟨0, by simp⟩
  | cons item items ih =>
    obtain ⟨m, hm⟩ := h item (by simp)
    obtain ⟨n, hn⟩ := ih fun other ho => h other (by simp [ho])
    refine ⟨max m n, fun other ho => ?_⟩
    rcases List.mem_cons.1 ho with rfl | ho
    · exact mono hm (le_max_left m n)
    · exact mono (hn other ho) (le_max_right m n)

namespace ElementValue

theorem Representable.of_fits {n : Nat} {value : ElementValue} (h : value.Fits n) :
    value.Representable := by
  induction n generalizing value with
  | zero => exact h.elim
  | succ n ih =>
    cases value with
    | const tag index => exact .const index h
    | enumConstant type name => exact .enumConstant type name
    | classLiteral descriptor => exact .classLiteral descriptor
    | nested type elements =>
      have hl := fitsList_iff.1 h
      exact .nested type hl.1 fun element he => ih (hl.2 element he)
    | array values =>
      have hl := fitsList_iff.1 h
      exact .array hl.1 fun value hv => ih (hl.2 value hv)

theorem Representable.exists_fits {value : ElementValue} (h : value.Representable) :
    ∃ n, value.Fits n := by
  induction h with
  | const index known => exact ⟨1, known⟩
  | enumConstant | classLiteral => exact ⟨1, trivial⟩
  | nested type count values ih =>
    obtain ⟨n, hn⟩ := exists_forall_fits
      (fun n (element : PoolIndex × ElementValue) => element.2.Fits n) Fits.mono ih
    exact ⟨n + 1, fitsList_iff.2 ⟨count, hn⟩⟩
  | array count each ih =>
    obtain ⟨n, hn⟩ := exists_forall_fits Fits Fits.mono ih
    exact ⟨n + 1, fitsList_iff.2 ⟨count, hn⟩⟩

theorem representable_iff {value : ElementValue} : value.Representable ↔ ∃ n, value.Fits n :=
  ⟨Representable.exists_fits, fun ⟨_, h⟩ => .of_fits h⟩

end ElementValue

/-- A list of parts fits at some depth if all of them do. -/
theorem exists_fitsList_iff {α : Type} (fits : Nat → α → Prop) {representable : α → Prop}
    (mono : ∀ {m n x}, fits m x → m ≤ n → fits n x)
    (h : ∀ x, representable x ↔ ∃ n, fits n x) {items : List α} :
    (∃ n, FitsList (fits n) items) ↔ items.length ≤ 65535 ∧ ∀ item ∈ items, representable item := by
  simp only [fitsList_iff, h]
  constructor
  · intro ⟨n, hl, hn⟩
    exact ⟨hl, fun item hi => ⟨n, hn item hi⟩⟩
  · intro ⟨hl, hn⟩
    obtain ⟨n, hn⟩ := exists_forall_fits fits mono hn
    exact ⟨n, hl, hn⟩

theorem AnnotationUse.representable_iff (entry : AnnotationUse) :
    entry.Representable ↔ ∃ n, entry.Fits n :=
  (exists_fitsList_iff (fun n (element : PoolIndex × ElementValue) => element.2.Fits n)
    ElementValue.Fits.mono fun _ => ElementValue.representable_iff).symm

theorem TypeAnnotationUse.representable_iff (entry : TypeAnnotationUse) :
    entry.Representable ↔ ∃ n, entry.Fits n := by
  have hpath : (∃ steps < 256, entry.path.length = 2 * steps) ↔
      Even entry.path.length ∧ entry.path.length ≤ 510 := by
    rw [even_iff_exists_two_mul]
    constructor
    · intro ⟨steps, hs, hp⟩
      exact ⟨⟨steps, hp⟩, by omega⟩
    · intro ⟨⟨steps, hp⟩, hl⟩
      exact ⟨steps, by omega, hp⟩
  simp only [Representable, Fits, hpath, exists_and_left, and_assoc,
    AnnotationUse.representable_iff]

namespace AttributeBody

theorem representable_iff (body : AttributeBody) : body.Representable ↔ ∃ n, body.Fits n := by
  cases body with
  | code body =>
    simp [Representable, Fits, Code.Representable, Code.Fits, Attribute.Representable,
      fitsList_iff, Attribute.Fits, Nat.lt_succ_iff]
  | signature | enclosingMethod => simp [Representable, Fits]
  | innerClasses classes =>
    simp [Representable, Fits, fitsList_iff, InnerClass.Representable, InnerClass.Fits]
  | localVariables entries | localVariableTypes entries =>
    simp [Representable, Fits, Nat.lt_succ_iff]
  | record components =>
    simp [Representable, Fits, fitsList_iff, RecordComponent.Representable, RecordComponent.Fits,
      Attribute.Representable, Attribute.Fits]
  | annotations entries =>
    exact (exists_fitsList_iff AnnotationUse.Fits AnnotationUse.Fits.mono
      AnnotationUse.representable_iff).symm
  | parameterAnnotations parameters =>
    have hlist : ∀ entries : List AnnotationUse, (entries.length ≤ 65535 ∧
        ∀ entry ∈ entries, entry.Representable) ↔ ∃ n, FitsList (AnnotationUse.Fits n) entries :=
      fun _ => (exists_fitsList_iff AnnotationUse.Fits AnnotationUse.Fits.mono
        AnnotationUse.representable_iff).symm
    simp only [Representable, Fits, Nat.lt_succ_iff, exists_and_left, hlist]
    refine and_congr_right fun _ => ⟨fun h => ?_, fun h entries he => ?_⟩
    · refine exists_forall_fits (fun n entries => FitsList (AnnotationUse.Fits n) entries)
        (fun h hmn => ?_) h
      exact ⟨h.1, fun entry he => (h.2 entry he).mono hmn⟩
    · obtain ⟨n, hn⟩ := h
      exact ⟨n, hn entries he⟩
  | typeAnnotations entries =>
    exact (exists_fitsList_iff TypeAnnotationUse.Fits TypeAnnotationUse.Fits.mono
      TypeAnnotationUse.representable_iff).symm
  | annotationDefault value => exact ElementValue.representable_iff

/-- Decoding and encoding undo each other on every layout: what is decoded has a binary form and is
encoded as the bytes it came from, and every body with a binary form is decoded from its
encoding. -/
theorem decode_write_inverse :
    (∀ kind name info body, decode kind name info = .ok body →
      body.kind = kind ∧ body.Representable ∧ body.write = info) ∧
    ∀ name (body : AttributeBody), body.Representable →
      decode body.kind name body.write = .ok body := by
  constructor
  · intro kind name info body h
    obtain ⟨hk, hf, hw⟩ := decode_ok_iff.1 h
    exact ⟨hk, body.representable_iff.2 hf, hw.symm⟩
  · intro name body h
    exact decode_ok_iff.2 ⟨rfl, body.representable_iff.1 h, rfl⟩

/-- An annotation at two ranges of a local variable, with a path of one step and a value in which
an annotation stands inside an array. -/
def sample : AttributeBody :=
  typeAnnotations [⟨0x40, [0, 2, 0, 0, 0, 5, 0, 1, 0, 7, 0, 2, 0, 1], [3, 0],
    ⟨7, [(2, .array [.const 73 7, .nested 6 [(8, .const 115 9)], .enumConstant 4 5,
      .classLiteral 3])]⟩⟩]

def sampleInfo : Bytes :=
  [0, 1, 0x40, 0, 2, 0, 0, 0, 5, 0, 1, 0, 7, 0, 2, 0, 1, 1, 3, 0, 0, 7, 0, 1, 0, 2, 91, 0, 4, 73,
    0, 7, 64, 0, 6, 0, 1, 0, 8, 115, 0, 9, 101, 0, 4, 0, 5, 99, 0, 3]

theorem representable_sample : sample.Representable := by
  have hnested : (ElementValue.nested 6 [(8, .const 115 9)]).Representable :=
    .nested 6 (by decide) (by simpa using .const 9 rfl)
  have harray : (ElementValue.array [.const 73 7, .nested 6 [(8, .const 115 9)],
      .enumConstant 4 5, .classLiteral 3]).Representable := by
    refine .array (by decide) fun value hv => ?_
    simp only [List.mem_cons, List.not_mem_nil, or_false] at hv
    obtain rfl | rfl | rfl | rfl := hv
    · exact .const 7 rfl
    · exact hnested
    · exact .enumConstant 4 5
    · exact .classLiteral 3
  have htarget : TypeAnnotationUse.FitsTarget 0x40 [0, 2, 0, 0, 0, 5, 0, 1, 0, 7, 0, 2, 0, 1] :=
    ⟨2, by decide, [0, 0, 0, 5, 0, 1, 0, 7, 0, 2, 0, 1], rfl, rfl⟩
  refine ⟨by decide, fun entry he => ?_⟩
  cases List.mem_singleton.1 he
  exact ⟨htarget, by decide, by decide, by decide, by simpa using harray⟩

theorem write_sample : sample.write = sampleInfo := by
  simp [sample, sampleInfo, write, Bytes.counted, Bytes.word, Bytes.u2, TypeAnnotationUse.write,
    AnnotationUse.write, ElementValue.write_array, ElementValue.write_const,
    ElementValue.write_nested, ElementValue.write_enumConstant, ElementValue.write_classLiteral,
    ElementValue.enumTag, ElementValue.classTag, ElementValue.nestedTag, ElementValue.arrayTag]

theorem decode_write_inverse_sample : sample.Representable ∧
    decode .typeAnnotations "RuntimeVisibleTypeAnnotations" sampleInfo = .ok sample ∧
      sample.write = sampleInfo := by
  have hd := decode_write_inverse.2 "RuntimeVisibleTypeAnnotations" sample representable_sample
  rw [write_sample] at hd
  exact ⟨representable_sample, hd, (decode_write_inverse.1 _ _ _ _ hd).2.2⟩

end AttributeBody

end JarRename
