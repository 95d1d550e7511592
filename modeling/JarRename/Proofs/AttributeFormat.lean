import Mathlib
import JarRename.Attribute.Format
import JarRename.Proofs.Bytes

/-!
# Bodies of attributes are read as they were written

`Fits` says of a value that its counts and lengths fit in their words and that what it leaves open
has a form that can be told apart. Every reader accepts exactly what writing such values produces.
Annotation values are nested, so their `Fits` also bounds the depth; `AttributeBody.parse_ok_iff`
speaks of bodies of any depth.
-/
namespace JarRename

open Reader

variable {ε : Type} [FormatError ε]

/-- A list that can be written behind a count of two bytes. -/
def FitsList {α : Type} (fits : α → Prop) (items : List α) : Prop :=
  items.length < 0x10000 ∧ ∀ item ∈ items, fits item

theorem accepts_list {α : Type} {reader : Reader ε α} {write : α → Bytes} {fits : α → Prop}
    (h : Accepts reader write fits) :
    Accepts (counted 2 reader) (Bytes.counted 2 write) (FitsList fits) := by
  have hc := accepts_counted h 2
  norm_num at hc
  exact hc

theorem optional_ok_iff (index : Option PoolIndex) (bytes rest : Bytes) :
    (Reader.optional : Reader ε (Option PoolIndex)) bytes = .ok (index, rest) ↔
      index ≠ some 0 ∧ bytes = Bytes.optional index ++ rest := by
  simp only [Reader.optional, bind_ok_iff, pure_ok_iff, u2_ok_iff]
  constructor
  · rintro ⟨n, _, rfl, rfl, rfl⟩
    by_cases hn : n = 0 <;> simp [hn, Bytes.optional]
  · rintro ⟨h, rfl⟩
    cases index with
    | none => exact ⟨0, _, rfl, rfl, rfl⟩
    | some n =>
      have hn : n ≠ 0 := fun hz => h (by rw [hz])
      exact ⟨n, _, rfl, if_neg hn, rfl⟩

@[simp] theorem length_optional (index : Option PoolIndex) : (Bytes.optional index).length = 2 := by
  cases index <;> simp [Bytes.optional]

def Attribute.Fits (entry : Attribute) : Prop := entry.info.length < 0x100000000

theorem Attribute.accepts : Accepts (Attribute.read : Reader ε Attribute) write Fits := by
  intro bytes entry rest
  simp only [read, bind_ok_iff, pure_ok_iff, u2_ok_iff, word_ok_iff, take_ok_iff, write, Fits,
    List.append_assoc]
  constructor
  · rintro ⟨name, _, rfl, n, _, ⟨hn, rfl⟩, info, _, ⟨rfl, rfl⟩, rfl, rfl⟩
    exact ⟨by simpa using hn, rfl⟩
  · rintro ⟨hn, rfl⟩
    exact ⟨_, _, rfl, _, _, ⟨by simpa using hn, rfl⟩, _, _, ⟨rfl, rfl⟩, rfl, rfl⟩

theorem ExceptionHandler.accepts : Accepts read write (fun _ => True) := by
  intro bytes handler rest
  simp only [read, bind_ok_iff, pure_ok_iff, u2_ok_iff, write, List.append_assoc]
  constructor
  · rintro ⟨start, _, rfl, stop, _, rfl, target, _, rfl, catchType, _, rfl, rfl, rfl⟩
    exact ⟨trivial, rfl⟩
  · rintro ⟨-, rfl⟩
    exact ⟨_, _, rfl, _, _, rfl, _, _, rfl, _, _, rfl, rfl, rfl⟩

def Code.Fits (code : Code) : Prop :=
  code.bytecode.length < 0x100000000 ∧ code.handlers.length < 0x10000 ∧
    FitsList Attribute.Fits code.attributes

theorem Code.accepts : Accepts read write Fits := by
  intro bytes code rest
  simp only [read, bind_ok_iff, pure_ok_iff, u2_ok_iff, word_ok_iff, take_ok_iff,
    accepts_list ExceptionHandler.accepts _ _ _, accepts_list Attribute.accepts _ _ _, write, Fits,
    List.append_assoc]
  constructor
  · rintro ⟨stack, _, rfl, locals, _, rfl, n, _, ⟨hn, rfl⟩, bytecode, _, ⟨rfl, rfl⟩, handlers, _,
      ⟨hh, rfl⟩, attributes, _, ⟨ha, rfl⟩, rfl, rfl⟩
    exact ⟨⟨by simpa using hn, hh.1, ha⟩, rfl⟩
  · rintro ⟨⟨hn, hh, ha⟩, rfl⟩
    exact ⟨_, _, rfl, _, _, rfl, _, _, ⟨by simpa using hn, rfl⟩, _, _, ⟨rfl, rfl⟩, _, _,
      ⟨⟨hh, fun _ _ => trivial⟩, rfl⟩, _, _, ⟨ha, rfl⟩, rfl, rfl⟩

def InnerClass.Fits (entry : InnerClass) : Prop :=
  entry.outer ≠ some 0 ∧ entry.simpleName ≠ some 0

theorem InnerClass.accepts : Accepts read write Fits := by
  intro bytes entry rest
  simp only [read, bind_ok_iff, pure_ok_iff, u2_ok_iff, optional_ok_iff, write, Fits,
    List.append_assoc]
  constructor
  · rintro ⟨inner, _, rfl, outer, _, ⟨ho, rfl⟩, name, _, ⟨hn, rfl⟩, flags, _, rfl, rfl, rfl⟩
    exact ⟨⟨ho, hn⟩, rfl⟩
  · rintro ⟨⟨ho, hn⟩, rfl⟩
    exact ⟨_, _, rfl, _, _, ⟨ho, rfl⟩, _, _, ⟨hn, rfl⟩, _, _, rfl, rfl, rfl⟩

theorem LocalVariable.accepts : Accepts read write (fun _ => True) := by
  intro bytes entry rest
  simp only [read, bind_ok_iff, pure_ok_iff, u2_ok_iff, write, List.append_assoc]
  constructor
  · rintro ⟨start, _, rfl, length, _, rfl, name, _, rfl, type, _, rfl, slot, _, rfl, rfl, rfl⟩
    exact ⟨trivial, rfl⟩
  · rintro ⟨-, rfl⟩
    exact ⟨_, _, rfl, _, _, rfl, _, _, rfl, _, _, rfl, _, _, rfl, rfl, rfl⟩

def RecordComponent.Fits (entry : RecordComponent) : Prop :=
  FitsList Attribute.Fits entry.attributes

theorem RecordComponent.accepts : Accepts read write Fits := by
  intro bytes entry rest
  simp only [read, bind_ok_iff, pure_ok_iff, u2_ok_iff, accepts_list Attribute.accepts _ _ _,
    write, Fits, List.append_assoc]
  constructor
  · rintro ⟨name, _, rfl, descriptor, _, rfl, attributes, _, ⟨ha, rfl⟩, rfl, rfl⟩
    exact ⟨ha, rfl⟩
  · rintro ⟨ha, rfl⟩
    exact ⟨_, _, rfl, _, _, rfl, _, _, ⟨ha, rfl⟩, rfl, rfl⟩

namespace ElementValue

/-- Values with known tags that are nested less than `n` deep. -/
def Fits : (n : Nat) → ElementValue → Prop
  | 0, _ => False
  | _ + 1, const tag _ => isConstTag tag = true
  | _ + 1, enumConstant _ _ => True
  | _ + 1, classLiteral _ => True
  | n + 1, nested _ elements => FitsList (fun element => Fits n element.2) elements
  | n + 1, array values => FitsList (Fits n) values

theorem accepts_element {reader : Reader AttributeError ElementValue} {fits : ElementValue → Prop}
    (h : Accepts reader write fits) :
    Accepts (do return (← Reader.u2, ← reader))
      (fun element : PoolIndex × ElementValue => Bytes.u2 element.1 ++ element.2.write)
      (fun element => fits element.2) := by
  intro bytes element rest
  simp only [bind_ok_iff, pure_ok_iff, u2_ok_iff, h _ _ _, List.append_assoc]
  constructor
  · rintro ⟨name, _, rfl, value, _, ⟨hv, rfl⟩, rfl, rfl⟩
    exact ⟨hv, rfl⟩
  · rintro ⟨hv, rfl⟩
    exact ⟨_, _, rfl, _, _, ⟨hv, rfl⟩, rfl, rfl⟩

theorem readNested_complete {n : Nat} (ih : Accepts (readNested n) write (Fits n))
    {value : ElementValue} (h : value.Fits (n + 1)) (rest : Bytes) :
    readNested (n + 1) (value.write ++ rest) = .ok (value, rest) := by
  simp only [readNested, bind_ok_iff, u1_ok_iff]
  cases value with
  | const tag index =>
    refine ⟨tag, _, by rw [write_const, List.cons_append], ?_⟩
    simp only [Fits] at h
    simp only [h, if_true, bind_ok_iff, pure_ok_iff, u2_ok_iff]
    exact ⟨_, _, rfl, rfl, rfl⟩
  | enumConstant type name =>
    refine ⟨enumTag, _, by rw [write_enumConstant, List.cons_append], ?_⟩
    have hc : isConstTag enumTag = false := rfl
    simp only [hc, Bool.false_eq_true, if_false, if_true, bind_ok_iff, pure_ok_iff, u2_ok_iff,
      List.append_assoc]
    exact ⟨_, _, rfl, _, _, rfl, rfl, rfl⟩
  | classLiteral descriptor =>
    refine ⟨classTag, _, by rw [write_classLiteral, List.cons_append], ?_⟩
    have hc : isConstTag classTag = false := rfl
    have he : classTag ≠ enumTag := by decide
    simp only [hc, he, Bool.false_eq_true, if_false, if_true, bind_ok_iff, pure_ok_iff, u2_ok_iff]
    exact ⟨_, _, rfl, rfl, rfl⟩
  | nested type elements =>
    refine ⟨nestedTag, _, by rw [write_nested, List.cons_append], ?_⟩
    have hc : isConstTag nestedTag = false := rfl
    have he : nestedTag ≠ enumTag ∧ nestedTag ≠ classTag := by decide
    simp only [hc, he.1, he.2, Bool.false_eq_true, if_false, if_true, bind_ok_iff, pure_ok_iff,
      u2_ok_iff, readElements, accepts_list (accepts_element ih) _ _ _, List.append_assoc]
    exact ⟨_, _, rfl, _, _, ⟨h, rfl⟩, rfl, rfl⟩
  | array values =>
    refine ⟨arrayTag, _, by rw [write_array, List.cons_append], ?_⟩
    have hc : isConstTag arrayTag = false := rfl
    have he : arrayTag ≠ enumTag ∧ arrayTag ≠ classTag ∧ arrayTag ≠ nestedTag := by decide
    simp only [hc, he.1, he.2.1, he.2.2, Bool.false_eq_true, if_false, if_true, bind_ok_iff,
      pure_ok_iff, accepts_list ih _ _ _]
    exact ⟨_, _, ⟨h, rfl⟩, rfl, rfl⟩

theorem readNested_sound {n : Nat} (ih : Accepts (readNested n) write (Fits n))
    {bytes rest : Bytes} {value : ElementValue}
    (h : readNested (n + 1) bytes = .ok (value, rest)) :
    value.Fits (n + 1) ∧ bytes = value.write ++ rest := by
  simp only [readNested, bind_ok_iff, u1_ok_iff] at h
  obtain ⟨tag, _, rfl, h⟩ := h
  split_ifs at h with hc he hl hn ha
  · simp only [bind_ok_iff, pure_ok_iff, u2_ok_iff] at h
    obtain ⟨index, _, rfl, rfl, rfl⟩ := h
    exact ⟨hc, by rw [write_const, List.cons_append]⟩
  · simp only [bind_ok_iff, pure_ok_iff, u2_ok_iff] at h
    obtain ⟨type, _, rfl, name, _, rfl, rfl, rfl⟩ := h
    exact ⟨trivial, by rw [write_enumConstant, he, List.cons_append, List.append_assoc]⟩
  · simp only [bind_ok_iff, pure_ok_iff, u2_ok_iff] at h
    obtain ⟨descriptor, _, rfl, rfl, rfl⟩ := h
    exact ⟨trivial, by rw [write_classLiteral, hl, List.cons_append]⟩
  · simp only [bind_ok_iff, pure_ok_iff, u2_ok_iff, readElements,
      accepts_list (accepts_element ih) _ _ _] at h
    obtain ⟨type, _, rfl, elements, _, ⟨hf, rfl⟩, rfl, rfl⟩ := h
    exact ⟨hf, by rw [write_nested, hn, List.cons_append, List.append_assoc]⟩
  · simp only [bind_ok_iff, pure_ok_iff, accepts_list ih _ _ _] at h
    obtain ⟨values, _, ⟨hf, rfl⟩, rfl, rfl⟩ := h
    exact ⟨hf, by rw [write_array, ha, List.cons_append]⟩
  · rw [throw_ok_iff] at h
    exact h.elim

theorem accepts (n : Nat) : Accepts (readNested n) write (Fits n) := by
  induction n with
  | zero =>
    intro bytes value rest
    simp [readNested, throw_ok_iff, Fits]
  | succ n ih =>
    intro bytes value rest
    exact ⟨readNested_sound ih, fun ⟨h, hb⟩ => hb ▸ readNested_complete ih h rest⟩

theorem Fits.mono {m n : Nat} {value : ElementValue} (h : value.Fits m) (hmn : m ≤ n) :
    value.Fits n := by
  induction m generalizing n value with
  | zero => exact h.elim
  | succ m ih =>
    obtain ⟨n, rfl⟩ : ∃ k, n = k + 1 := ⟨n - 1, by omega⟩
    cases value with
    | const | enumConstant | classLiteral => exact h
    | nested type elements => exact ⟨h.1, fun e he => ih (h.2 e he) (by omega)⟩
    | array values => exact ⟨h.1, fun v hv => ih (h.2 v hv) (by omega)⟩

/-- Every level of nesting takes a byte. -/
theorem Fits.of_length {n : Nat} {value : ElementValue} (h : value.Fits n) :
    value.Fits value.write.length := by
  induction n generalizing value with
  | zero => exact h.elim
  | succ n ih =>
    cases value with
    | const tag index =>
      rw [write_const, List.length_cons]
      exact h
    | enumConstant => simp [write_enumConstant, Fits]
    | classLiteral => simp [write_classLiteral, Fits]
    | nested type elements =>
      rw [write_nested, List.length_cons]
      refine ⟨h.1, fun e he => (ih (h.2 e he)).mono ?_⟩
      have hl := Bytes.length_le_counted 2 (fun e : PoolIndex × ElementValue =>
        Bytes.u2 e.1 ++ e.2.write) he
      simp only [List.length_append] at hl ⊢
      omega
    | array values =>
      rw [write_array, List.length_cons]
      exact ⟨h.1, fun v hv => (ih (h.2 v hv)).mono (Bytes.length_le_counted 2 write hv)⟩

end ElementValue

namespace AnnotationUse

def Fits (n : Nat) (entry : AnnotationUse) : Prop :=
  FitsList (fun element => element.2.Fits n) entry.elements

theorem accepts (n : Nat) : Accepts (readNested n) write (Fits n) := by
  intro bytes entry rest
  simp only [readNested, ElementValue.readElements, bind_ok_iff, pure_ok_iff, u2_ok_iff,
    accepts_list (ElementValue.accepts_element (ElementValue.accepts n)) _ _ _, write, Fits,
    List.append_assoc]
  constructor
  · rintro ⟨type, _, rfl, elements, _, ⟨he, rfl⟩, rfl, rfl⟩
    exact ⟨he, rfl⟩
  · rintro ⟨he, rfl⟩
    exact ⟨_, _, rfl, _, _, ⟨he, rfl⟩, rfl, rfl⟩

theorem Fits.mono {m n : Nat} {entry : AnnotationUse} (h : entry.Fits m) (hmn : m ≤ n) :
    entry.Fits n :=
  ⟨h.1, fun e he => (h.2 e he).mono hmn⟩

theorem Fits.of_length {n : Nat} {entry : AnnotationUse} (h : entry.Fits n) :
    entry.Fits entry.write.length := by
  refine ⟨h.1, fun e he => (h.2 e he).of_length.mono ?_⟩
  have hl := Bytes.length_le_counted 2 (fun e : PoolIndex × ElementValue =>
    Bytes.u2 e.1 ++ e.2.write) he
  simp only [write, List.length_append] at hl ⊢
  omega

end AnnotationUse

namespace TypeAnnotationUse

/-- Whether the description of a target has the form that the target asks for. -/
def FitsTarget (target : UInt8) (info : Bytes) : Prop :=
  match targetForm? target with
  | none => False
  | some (.fixed length) => info.length = length
  | some .ranges => ∃ count < 0x10000, ∃ table : Bytes,
      table.length = 6 * count ∧ info = Bytes.word 2 count ++ table

theorem accepts_target (target : UInt8) :
    Accepts (readTarget target) id (FitsTarget target) := by
  intro bytes info rest
  rcases form : targetForm? target with _ | length | _
  · simp [readTarget, FitsTarget, form, throw_ok_iff]
  · simp only [readTarget, FitsTarget, form, take_ok_iff, id]
  · simp only [readTarget, FitsTarget, form, bind_ok_iff, pure_ok_iff, word_ok_iff, take_ok_iff,
      id]
    constructor
    · rintro ⟨count, _, ⟨hc, rfl⟩, table, _, ⟨ht, rfl⟩, rfl, rfl⟩
      exact ⟨⟨count, by simpa using hc, table, ht, rfl⟩, by simp⟩
    · rintro ⟨⟨count, hc, table, ht, rfl⟩, rfl⟩
      exact ⟨count, _, ⟨by simpa using hc, by rw [List.append_assoc]⟩, table, _, ⟨ht, rfl⟩, rfl,
        rfl⟩

def Fits (n : Nat) (entry : TypeAnnotationUse) : Prop :=
  FitsTarget entry.target entry.info ∧
    (∃ steps < 256, entry.path.length = 2 * steps) ∧ entry.use.Fits n

theorem accepts (n : Nat) : Accepts (readNested n) write (Fits n) := by
  intro bytes entry rest
  simp only [readNested, bind_ok_iff, pure_ok_iff, u1_ok_iff, word_ok_iff, take_ok_iff,
    accepts_target _ _ _ _, AnnotationUse.accepts n _ _ _, write, Fits, List.append_assoc,
    List.cons_append, id]
  constructor
  · rintro ⟨target, _, rfl, info, _, ⟨hi, rfl⟩, steps, _, ⟨hs, rfl⟩, path, _, ⟨hp, rfl⟩, use, _,
      ⟨hu, rfl⟩, rfl, rfl⟩
    exact ⟨⟨hi, ⟨steps, by simpa using hs, hp⟩, hu⟩, by simp [hp]⟩
  · rintro ⟨⟨hi, ⟨steps, hs, hp⟩, hu⟩, rfl⟩
    have hh : entry.path.length / 2 = steps := by omega
    exact ⟨_, _, rfl, _, _, ⟨hi, rfl⟩, steps, _, ⟨by simpa using hs, by rw [hh]⟩, _, _,
      ⟨hp, rfl⟩, _, _, ⟨hu, rfl⟩, rfl, rfl⟩

theorem Fits.mono {m n : Nat} {entry : TypeAnnotationUse} (h : entry.Fits m) (hmn : m ≤ n) :
    entry.Fits n :=
  ⟨h.1, h.2.1, h.2.2.mono hmn⟩

theorem Fits.of_length {n : Nat} {entry : TypeAnnotationUse} (h : entry.Fits n) :
    entry.Fits entry.write.length := by
  refine ⟨h.1, h.2.1, h.2.2.of_length.mono ?_⟩
  simp only [write, List.length_cons, List.length_append]
  omega

end TypeAnnotationUse

namespace AttributeBody

/-- Bodies that can be written, with annotation values nested less than `n` deep. -/
def Fits (n : Nat) : AttributeBody → Prop
  | code body => body.Fits
  | signature _ => True
  | enclosingMethod _ method => method ≠ some 0
  | innerClasses classes => FitsList InnerClass.Fits classes
  | localVariables entries => entries.length < 0x10000
  | localVariableTypes entries => entries.length < 0x10000
  | record components => FitsList RecordComponent.Fits components
  | annotations entries => FitsList (AnnotationUse.Fits n) entries
  | parameterAnnotations parameters =>
    parameters.length < 0x100 ∧ ∀ entries ∈ parameters, FitsList (AnnotationUse.Fits n) entries
  | typeAnnotations entries => FitsList (TypeAnnotationUse.Fits n) entries
  | annotationDefault value => value.Fits n

theorem accepts_parameters (n : Nat) :
    Accepts (counted 1 (counted 2 (AnnotationUse.readNested n)))
      (Bytes.counted 1 (Bytes.counted 2 AnnotationUse.write))
      (fun parameters => parameters.length < 0x100 ∧
        ∀ entries ∈ parameters, FitsList (AnnotationUse.Fits n) entries) := by
  have hc := accepts_counted (accepts_list (AnnotationUse.accepts n)) 1
  norm_num at hc
  exact hc

/-- A reader of a part, taken as a reader of bodies of one kind. -/
theorem accepts_kind {α : Type} {reader : Reader AttributeError α} {put : α → Bytes}
    {fits : α → Prop} (h : Accepts reader put fits) (wrap : α → AttributeBody)
    {bytes rest : Bytes} {body : AttributeBody} :
    (do return wrap (← reader) : Reader AttributeError AttributeBody) bytes = .ok (body, rest) ↔
      ∃ x, body = wrap x ∧ fits x ∧ bytes = put x ++ rest := by
  simp only [bind_ok_iff, pure_ok_iff, h _ _ _]
  constructor
  · rintro ⟨x, _, ⟨hx, rfl⟩, rfl, rfl⟩
    exact ⟨x, rfl, hx, rfl⟩
  · rintro ⟨x, rfl, hx, rfl⟩
    exact ⟨x, _, ⟨hx, rfl⟩, rfl, rfl⟩

theorem accepts (n : Nat) (kind : AttributeKind) :
    Accepts (readNested n kind) write (fun body => body.kind = kind ∧ body.Fits n) := by
  intro bytes body rest
  cases kind with
  | code =>
    rw [readNested, accepts_kind Code.accepts]
    cases body <;> simp [AttributeBody.kind, Fits, write]
  | signature =>
    rw [readNested, accepts_kind accepts_u2]
    cases body <;> simp [AttributeBody.kind, Fits, write]
  | enclosingMethod =>
    simp only [readNested, bind_ok_iff, pure_ok_iff, u2_ok_iff, optional_ok_iff]
    constructor
    · rintro ⟨owner, _, rfl, method, _, ⟨hm, rfl⟩, rfl, rfl⟩
      exact ⟨⟨rfl, hm⟩, by rw [write, List.append_assoc]⟩
    · rintro ⟨⟨hk, hf⟩, rfl⟩
      cases body with
      | enclosingMethod owner method =>
        exact ⟨owner, _, by rw [write, List.append_assoc], method, _, ⟨hf, rfl⟩, rfl, rfl⟩
      | _ => cases hk
  | innerClasses =>
    rw [readNested, accepts_kind (accepts_list InnerClass.accepts)]
    cases body <;> simp [AttributeBody.kind, Fits, write]
  | localVariables =>
    rw [readNested, accepts_kind (accepts_list LocalVariable.accepts)]
    cases body <;> simp [AttributeBody.kind, Fits, FitsList, write]
  | localVariableTypes =>
    rw [readNested, accepts_kind (accepts_list LocalVariable.accepts)]
    cases body <;> simp [AttributeBody.kind, Fits, FitsList, write]
  | record =>
    rw [readNested, accepts_kind (accepts_list RecordComponent.accepts)]
    cases body <;> simp [AttributeBody.kind, Fits, write]
  | annotations =>
    rw [readNested, accepts_kind (accepts_list (AnnotationUse.accepts n))]
    cases body <;> simp [AttributeBody.kind, Fits, write]
  | parameterAnnotations =>
    rw [readNested, accepts_kind (accepts_parameters n)]
    cases body <;> simp [AttributeBody.kind, Fits, write]
  | typeAnnotations =>
    rw [readNested, accepts_kind (accepts_list (TypeAnnotationUse.accepts n))]
    cases body <;> simp [AttributeBody.kind, Fits, write]
  | annotationDefault =>
    rw [readNested, accepts_kind (ElementValue.accepts n)]
    cases body <;> simp [AttributeBody.kind, Fits, write]

theorem Fits.of_length {n : Nat} {body : AttributeBody} (h : body.Fits n) :
    body.Fits (body.write.length + 1) := by
  cases body with
  | code | signature | enclosingMethod | innerClasses | localVariables | localVariableTypes
  | record => exact h
  | annotations entries =>
    refine ⟨h.1, fun e he => (h.2 e he).of_length.mono ?_⟩
    exact (Bytes.length_le_counted 2 AnnotationUse.write he).trans (Nat.le_succ _)
  | parameterAnnotations parameters =>
    refine ⟨h.1, fun entries hp => ⟨(h.2 entries hp).1, fun e he =>
      ((h.2 entries hp).2 e he).of_length.mono ?_⟩⟩
    exact ((Bytes.length_le_counted 2 AnnotationUse.write he).trans
      (Bytes.length_le_counted 1 (Bytes.counted 2 AnnotationUse.write) hp)).trans (Nat.le_succ _)
  | typeAnnotations entries =>
    refine ⟨h.1, fun e he => (h.2 e he).of_length.mono ?_⟩
    exact (Bytes.length_le_counted 2 TypeAnnotationUse.write he).trans (Nat.le_succ _)
  | annotationDefault value => exact (ElementValue.Fits.of_length h).mono (Nat.le_succ _)

/-- A whole body is read exactly from what writing it gives, whatever its depth. -/
theorem parse_ok_iff {kind : AttributeKind} {info : Bytes} {body : AttributeBody} :
    parse kind info = .ok body ↔ body.kind = kind ∧ (∃ n, body.Fits n) ∧ info = body.write := by
  unfold parse
  constructor
  · intro h
    split at h
    · simp at h
    · rename_i found hr
      simp only [Except.ok.injEq] at h
      obtain ⟨⟨hk, hf⟩, hw⟩ := (accepts _ _ _ _ _).1 hr
      subst h
      exact ⟨hk, ⟨_, hf⟩, by simpa using hw⟩
    · simp at h
  · rintro ⟨hk, ⟨n, hf⟩, rfl⟩
    have hr := (accepts (body.write.length + 1) kind body.write body []).2
      ⟨⟨hk, hf.of_length⟩, by simp⟩
    rw [hr]

theorem decode_ok_iff {kind : AttributeKind} {name : String} {info : Bytes} {body : AttributeBody} :
    decode kind name info = .ok body ↔
      body.kind = kind ∧ (∃ n, body.Fits n) ∧ info = body.write := by
  rw [← parse_ok_iff, decode]
  rcases parse kind info with e | b <;> simp [Except.mapError]

end AttributeBody

end JarRename
