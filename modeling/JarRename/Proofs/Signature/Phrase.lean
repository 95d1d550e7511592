import Mathlib
import JarRename.Signature

/-!
# What a signature is made of

A signature is a sequence of marks, which are copied, and of class types, whose names are replaced.
`Phrase.rename` is renaming as a walk over that structure; it asks for the names `Phrase.calls`
lists. Two phrases are alike if they differ in names only. Renaming a phrase by a function that
respects nesting gives a phrase that is alike, and renaming that phrase is renaming the first one by
the composed function.
-/
namespace JarRename

theorem simpleName_below (name : String) {simple : List Char} (h : simple ≠ []) :
    simpleName (name ++ "$" ++ String.ofList simple) (some name) = String.ofList simple := by
  have hdrop : Text.dropPrefix? name.toList (name ++ "$" ++ String.ofList simple).toList =
      some ('$' :: simple) := by
    rw [String.append_assoc, String.toList_append, Text.dropPrefix?_append]
    simp
  have hne : simple.isEmpty = false := by simpa using h
  simp only [simpleName, hdrop, hne]
  rfl

namespace Signature

/-- A name as it stands in a class type: not empty, and without the marks that end it. -/
structure Part where
  spelling : List Char
  ne_nil : spelling ≠ []
  clean : ∀ c ∈ spelling, endsClassName c = false

def Part.text (part : Part) : String := String.ofList part.spelling

mutual

/-- Marks and class types, one after the other. -/
inductive Phrase where
  | stop
  | mark (c : Char) (more : Phrase)
  | classType (name : Part) (body : Body) (more : Phrase)

/-- What follows the name of a class up to `;`: type arguments and the class nested in it. -/
inductive Body where
  | stop (arguments : Phrase)
  | nested (arguments : Phrase) (simple : Part) (body : Body)

end

/-- A name that a renaming function is asked for. -/
inductive Call where
  | top (name : String)
  /-- The class `simple` nested in `outer`. -/
  | suffix (outer simple : String)

def Call.name : Call → String
  | top name => name
  | suffix outer simple => outer ++ "$" ++ simple

mutual

def Phrase.text : Phrase → List Char
  | .stop => []
  | .mark c more => c :: more.text
  | .classType name body more => 'L' :: (name.spelling ++ body.text ++ more.text)

def Body.text : Body → List Char
  | .stop arguments => arguments.text ++ [';']
  | .nested arguments simple body => arguments.text ++ '.' :: (simple.spelling ++ body.text)

end

mutual

/-- The names asked for, from left to right. -/
def Phrase.calls : Phrase → List Call
  | .stop => []
  | .mark _ more => more.calls
  | .classType name body more => .top name.text :: (body.calls name.text ++ more.calls)

/-- The names asked for behind the class `name`. -/
def Body.calls : Body → (name : String) → List Call
  | .stop arguments, _ => arguments.calls
  | .nested arguments simple body, name =>
    arguments.calls ++ .suffix name simple.text :: body.calls (name ++ "$" ++ simple.text)

end

section Rename

variable {m : Type → Type} [Monad m] (f : String → m String)

mutual

/-- The text with every class renamed. -/
def Phrase.rename : Phrase → m (List Char)
  | .stop => pure []
  | .mark c more => do return c :: (← more.rename)
  | .classType name body more => do
    let mapped ← f name.text
    let inside ← body.rename name.text mapped
    return 'L' :: (mapped.toList ++ inside ++ (← more.rename))

/-- The text behind the class `name`, which was renamed to `mapped`. -/
def Body.rename : Body → (name mapped : String) → m (List Char)
  | .stop arguments, _, _ => do return (← arguments.rename) ++ [';']
  | .nested arguments simple body, name, mapped => do
    let front ← arguments.rename
    let inner := name ++ "$" ++ simple.text
    let innerMapped ← f inner
    let written := (simpleName innerMapped (some mapped)).toList
    return front ++ '.' :: (written ++ (← body.rename inner innerMapped))

end

end Rename

namespace Phrase

protected def append : Phrase → Phrase → Phrase
  | .stop, next => next
  | .mark c more, next => .mark c (more.append next)
  | .classType name body more, next => .classType name body (more.append next)

instance : Append Phrase := ⟨Phrase.append⟩

/-- The marks of a text that is copied as it is. -/
def marks (cs : List Char) : Phrase := cs.foldr .mark .stop

/-- The number of marks and class types. -/
def size : Phrase → Nat
  | .stop => 0
  | .mark _ more => more.size + 1
  | .classType _ _ more => more.size + 1

@[simp] theorem stop_append (q : Phrase) : stop ++ q = q := rfl

@[simp] theorem mark_append (c : Char) (p q : Phrase) : mark c p ++ q = mark c (p ++ q) := rfl

@[simp] theorem classType_append (name : Part) (body : Body) (p q : Phrase) :
    classType name body p ++ q = classType name body (p ++ q) := rfl

@[simp] theorem text_append : (p q : Phrase) → (p ++ q).text = p.text ++ q.text
  | stop, q => rfl
  | mark c more, q => by simp [text, text_append more q]
  | classType name body more, q => by simp [text, text_append more q]

@[simp] theorem size_append : (p q : Phrase) → (p ++ q).size = p.size + q.size
  | stop, q => by simp [size]
  | mark c more, q => by simp [size, size_append more q, Nat.add_right_comm]
  | classType name body more, q => by simp [size, size_append more q, Nat.add_right_comm]

theorem size_le_length : (p : Phrase) → p.size ≤ p.text.length
  | stop => Nat.le_refl 0
  | mark c more => by
    have := size_le_length more
    simp only [size, text, List.length_cons]
    omega
  | classType name body more => by
    have := size_le_length more
    simp only [size, text, List.length_cons, List.length_append]
    omega

@[simp] theorem text_marks (cs : List Char) : (marks cs).text = cs := by
  induction cs with
  | nil => rfl
  | cons c cs ih => exact congrArg (c :: ·) ih

@[simp] theorem size_marks (cs : List Char) : (marks cs).size = cs.length := by
  induction cs with
  | nil => rfl
  | cons c cs ih => exact congrArg (· + 1) ih

end Phrase

section Same

variable {f : String → String} (hf : ∀ name, f name = name)
include hf

mutual

/-- The simple name of a nested class is what stood in its place. -/
theorem Phrase.rename_self : (p : Phrase) → p.rename (m := Id) f = p.text
  | .stop => rfl
  | .mark c more => congrArg (c :: ·) (Phrase.rename_self more)
  | .classType name body more => by
    have hname : (f name.text).toList = name.spelling := by
      rw [hf, Part.text, String.toList_ofList]
    rw [Phrase.text, ← Phrase.rename_self more, ← Body.rename_self body name.text, ← hname]
    rfl

theorem Body.rename_self : (body : Body) → (name : String) →
    body.rename (m := Id) f name (f name) = body.text
  | .stop arguments, _ => congrArg (· ++ [';']) (Phrase.rename_self arguments)
  | .nested arguments simple body, name => by
    have hsimple : (simpleName (f (name ++ "$" ++ simple.text)) (some (f name))).toList =
        simple.spelling := by
      rw [hf, hf, Part.text, simpleName_below name simple.ne_nil, String.toList_ofList]
    rw [Body.text, ← Phrase.rename_self arguments, ← Body.rename_self body, ← hsimple]
    rfl

end

end Same

section Lawful

variable {m : Type → Type} [Monad m] [LawfulMonad m] (f : String → m String)

namespace Phrase

@[simp] theorem rename_append : (p q : Phrase) →
    (p ++ q).rename f = (do return (← p.rename f) ++ (← q.rename f))
  | stop, q => by simp [rename]
  | mark c more, q => by simp [rename, rename_append more q]
  | classType name body more, q => by simp [rename, rename_append more q]

@[simp] theorem rename_marks (cs : List Char) : (marks cs).rename f = pure cs := by
  induction cs with
  | nil => rfl
  | cons c cs ih =>
    change (do return c :: (← (marks cs).rename f)) = _
    rw [ih, pure_bind]

end Phrase

mutual

/-- What is asked for does not depend on the answers. -/
theorem Phrase.rename_bind {α : Type} : (p : Phrase) → (next : m α) →
    (p.rename f >>= fun _ => next) = ((p.calls.map Call.name).mapM f >>= fun _ => next)
  | .stop, next => by simp [Phrase.rename, Phrase.calls]
  | .mark c more, next => by simp [Phrase.rename, Phrase.calls, more.rename_bind]
  | .classType name body more, next => by
    simp [Phrase.rename, Phrase.calls, Call.name, more.rename_bind, body.rename_bind]

theorem Body.rename_bind {α : Type} : (body : Body) → (name mapped : String) → (next : m α) →
    (body.rename f name mapped >>= fun _ => next) =
      (((body.calls name).map Call.name).mapM f >>= fun _ => next)
  | .stop arguments, name, mapped, next => by
    simp [Body.rename, Body.calls, arguments.rename_bind]
  | .nested arguments simple body, name, mapped, next => by
    simp [Body.rename, Body.calls, Call.name, arguments.rename_bind, body.rename_bind]

end

end Lawful

mutual

/-- The same marks at the same places, with any names in between. -/
inductive Phrase.Alike : Phrase → Phrase → Prop
  | stop : Phrase.Alike .stop .stop
  | mark (c : Char) {p q : Phrase} (more : Phrase.Alike p q) : Phrase.Alike (.mark c p) (.mark c q)
  | classType (name other : Part) {b b' : Body} {p q : Phrase} (body : Body.Alike b b')
    (more : Phrase.Alike p q) : Phrase.Alike (.classType name b p) (.classType other b' q)

inductive Body.Alike : Body → Body → Prop
  | stop {p q : Phrase} (arguments : Phrase.Alike p q) : Body.Alike (.stop p) (.stop q)
  | nested {p q : Phrase} (simple other : Part) {b b' : Body} (arguments : Phrase.Alike p q)
    (body : Body.Alike b b') : Body.Alike (.nested p simple b) (.nested q other b')

end

mutual

theorem Phrase.Alike.refl : (p : Phrase) → p.Alike p
  | .stop => .stop
  | .mark c more => .mark c (Phrase.Alike.refl more)
  | .classType name body more =>
    .classType name name (Body.Alike.refl body) (Phrase.Alike.refl more)

theorem Body.Alike.refl : (body : Body) → body.Alike body
  | .stop arguments => .stop (Phrase.Alike.refl arguments)
  | .nested arguments simple body =>
    .nested simple simple (Phrase.Alike.refl arguments) (Body.Alike.refl body)

end

namespace Phrase

theorem Alike.size_eq : {p q : Phrase} → p.Alike q → q.size = p.size
  | _, _, .stop => rfl
  | _, _, .mark _ more => congrArg (· + 1) more.size_eq
  | _, _, .classType _ _ _ more => congrArg (· + 1) more.size_eq

/-- Phrases that are alike begin with the same character, as a class type begins with `L`. -/
theorem Alike.head?_eq {p q : Phrase} (h : p.Alike q) {rest tail : List Char}
    (ht : tail.head? = rest.head?) : (q.text ++ tail).head? = (p.text ++ rest).head? := by
  cases h with
  | stop => exact ht
  | mark => rfl
  | classType => rfl

theorem exists_of_append_alike : (p q : Phrase) → {r : Phrase} → (p ++ q).Alike r →
    ∃ p' q', r = p' ++ q' ∧ p.Alike p' ∧ q.Alike q'
  | stop, q, r, h => ⟨stop, r, rfl, .stop, h⟩
  | mark c more, q, _, .mark _ h => by
    obtain ⟨p', q', rfl, hp, hq⟩ := exists_of_append_alike more q h
    exact ⟨mark c p', q', rfl, .mark c hp, hq⟩
  | classType name body more, q, _, .classType _ other hb h => by
    obtain ⟨p', q', rfl, hp, hq⟩ := exists_of_append_alike more q h
    exact ⟨classType other _ p', q', rfl, .classType name other hb hp, hq⟩

theorem eq_of_marks_alike {cs : List Char} {q : Phrase} (h : (marks cs).Alike q) :
    q = marks cs := by
  induction cs generalizing q with
  | nil =>
    cases h
    rfl
  | cons c cs ih =>
    obtain ⟨q⟩ | ⟨_, h⟩ := h
    rw [ih h]
    rfl

end Phrase

/-- What follows the name of a class begins with the same character if only names differ. -/
theorem Body.Alike.head?_eq {b b' : Body} (h : b.Alike b') (rest tail : List Char) :
    (b'.text ++ tail).head? = (b.text ++ rest).head? := by
  obtain ⟨arguments⟩ | ⟨simple, other, arguments, _⟩ := h
  · have hend : (';' :: tail).head? = (';' :: rest).head? := rfl
    simpa [Body.text] using arguments.head?_eq hend
  · have hpoint : ['.'].head? = ['.'].head? := rfl
    simpa [Body.text] using arguments.head?_eq hpoint

/-- A name that can be written into a class type. -/
def IsPart (name : String) : Prop := name ≠ "" ∧ ∀ c ∈ name.toList, endsClassName c = false

theorem IsPart.exists_part {name : String} (h : IsPart name) :
    ∃ part : Part, part.spelling = name.toList ∧ part.text = name :=
  ⟨⟨name.toList, by simpa using h.1, h.2⟩, rfl, String.ofList_toList⟩

theorem Part.isPart_text (part : Part) : IsPart part.text := by
  refine ⟨fun h => part.ne_nil ?_, fun c hc => part.clean c ?_⟩
  · rw [← String.toList_ofList (l := part.spelling), ← Part.text, h, String.toList_empty]
  · rwa [Part.text, String.toList_ofList] at hc

theorem IsPart.nested {outer simple : String} (ho : IsPart outer) (hs : IsPart simple) :
    IsPart (outer ++ "$" ++ simple) := by
  refine ⟨fun h => ?_, fun c hc => ?_⟩
  · simpa using congrArg String.toList h
  · simp only [String.toList_append, List.mem_append] at hc
    obtain (hc | hc) | hc := hc
    · exact ho.2 c hc
    · obtain rfl : c = '$' := by simpa using hc
      rfl
    · exact hs.2 c hc

/-- The name asked for can be written, as can the two parts of the name of a nested class. -/
def Call.IsWritable : Call → Prop
  | top name => IsPart name
  | suffix outer simple => IsPart outer ∧ IsPart simple

mutual

theorem Phrase.isWritable_of_mem_calls : (p : Phrase) → ∀ call ∈ p.calls, call.IsWritable
  | .stop, call, h => by simp [Phrase.calls] at h
  | .mark c more, call, h =>
    Phrase.isWritable_of_mem_calls more call (by simpa [Phrase.calls] using h)
  | .classType name body more, call, h => by
    simp only [Phrase.calls, List.mem_cons, List.mem_append] at h
    obtain rfl | h | h := h
    · exact name.isPart_text
    · exact Body.isWritable_of_mem_calls body name.isPart_text call h
    · exact Phrase.isWritable_of_mem_calls more call h

theorem Body.isWritable_of_mem_calls : (body : Body) → {name : String} → IsPart name →
    ∀ call ∈ body.calls name, call.IsWritable
  | .stop arguments, _, _, call, h => Phrase.isWritable_of_mem_calls arguments call h
  | .nested arguments simple body, name, hname, call, h => by
    simp only [Body.calls, List.mem_append, List.mem_cons] at h
    obtain h | rfl | h := h
    · exact Phrase.isWritable_of_mem_calls arguments call h
    · exact ⟨hname, simple.isPart_text⟩
    · exact Body.isWritable_of_mem_calls body (hname.nested simple.isPart_text) call h

end

/-- `inner` names a class nested in `outer`. -/
def IsNested (outer inner : String) : Prop := ∃ rest, rest ≠ "" ∧ inner = outer ++ "$" ++ rest

/-- What `f` gives can be written in the place of the name, and a nested class stays nested. -/
def Call.Respected (f : String → String) : Call → Prop
  | top name => IsPart (f name)
  | suffix outer simple =>
    IsPart (f (outer ++ "$" ++ simple)) ∧ IsNested (f outer) (f (outer ++ "$" ++ simple))

/-- Moving all classes into a package respects every name. -/
theorem Call.IsWritable.respected_append {package : String} {call : Call} (h : call.IsWritable)
    (hp : IsPart package) : call.Respected (package ++ ·) := by
  have happend : ∀ {name : String}, IsPart name → IsPart (package ++ name) := by
    intro name hname
    refine ⟨fun h => ?_, fun c hc => ?_⟩
    · exact hp.1 (String.append_eq_empty_iff.1 h).1
    · rw [String.toList_append, List.mem_append] at hc
      exact hc.elim (hp.2 c) (hname.2 c)
  cases call with
  | top name => exact happend h
  | suffix outer simple =>
    exact ⟨happend (h.1.nested h.2), simple, h.2.1, by simp only [String.append_assoc]⟩

section Renamed

variable {f : String → String}

mutual

/-- A phrase that is renamed by `f` has a phrase again, in which all names are replaced by those
that `f` gives. -/
theorem Phrase.exists_renamed : (p : Phrase) → (∀ call ∈ p.calls, call.Respected f) →
    ∃ q, p.Alike q ∧ q.text = p.rename (m := Id) f ∧
      ∀ (m : Type → Type) [Monad m] [LawfulMonad m] (g : String → m String),
        q.rename g = p.rename fun name => g (f name)
  | .stop, _ => ⟨.stop, .stop, rfl, fun _ _ _ _ => rfl⟩
  | .mark c more, h => by
    obtain ⟨q, hq, ht, hr⟩ := Phrase.exists_renamed more h
    exact ⟨.mark c q, .mark c hq, congrArg (c :: ·) ht, fun m _ _ g => by
      rw [Phrase.rename, hr, Phrase.rename]⟩
  | .classType name body more, h => by
    have hname : IsPart (f name.text) := h (.top name.text) (by simp [Phrase.calls])
    obtain ⟨part, hs, hp⟩ := hname.exists_part
    obtain ⟨b, hb, hbt, hbr⟩ := Body.exists_renamed body name.text fun call hc =>
      h call (by simp [Phrase.calls, hc])
    obtain ⟨q, hq, ht, hr⟩ := Phrase.exists_renamed more fun call hc =>
      h call (by simp [Phrase.calls, hc])
    refine ⟨.classType part b q, .classType name part hb hq, ?_, fun m _ _ g => ?_⟩
    · rw [Phrase.text, hs, hbt, ht]
      rfl
    · simp only [Phrase.rename, hp, hbr, hr]

theorem Body.exists_renamed : (body : Body) → (name : String) →
    (∀ call ∈ body.calls name, call.Respected f) →
    ∃ b, body.Alike b ∧ b.text = body.rename (m := Id) f name (f name) ∧
      ∀ (m : Type → Type) [Monad m] [LawfulMonad m] (g : String → m String) (mapped : String),
        b.rename g (f name) mapped = body.rename (fun name => g (f name)) name mapped
  | .stop arguments, name, h => by
    obtain ⟨q, hq, ht, hr⟩ := Phrase.exists_renamed arguments h
    exact ⟨.stop q, .stop hq, congrArg (· ++ [';']) ht, fun m _ _ g mapped => by
      rw [Body.rename, hr, Body.rename]⟩
  | .nested arguments simple body, name, h => by
    obtain ⟨q, hq, ht, hr⟩ := Phrase.exists_renamed arguments fun call hc =>
      h call (by simp [Body.calls, hc])
    obtain ⟨b, hb, hbt, hbr⟩ := Body.exists_renamed body (name ++ "$" ++ simple.text)
      fun call hc => h call (by simp [Body.calls, hc])
    have hinner : (Call.suffix name simple.text).Respected f := h _ (by simp [Body.calls])
    obtain ⟨⟨-, hclean⟩, rest, hne, heq⟩ := hinner
    have hrest : IsPart rest := ⟨hne, fun c hc => hclean c (by simp [heq, hc])⟩
    obtain ⟨part, hs, hp⟩ := hrest.exists_part
    refine ⟨.nested q part b, .nested simple part hq hb, ?_, fun m _ _ g mapped => ?_⟩
    · have hsimple : simpleName (f (name ++ "$" ++ simple.text)) (some (f name)) = rest := by
        have hbelow := simpleName_below (f name) part.ne_nil
        rwa [hs, String.ofList_toList, ← heq] at hbelow
      rw [Body.text, hbt, ht, hs, ← hsimple]
      rfl
    · simp only [Body.rename, hp, hr, ← heq, hbr]

end

end Renamed

end Signature

end JarRename
