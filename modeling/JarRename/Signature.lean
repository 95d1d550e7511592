import JarRename.Name

/-!
# Generic signatures

A signature is renamed in one pass: `rename` copies it and hands every class name to a function
that gives the new one. The grammar is the union of class, method and field signatures: optional
type parameters, then a method type in parentheses or a sequence of reference types.

A nested class is written `Lpkg/Outer<TT;>.Inner;`. The name handed over is `pkg/Outer$Inner`, and
what is written after the point is the simple name of the new class below the new outer class.
-/
namespace JarRename

/-- What a signature lacks. -/
inductive SignatureFlaw where
  | markExpected (mark : Char)
  | identifierExpected
  | referenceExpected
  | classEndExpected
  | trailingInput
  deriving DecidableEq, Repr, Inhabited

def SignatureFlaw.message : SignatureFlaw → String
  | markExpected mark => s!"expected '{mark}'"
  | identifierExpected => "expected identifier"
  | referenceExpected => "expected reference type"
  | classEndExpected => "expected ';' or '.'"
  | trailingInput => "unexpected trailing input"

/-- A flaw of `source`, found `offset` bytes of UTF-8 from its beginning. -/
structure SignatureError where
  flaw : SignatureFlaw
  offset : Nat
  source : String
  deriving DecidableEq, Repr, Inhabited

def SignatureError.message (e : SignatureError) : String :=
  s!"{e.flaw.message} at offset {e.offset} of signature '{e.source}'"

namespace Signature

/-- The text written so far, last character first, and the text still to be read. -/
structure Cursor where
  written : List Char
  rest : List Char
  deriving Repr, Inhabited

/-- A flaw together with the text that stood at it. -/
structure Stop where
  flaw : SignatureFlaw
  rest : List Char
  deriving Repr, Inhabited

namespace Cursor

def write (cs : List Char) (cursor : Cursor) : Cursor :=
  { cursor with written := cs.reverse ++ cursor.written }

/-- Copies the next character, if there is one. -/
def copy (cursor : Cursor) : Cursor :=
  match cursor.rest with
  | [] => cursor
  | c :: rest => ⟨c :: cursor.written, rest⟩

def at? (c : Char) (cursor : Cursor) : Bool := cursor.rest.head? == some c

end Cursor

variable {m : Type → Type} [Monad m]

/-- Copies a part of a signature, in a monad in which class names are renamed. -/
abbrev Step (m : Type → Type) := Cursor → ExceptT Stop m Cursor

def fail {α : Type} (flaw : SignatureFlaw) (cursor : Cursor) : ExceptT Stop m α :=
  throw ⟨flaw, cursor.rest⟩

def expect (mark : Char) : Step m := fun cursor =>
  if cursor.at? mark then pure cursor.copy else fail (.markExpected mark) cursor

/-- Reads up to the next stop, or to the end, and writes nothing. -/
def identifier (isStop : Char → Bool) (cursor : Cursor) : ExceptT Stop m (List Char × Cursor) :=
  match cursor.rest.takeWhile (!isStop ·) with
  | [] => fail .identifierExpected cursor
  | name => pure (name, { cursor with rest := cursor.rest.dropWhile (!isStop ·) })

/-- Ends of an identifier inside a class type. -/
def endsClassName (c : Char) : Bool := c == '<' || c == '.' || c == ';'

def isBaseLetter (c : Char) : Bool :=
  c == 'B' || c == 'C' || c == 'D' || c == 'F' || c == 'I' || c == 'J' || c == 'S' || c == 'Z'

/-- A primitive type or a reference type. -/
def javaType (reference : Step m) : Step m := fun cursor =>
  match cursor.rest with
  | c :: _ => if isBaseLetter c then pure cursor.copy else reference cursor
  | [] => reference cursor

/-- The type arguments up to `>`, which is copied too. -/
def arguments (reference : Step m) : Nat → Step m
  | 0, cursor => fail .referenceExpected cursor
  | fuel + 1, cursor =>
    match cursor.rest with
    | '>' :: _ => pure cursor.copy
    | '*' :: _ => arguments reference fuel cursor.copy
    | '+' :: _ | '-' :: _ => do arguments reference fuel (← reference cursor.copy)
    | _ => do arguments reference fuel (← reference cursor)

/-- What follows the name of a class: type arguments and nested classes, up to `;`. `name` is
what was read so far and `mapped` what it was renamed to. -/
def classRest (rename : String → m String) (reference : Step m) :
    Nat → (name mapped : String) → Step m
  | 0, _, _, cursor => fail .classEndExpected cursor
  | fuel + 1, name, mapped, cursor => do
    let cursor ← if cursor.at? '<' then arguments reference fuel cursor.copy else pure cursor
    match cursor.rest with
    | ';' :: _ => pure cursor.copy
    | '.' :: _ =>
      let (simple, cursor) ← identifier endsClassName cursor.copy
      let inner := name ++ "$" ++ String.ofList simple
      let innerMapped ← rename inner
      let written := (simpleName innerMapped (some mapped)).toList
      classRest rename reference fuel inner innerMapped (cursor.write written)
    | _ => fail .classEndExpected cursor

/-- A class type, a type variable or an array type. The fuel bounds the depth of nesting. -/
def reference (rename : String → m String) : Nat → Step m
  | 0, cursor => fail .referenceExpected cursor
  | fuel + 1, cursor =>
    match cursor.rest with
    | 'L' :: _ => do
      let (name, cursor) ← identifier endsClassName cursor.copy
      let name := String.ofList name
      let mapped ← rename name
      classRest rename (reference rename fuel) (fuel + 1) name mapped (cursor.write mapped.toList)
    | 'T' :: _ => do
      let (name, cursor) ← identifier (· == ';') cursor.copy
      expect ';' (cursor.write name)
    | '[' :: _ => javaType (reference rename fuel) cursor.copy
    | _ => fail .referenceExpected cursor

/-- The interface bounds of a type parameter, each after a colon. -/
def bounds (reference : Step m) : Nat → Step m
  | 0, cursor => pure cursor
  | fuel + 1, cursor =>
    if cursor.at? ':' then do bounds reference fuel (← reference cursor.copy) else pure cursor

/-- The type parameters up to `>`, which is copied too. The class bound may be empty. -/
def typeParameters (reference : Step m) : Nat → Step m
  | 0, cursor => fail .identifierExpected cursor
  | fuel + 1, cursor => do
    let (name, cursor) ← identifier (· == ':') cursor
    let cursor ← expect ':' (cursor.write name)
    let cursor ←
      if cursor.at? 'L' || cursor.at? '[' || cursor.at? 'T' then reference cursor else pure cursor
    let cursor ← bounds reference fuel cursor
    if cursor.at? '>' then pure cursor.copy else typeParameters reference fuel cursor

/-- Parameter types up to `)`, which is copied too. -/
def parameters (reference : Step m) : Nat → Step m
  | 0, cursor => fail .referenceExpected cursor
  | fuel + 1, cursor =>
    if cursor.at? ')' then pure cursor.copy
    else do parameters reference fuel (← javaType reference cursor)

/-- Thrown types, each after a `^`. -/
def thrown (reference : Step m) : Nat → Step m
  | 0, cursor => pure cursor
  | fuel + 1, cursor =>
    if cursor.at? '^' then do thrown reference fuel (← reference cursor.copy) else pure cursor

/-- Reference types up to the end of the text. -/
def references (reference : Step m) : Nat → Step m
  | 0, cursor => pure cursor
  | fuel + 1, cursor =>
    if cursor.rest.isEmpty then pure cursor
    else do references reference fuel (← reference cursor)

/-- The whole signature. -/
def signature (reference : Step m) (fuel : Nat) : Step m := fun cursor => do
  let cursor ← if cursor.at? '<' then typeParameters reference fuel cursor.copy else pure cursor
  let cursor ←
    if cursor.at? '(' then do
      let cursor ← parameters reference fuel cursor.copy
      let cursor ← if cursor.at? 'V' then pure cursor.copy else javaType reference cursor
      thrown reference fuel cursor
    else do references reference fuel (← reference cursor)
  if cursor.rest.isEmpty then pure cursor else fail .trailingInput cursor

/-- Renames every class of a signature by `rename`, which runs once for each name, from left to
right. -/
def rename (rename : String → m String) (source : String) : m (Except SignatureError String) := do
  let cs := source.toList
  let fuel := cs.length + 1
  match ← (signature (reference rename fuel) fuel ⟨[], cs⟩).run with
  | .ok cursor => return .ok (String.ofList cursor.written.reverse)
  | .error stop =>
    return .error ⟨stop.flaw, Text.utf8Length cs - Text.utf8Length stop.rest, source⟩

end Signature

end JarRename
