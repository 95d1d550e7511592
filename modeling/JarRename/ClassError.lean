import JarRename.Bytes
import JarRename.Descriptor.Parser
import JarRename.Signature
import JarRename.Text.Quoted

/-!
# Errors of class files

What can be wrong with a class file or with a change to one, as causes; `message` gives the text.
-/
namespace JarRename

/-- Address of a constant in a constant pool. -/
abbrev PoolIndex := UInt16

/-- What an index should have led to. -/
inductive Expected where
  | constant | replaceable | utf8 | classRef | nameAndType | poolEnd
  deriving DecidableEq, Repr, Inhabited

def Expected.text : Expected → String
  | constant => "pool"
  | replaceable => "replaceable"
  | utf8 => "Utf8"
  | classRef => "Class"
  | nameAndType => "NameAndType"
  | poolEnd => "pool end"

/-- Why a text in a class file is not a descriptor or a signature. -/
inductive TypeTextError where
  | descriptor (text : String) (cause : DescriptorError)
  | signature (cause : SignatureError)
  deriving DecidableEq, Repr, Inhabited

def TypeTextError.message : TypeTextError → String
  | descriptor text cause => s!"{text} ({cause.message})"
  | signature cause => cause.message

/-- Why the body of an attribute cannot be read. -/
inductive AttributeError where
  | unexpectedEnd
  | unknownTarget (target : UInt8)
  | unknownValueTag (tag : UInt8)
  | trailingBytes (count : Nat)
  deriving DecidableEq, Repr, Inhabited

instance : FormatError AttributeError := ⟨.unexpectedEnd⟩

/-- The text of the end of input. -/
def unexpectedEndText : String := "failed to fill whole buffer"

def AttributeError.message : AttributeError → String
  | unexpectedEnd => s!"I/O error: {unexpectedEndText}"
  | unknownTarget target =>
    s!"malformed 'TypeAnnotation' attribute: unknown target type 0x{Text.hexadecimal 2 target.toNat}"
  | unknownValueTag tag =>
    s!"malformed 'ElementValue' attribute: unknown element value tag {Text.quoteByte tag}"
  | trailingBytes count => s!"{count} unexpected trailing bytes"

inductive ClassError where
  | unexpectedEnd
  /-- A text has too many bytes for the length in front of it. -/
  | unwritableText (length : Nat)
  | badMagic (magic : UInt32)
  | unknownTag (index : PoolIndex) (tag : UInt8)
  | badIndex (index : PoolIndex) (expected : Expected)
  | undecodedText (index : PoolIndex)
  | badTypeText (cause : TypeTextError)
  | badName (cause : NameError)
  | textTooLong (length : Nat)
  | poolOverflow (offset : Nat)
  | malformedAttribute (name : String) (cause : AttributeError)
  | trailingBytes (count : Nat)
  deriving DecidableEq, Repr, Inhabited

instance : FormatError ClassError := ⟨.unexpectedEnd⟩

namespace ClassError

/-- The text of the failed transfer of bytes behind an error, where there is one. -/
def source? : ClassError → Option String
  | unexpectedEnd => some unexpectedEndText
  | unwritableText length =>
    some s!"UTF-8 constant of {length} bytes does not fit in a class file"
  | _ => none

def message (e : ClassError) : String :=
  match e with
  | unexpectedEnd | unwritableText _ => "I/O error: " ++ e.source?.getD ""
  | badMagic magic => s!"bad magic number 0x{Text.hexadecimal 8 magic.toNat}"
  | unknownTag index tag => s!"unknown constant tag {tag} at #{index}"
  | badIndex index expected => s!"constant #{index} is not a valid {expected.text} constant"
  | undecodedText index => s!"constant #{index} is not valid modified UTF-8"
  | badTypeText cause => s!"bad descriptor: {cause.message}"
  | badName cause => s!"bad name: {cause.message}"
  | textTooLong length => s!"UTF-8 constant of {length} bytes is too long"
  | poolOverflow offset => s!"constant pool overflow at offset {offset}"
  | malformedAttribute name cause => s!"malformed '{name}' attribute: {cause.message}"
  | trailingBytes count => s!"{count} unexpected trailing bytes after class file"

end ClassError

end JarRename
