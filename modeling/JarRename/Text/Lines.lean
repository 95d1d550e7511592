import JarRename.Bytes
import JarRename.Text.Cut

/-!
# Lines of texts and files

Lines end with a line feed, before which a carriage return does not count. A file gives its lines
one by one, so that those before bytes that are no UTF-8 can still be used.
-/
namespace JarRename.Text

/-- The lines of a sequence in which lines end with `feed`, with or without a `carriage` before
it. What stands after the last end is a line too, unless it is empty. -/
def linesWith {α : Type} [BEq α] (feed carriage : α) (xs : List α) : List (List α) :=
  let pieces := splitWhere (· == feed) xs
  let ended := pieces.dropLast.map fun line =>
    if line.getLast? == some carriage then line.dropLast else line
  match pieces.getLast? with
  | none | some [] => ended
  | some rest => ended ++ [rest]

def linesOf (text : String) : List String :=
  (linesWith '\n' '\r' text.toList).map String.ofList

def encodeUtf8 (text : String) : Bytes := text.toUTF8.toList

def decodeUtf8? (bytes : Bytes) : Option String := String.fromUTF8? ⟨bytes.toArray⟩

/-- The lines of a file; one that is no UTF-8 is absent. -/
def fileLines (bytes : Bytes) : List (Option String) :=
  (linesWith 10 13 bytes).map decodeUtf8?

end JarRename.Text
