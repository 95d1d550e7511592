/-!
# Bytes in messages

How messages write single bytes and words: hexadecimal digits, and a byte as a quoted character.
-/
namespace JarRename.Text

/-- Hexadecimal digits, capital letters, at least `least` of them. -/
def hexadecimal (least n : Nat) : String :=
  let digits := (Nat.toDigits 16 n).map Char.toUpper
  String.ofList (List.replicate (least - digits.length) '0' ++ digits)

/-- Whether the character with this number, below 256, is shown as it is: control characters, the
space without break and the soft hyphen are not. -/
def isShown (n : Nat) : Bool := (0x20 ≤ n && n < 0x7F) || (0xA0 < n && n != 0xAD)

/-- A byte as a character in single quotes. The quote, the backslash and what is not shown are
written as escapes. -/
def quoteByte (b : UInt8) : String :=
  let n := b.toNat
  let inner :=
    if n == 0 then "\\0"
    else if n == 9 then "\\t"
    else if n == 10 then "\\n"
    else if n == 13 then "\\r"
    else if n == 0x27 then "\\'"
    else if n == 0x5C then "\\\\"
    else if isShown n then String.ofList [Char.ofNat n]
    else "\\u\x7b" ++ String.ofList (Nat.toDigits 16 n) ++ "\x7d"
  "'" ++ inner ++ "'"

end JarRename.Text
