import JarRename.Text.Cut

/-!
# Modified UTF-8

The text encoding of class files: every UTF-16 unit of the text takes one to three bytes, and the
unit zero takes two, so that no encoded text holds a zero byte. A supplementary character is a
pair of surrogate units and takes six bytes. Decoding accepts the shortest form of a unit only.
-/
namespace JarRename.Text.ModifiedUtf8

/-- The UTF-16 units of a character: itself, or a high and a low surrogate. -/
def unitsOf (c : Char) : List Nat :=
  let n := c.toNat
  if n < 0x10000 then [n]
  else [0xD800 + (n - 0x10000) / 0x400, 0xDC00 + (n - 0x10000) % 0x400]

/-- The bytes of one unit. -/
def encodeUnit (u : Nat) : List UInt8 :=
  if u ≠ 0 ∧ u < 0x80 then [UInt8.ofNat u]
  else if u < 0x800 then [UInt8.ofNat (0xC0 + u / 0x40), UInt8.ofNat (0x80 + u % 0x40)]
  else [UInt8.ofNat (0xE0 + u / 0x1000), UInt8.ofNat (0x80 + u / 0x40 % 0x40),
    UInt8.ofNat (0x80 + u % 0x40)]

def encode (cs : List Char) : List UInt8 := (cs.flatMap unitsOf).flatMap encodeUnit

/-- The low six bits of a continuation byte. -/
def continuation? (b : UInt8) : Option Nat :=
  if 0x80 ≤ b.toNat ∧ b.toNat < 0xC0 then some (b.toNat - 0x80) else none

/-- Takes the first unit off a sequence of bytes. -/
def decodeUnit? : List UInt8 → Option (Nat × List UInt8)
  | [] => none
  | a :: rest =>
    let n := a.toNat
    if n ≠ 0 ∧ n < 0x80 then some (n, rest)
    else if 0xC0 ≤ n ∧ n < 0xE0 then
      match rest with
      | b :: rest => do
        let u := (n - 0xC0) * 0x40 + (← continuation? b)
        if u ≠ 0 ∧ u < 0x80 then none else some (u, rest)
      | _ => none
    else if 0xE0 ≤ n ∧ n < 0xF0 then
      match rest with
      | b :: c :: rest => do
        let u := (n - 0xE0) * 0x1000 + (← continuation? b) * 0x40 + (← continuation? c)
        if u < 0x800 then none else some (u, rest)
      | _ => none
    else none

theorem length_lt_of_decodeUnit? {bytes rest : List UInt8} {u : Nat}
    (h : decodeUnit? bytes = some (u, rest)) : rest.length < bytes.length := by
  unfold decodeUnit? at h
  split at h
  · simp at h
  · simp only at h
    split at h
    · simp_all
    · split at h
      · split at h
        · simp only [Option.bind_eq_bind, Option.bind_eq_some_iff] at h
          obtain ⟨x, -, h⟩ := h
          split at h
          · simp at h
          · simp only [Option.some.injEq, Prod.mk.injEq] at h
            rw [← h.2]
            simp only [List.length_cons]
            omega
        · simp at h
      · split at h
        · split at h
          · simp only [Option.bind_eq_bind, Option.bind_eq_some_iff] at h
            obtain ⟨x, -, y, -, h⟩ := h
            split at h
            · simp at h
            · simp only [Option.some.injEq, Prod.mk.injEq] at h
              rw [← h.2]
              simp only [List.length_cons]
              omega
          · simp at h
        · simp at h

/-- All units of a sequence of bytes; `seen` holds the units read so far, last one first. -/
def decodeUnits? (seen : List Nat) (bytes : List UInt8) : Option (List Nat) :=
  match bytes with
  | [] => some seen.reverse
  | a :: rest =>
    match _h : decodeUnit? (a :: rest) with
    | none => none
    | some (u, rest) => decodeUnits? (u :: seen) rest
termination_by bytes.length
decreasing_by exact length_lt_of_decodeUnit? _h

def isHigh (u : Nat) : Bool := 0xD800 ≤ u && u < 0xDC00

def isLow (u : Nat) : Bool := 0xDC00 ≤ u && u < 0xE000

/-- The characters that units spell; a surrogate without its partner spells none. `seen` holds the
characters read so far, last one first. -/
def joinUnits? (seen : List Char) : List Nat → Option (List Char)
  | [] => some seen.reverse
  | [u] => if isHigh u || isLow u then none else joinUnits? (Char.ofNat u :: seen) []
  | u :: v :: rest =>
    if isHigh u then
      if isLow v then
        joinUnits? (Char.ofNat (0x10000 + (u - 0xD800) * 0x400 + (v - 0xDC00)) :: seen) rest
      else none
    else if isLow u then none
    else joinUnits? (Char.ofNat u :: seen) (v :: rest)

def decode? (bytes : List UInt8) : Option (List Char) :=
  (decodeUnits? [] bytes).bind (joinUnits? [])

/-- Number of bytes that a character takes. -/
def width (c : Char) : Nat :=
  if c.toNat = 0 then 2 else if c.utf8Size = 4 then 6 else c.utf8Size

/-- Number of bytes that `encode` gives. -/
def length (cs : List Char) : Nat := cs.foldl (fun n c => n + width c) 0

end JarRename.Text.ModifiedUtf8
