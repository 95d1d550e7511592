/-!
# Byte sequences

Numbers are big-endian words. A `Reader` takes a value off the front of a byte sequence and
returns the rest. Writers are functions to `Bytes`; a count that is too large for its word wraps.
-/
namespace JarRename

abbrev Bytes := List UInt8

namespace Bytes

/-- The last `k` base-256 digits of `n`, most significant first. -/
def word : (k n : Nat) → Bytes
  | 0, _ => []
  | k + 1, n => word k (n / 256) ++ [UInt8.ofNat n]

/-- The number that a word spells. -/
def toNat (bytes : Bytes) : Nat := bytes.foldl (fun n b => n * 256 + b.toNat) 0

def u1 (n : UInt8) : Bytes := [n]

def u2 (n : UInt16) : Bytes := word 2 n.toNat

def u4 (n : UInt32) : Bytes := word 4 n.toNat

def u8 (n : UInt64) : Bytes := word 8 n.toNat

/-- The length of a list as a word of `k` bytes, then its elements. -/
def counted {α : Type} (k : Nat) (write : α → Bytes) (items : List α) : Bytes :=
  word k items.length ++ items.flatMap write

/-- Takes exactly `n` bytes; `seen` holds those taken so far, last one first. -/
def split? : (n : Nat) → (seen bytes : Bytes) → Option (Bytes × Bytes)
  | 0, seen, bytes => some (seen.reverse, bytes)
  | _ + 1, _, [] => none
  | n + 1, seen, b :: bytes => split? n (b :: seen) bytes

@[simp] theorem length_word (k n : Nat) : (word k n).length = k := by
  induction k generalizing n with
  | zero => rfl
  | succ k ih => simp [word, ih]

theorem split?_append (taken seen rest : Bytes) :
    split? taken.length seen (taken ++ rest) = some (seen.reverse ++ taken, rest) := by
  induction taken generalizing seen with
  | nil => simp [split?]
  | cons b taken ih => simp [split?, ih]

theorem eq_append_of_split? {n : Nat} {seen bytes taken rest : Bytes}
    (h : split? n seen bytes = some (taken, rest)) :
    ∃ next, next.length = n ∧ taken = seen.reverse ++ next ∧ bytes = next ++ rest := by
  fun_induction split? n seen bytes with
  | case1 => exact ⟨[], by simp_all⟩
  | case2 => simp at h
  | case3 n seen b bytes ih =>
    obtain ⟨next, hn, ht, hb⟩ := ih h
    exact ⟨b :: next, by simp [hn], by simp [ht], by simp [hb]⟩

end Bytes

/-- Errors of a format that can end too early. -/
class FormatError (ε : Type) where
  unexpectedEnd : ε

/-- Takes a value off the front of a byte sequence. -/
abbrev Reader (ε α : Type) := StateT Bytes (Except ε) α

namespace Reader

variable {ε α β : Type}

def take [FormatError ε] (n : Nat) : Reader ε Bytes := fun bytes =>
  match Bytes.split? n [] bytes with
  | some (taken, rest) => .ok (taken, rest)
  | none => .error FormatError.unexpectedEnd

def word [FormatError ε] (k : Nat) : Reader ε Nat := do return (← take k).toNat

def u1 [FormatError ε] : Reader ε UInt8 := do return UInt8.ofNat (← word 1)

def u2 [FormatError ε] : Reader ε UInt16 := do return UInt16.ofNat (← word 2)

def u4 [FormatError ε] : Reader ε UInt32 := do return UInt32.ofNat (← word 4)

def u8 [FormatError ε] : Reader ε UInt64 := do return UInt64.ofNat (← word 8)

/-- Runs a reader `n` times; `seen` holds the values read so far, last one first. -/
def times (reader : Reader ε α) : (n : Nat) → (seen : List α) → Bytes → Except ε (List α × Bytes)
  | 0, seen, bytes => .ok (seen.reverse, bytes)
  | n + 1, seen, bytes =>
    match reader bytes with
    | .error e => .error e
    | .ok (value, rest) => times reader n (value :: seen) rest

/-- A list behind its length, which is a word of `k` bytes. -/
def counted [FormatError ε] (k : Nat) (reader : Reader ε α) : Reader ε (List α) := do
  times reader (← word k) []

end Reader

end JarRename
