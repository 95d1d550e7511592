/-!
# Vectors addressed by slots

Every element of a `SlotVec` takes up as many slots as it is wide, and an element is addressed by
its first slot. Elements are only ever added at the end or replaced by one of the same width, so
no address ever changes.
-/
namespace JarRename

/-- Elements that take up a number of slots. -/
class HasWidth (α : Type) where
  width : α → Nat

export HasWidth (width)

/-- Elements with their addresses, and the address of the next element. -/
structure SlotVec (α : Type) where
  entries : Array (Nat × α)
  next : Nat
  deriving Repr, Inhabited

/-- Why an address does not name an element that can be read or replaced. -/
inductive SlotError where
  /-- The address lies before the element with this index, or inside the one before it. -/
  | invalidOffset (index : Nat)
  | incompatibleWidth (new old : Nat)
  | tooLarge
  deriving DecidableEq, Repr, Inhabited

namespace SlotVec

variable {α : Type}

/-- The vector without elements whose first element gets the address `start`. -/
def emptyAt (start : Nat) : SlotVec α := ⟨#[], start⟩

def size (v : SlotVec α) : Nat := v.entries.size

def isEmpty (v : SlotVec α) : Bool := v.entries.isEmpty

/-- The elements with their addresses, in order. -/
def toList (v : SlotVec α) : List (Nat × α) := v.entries.toList

/-- Number of addresses. An address is a machine word, so the sum of an address and a width wraps
around where it does not fit. -/
def addressCount : Nat := 0x10000000000000000

/-- Adds an element; its address was `v.next`. -/
def push [HasWidth α] (v : SlotVec α) (x : α) : SlotVec α :=
  ⟨v.entries.push (v.next, x), (v.next + width x) % addressCount⟩

/-- Number of elements from `low` to `high` whose address is at most `offset`, plus `low`. The
addresses ascend, so the range is halved until nothing is left of it. -/
def countUpTo (entries : Array (Nat × α)) (offset low high : Nat) (bound : high ≤ entries.size) :
    Nat :=
  if h : low < high then
    let middle := (low + high) / 2
    have inside : middle < entries.size := by omega
    if entries[middle].1 ≤ offset then
      countUpTo entries offset (middle + 1) high bound
    else
      countUpTo entries offset low middle (by omega)
  else low
termination_by high - low

/-- The index of the element at an address. -/
def indexOf (v : SlotVec α) (offset : Nat) : Except SlotError Nat :=
  let count := countUpTo v.entries offset 0 v.entries.size (Nat.le_refl _)
  match v.entries[count - 1]? with
  | none => .error .tooLarge
  | some (address, _) =>
    if address = offset then .ok (count - 1)
    else if count = v.entries.size then .error .tooLarge
    else .error (.invalidOffset count)

/-- The index and the value of the element at an address. -/
def get (v : SlotVec α) (offset : Nat) : Except SlotError (Nat × α) :=
  match v.indexOf offset with
  | .error e => .error e
  | .ok i =>
    match v.entries[i]? with
    | some (_, x) => .ok (i, x)
    | none => .error .tooLarge

/-- Replaces the element at an address by one of the same width. Returns its index, and the vector
as it is afterwards also where that fails. -/
def set [HasWidth α] (v : SlotVec α) (offset : Nat) (x : α) : Except SlotError Nat × SlotVec α :=
  match v.get offset with
  | .error e => (.error e, v)
  | .ok (i, old) =>
    if width x = width old then
      let ⟨entries, next⟩ := v
      (.ok i, ⟨entries.modify i fun (address, _) => (address, x), next⟩)
    else (.error (.incompatibleWidth (width x) (width old)), v)

/-- Whether two vectors hold the same elements at the same addresses. -/
def sameEntries [BEq α] (v w : SlotVec α) : Bool := v.entries == w.entries

/-- The text `[#1 = x, #2 = y]`, with `describeElement` giving the text of an element. -/
def describe (describeElement : α → String) (v : SlotVec α) : String :=
  "[" ++ String.intercalate ", "
    (v.toList.map fun (address, x) => s!"#{address} = {describeElement x}") ++ "]"

@[simp] theorem toList_emptyAt (start : Nat) : (emptyAt start : SlotVec α).toList = [] := rfl

@[simp] theorem toList_push [HasWidth α] (v : SlotVec α) (x : α) :
    (v.push x).toList = v.toList ++ [(v.next, x)] := by
  simp [push, toList]

theorem next_push [HasWidth α] {v : SlotVec α} {x : α} (room : v.next + width x < addressCount) :
    (v.push x).next = v.next + width x := Nat.mod_eq_of_lt room

end SlotVec

end JarRename
