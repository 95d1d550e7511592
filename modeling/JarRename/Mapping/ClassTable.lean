import Std.Data.HashMap
import Std.Data.HashSet
import JarRename.Name

/-!
# New names of classes

A nested class without an entry of its own follows the nearest class around it that has one. To
find that class, `mapName` walks over the name once, from its end. The table knows how long its
names are, and texts of another length are not looked up. `mapName_eq` says what comes out without
speaking of the walk.
-/
namespace JarRename

structure ClassTable where
  names : Std.HashMap BinaryName BinaryName
  lengths : Std.HashSet Nat
  length_mem : ∀ name ∈ names, name.text.length ∈ lengths

namespace ClassTable

def empty : ClassTable := ⟨∅, ∅, by simp⟩

instance : Inhabited ClassTable := ⟨empty⟩

def insert (table : ClassTable) (name mapped : BinaryName) : ClassTable where
  names := table.names.insert name mapped
  lengths := table.lengths.insert name.text.length
  length_mem := fun other h => by
    rcases Std.HashMap.mem_insert.1 h with h | h
    · simp [eq_of_beq h]
    · exact Std.HashSet.mem_insert.2 (.inr (table.length_mem other h))

def size (table : ClassTable) : Nat := table.names.size

def toList (table : ClassTable) : List (BinaryName × BinaryName) := table.names.toList

/-- The entry of exactly this class. -/
def get? (table : ClassTable) (name : String) : Option BinaryName := do
  table.names[← BinaryName.ofString? name]?

/-- The entry of a class whose name has the given length and is written last character first. -/
def getReversed? (table : ClassTable) (length : Nat) (name : List Char) : Option BinaryName :=
  if table.lengths.contains length then table.get? (String.ofList name.reverse) else none

/-- Looks for an entry of a class around a nested class, and returns the new name of the nested
class. `outer` is the part of the name that is still to be walked, last character first, and
`length` its length. `rest` is what follows it; whether it begins with something other than a `$`
is what `nested` tells. -/
def around? (table : ClassTable) :
    (outer : List Char) → (length : Nat) → (nested : Bool) → (rest : List Char) →
      Option (List Char)
  | [], _, _, _ => none
  | c :: outer, length, nested, rest =>
    if c != '$' then around? table outer (length - 1) true (c :: rest)
    else if !nested || outer.isEmpty || outer.head? == some '/' then none
    else match table.getReversed? (length - 1) outer with
      | some mapped => some (mapped.text.toList ++ '$' :: rest)
      | none => around? table outer (length - 1) false ('$' :: rest)

/-- The new name of a class. -/
def mapName (table : ClassTable) (name : List Char) : List Char :=
  let reversed := name.reverse
  match table.getReversed? name.length reversed with
  | some mapped => mapped.text.toList
  | none => (table.around? reversed name.length false []).getD name

/-- Cuts the name of a nested class at its last `$` into the class around it and the rest. Both
have to be there, and a `$` at the beginning of a class name does not count. -/
def enclosing? (name : List Char) : Option (List Char × List Char) :=
  match Text.cutLast? '$' name with
  | none => none
  | some (outer, nested) =>
    if outer.isEmpty || nested.isEmpty || outer.getLast? == some '/' then none
    else some (outer, nested)

theorem eq_append_of_enclosing? {name outer nested : List Char}
    (h : enclosing? name = some (outer, nested)) : name = outer ++ '$' :: nested := by
  unfold enclosing? at h
  split at h
  · simp at h
  · split at h
    · simp at h
    · rename_i cut _
      simp only [Option.some.injEq, Prod.mk.injEq] at h
      obtain ⟨rfl, rfl⟩ := h
      exact (Text.eq_append_of_cutLast? cut).1

/-- Only names of a known length have an entry. -/
theorem getReversed?_eq (table : ClassTable) (name : List Char) :
    table.getReversed? name.length name = table.get? (String.ofList name.reverse) := by
  unfold getReversed?
  split
  · rfl
  · rename_i unknown
    unfold get? BinaryName.ofString?
    cases h : BinaryName.ofString (String.ofList name.reverse) with
    | error e => rfl
    | ok found =>
      have absent : found ∉ table.names := fun mem => unknown <| by
        simpa [BinaryName.text_of_ofString h] using table.length_mem found mem
      simp [Except.toOption, absent]

/-- The walk up to the last `$` of what is still to be walked. -/
theorem around?_eq_of_cut? (table : ClassTable) (outer rest : List Char) (nested : Bool) :
    table.around? outer outer.length nested rest =
      match Text.cut? '$' outer with
      | none => none
      | some (passed, left) =>
        if (passed.isEmpty && !nested) || left.isEmpty || left.head? == some '/' then none
        else match table.get? (String.ofList left.reverse) with
          | some mapped => some (mapped.text.toList ++ '$' :: (passed.reverse ++ rest))
          | none => table.around? left left.length false ('$' :: (passed.reverse ++ rest)) := by
  induction outer generalizing nested rest with
  | nil => rfl
  | cons c outer ih =>
    by_cases hc : c = '$'
    · subst hc
      simp [around?, Text.cut?, getReversed?_eq]
    · simp only [around?, bne_iff_ne, ne_eq, hc, not_false_eq_true, if_true, List.length_cons,
        Nat.add_sub_cancel, ih, Text.cut?_cons_of_ne hc]
      cases Text.cut? '$' outer with
      | none => rfl
      | some cut => simp

/-- What follows the walked part stands at the end of the result. -/
theorem around?_append (table : ClassTable) (outer rest : List Char) (length : Nat)
    (nested : Bool) :
    table.around? outer length nested rest =
      (table.around? outer length nested []).map (· ++ rest) := by
  suffices general : ∀ front, table.around? outer length nested (front ++ rest) =
      (table.around? outer length nested front).map (· ++ rest) from general []
  induction outer generalizing length nested with
  | nil => intro front; rfl
  | cons c outer ih =>
    intro front
    simp only [around?]
    split
    · exact ih _ _ (c :: front)
    · split
      · rfl
      · split
        · simp
        · exact ih _ _ ('$' :: front)

/-- The new name of a class: that of its own entry, or else its place below the new name of the
class around it. -/
theorem mapName_eq (table : ClassTable) (name : List Char) :
    table.mapName name =
      match table.get? (String.ofList name) with
      | some mapped => mapped.text.toList
      | none =>
        match enclosing? name with
        | none => name
        | some (outer, nested) => table.mapName outer ++ '$' :: nested := by
  have own (name : List Char) : table.getReversed? name.length name.reverse =
      table.get? (String.ofList name) := by simpa using getReversed?_eq table name.reverse
  have walk := around?_eq_of_cut? table name.reverse [] false
  rw [List.length_reverse] at walk
  rw [mapName, own, walk]
  cases table.get? (String.ofList name) with
  | some mapped => rfl
  | none =>
    unfold enclosing? Text.cutLast?
    cases h : Text.cut? '$' name.reverse with
    | none => rfl
    | some cut =>
      obtain ⟨passed, left⟩ := cut
      have whole : name = left.reverse ++ '$' :: passed.reverse := by
        have := congrArg List.reverse (Text.eq_append_of_cut? h).1
        simpa using this
      have same : (passed.isEmpty && !false || left.isEmpty || left.head? == some '/') =
          (left.reverse.isEmpty || passed.reverse.isEmpty || left.reverse.getLast? == some '/') := by
        simp [Bool.or_comm passed.isEmpty]
      simp only [Option.map_some, same]
      split
      · rfl
      · dsimp only
        rw [mapName, own, around?_append, List.reverse_reverse, List.length_reverse]
        cases table.get? (String.ofList left.reverse) with
        | some mapped => simp
        | none =>
          cases table.around? left left.length false [] with
          | none => simp [whole]
          | some mapped => simp

end ClassTable

end JarRename
