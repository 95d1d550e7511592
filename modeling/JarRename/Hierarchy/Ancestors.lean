import Std.Data.HashSet
import JarRename.Hierarchy.Index

/-!
# Walks through the class hierarchy

`ancestors` lists the supertypes of a class, nearer ones first; `findOwner` looks for the class
that declares a member. Both walk breadth-first, the superclass before the interfaces, and see
every class once. `findCycle?` looks for a class that is its own supertype.

A class outside of the index has no known supertypes and declares nothing.
-/
namespace JarRename.ClassIndex

/-- The names that are not marked yet, each once, and the marks after them. -/
def unseen (seen : Std.HashSet BinaryName) (names : List BinaryName) :
    List BinaryName × Std.HashSet BinaryName :=
  let (fresh, seen) := names.foldl (fun (fresh, seen) name =>
    if seen.contains name then (fresh, seen) else (name :: fresh, seen.insert name)) ([], seen)
  (fresh.reverse, seen)

/-- Walks on from the classes in `queue`. `found` holds the names met so far, last one first. The
fuel bounds the number of indexed classes that are still to come. -/
def ancestorsFrom (index : ClassIndex) : (fuel : Nat) → (queue : List ClassSummary) →
    (seen : Std.HashSet BinaryName) → (found : List BinaryName) → List BinaryName
  | 0, _, _, found => found.reverse
  | _ + 1, [], _, found => found.reverse
  | fuel + 1, summary :: queue, seen, found =>
    let (fresh, seen) := unseen seen summary.supertypes
    ancestorsFrom index fuel (queue ++ fresh.filterMap index.get?) seen (fresh.reverse ++ found)

/-- Every supertype of a class, itself left out, in breadth-first order. -/
def ancestors (index : ClassIndex) (start : String) : List BinaryName :=
  match index.find? start with
  | none => []
  | some summary =>
    index.ancestorsFrom (index.size + 1) [summary]
      (Std.HashSet.emptyWithCapacity.insert summary.name) []

/-- Looks for a declaration in the classes in `queue` and further on. -/
def findOwnerFrom (index : ClassIndex) (kind : MemberKind) (member : MemberKey) : (fuel : Nat) →
    (queue : List ClassSummary) → (seen : Std.HashSet BinaryName) → Option BinaryName
  | 0, _, _ => none
  | _ + 1, [], _ => none
  | fuel + 1, summary :: queue, seen =>
    if summary.declares kind member then some summary.name
    else
      let (fresh, seen) := unseen seen summary.supertypes
      findOwnerFrom index kind member fuel (queue ++ fresh.filterMap index.get?) seen

/-- The first class that declares a member, from `start` on in breadth-first order. -/
def findOwner (index : ClassIndex) (start : String) (kind : MemberKind) (member : MemberKey) :
    Option BinaryName :=
  match index.find? start with
  | none => none
  | some summary =>
    index.findOwnerFrom kind member (index.size + 1) [summary]
      (Std.HashSet.emptyWithCapacity.insert summary.name)

/-- Whether subclasses can override a method that `owner` declares. Initializers, private methods
and static methods cannot be overridden; all others can, for what the index knows. -/
def isInheritable (index : ClassIndex) (owner : String) (method : MemberKey) : Bool :=
  if method.name.isInitializer then false
  else match (index.find? owner).bind fun summary => summary.methods[method]? with
    | some flags => !(AccessFlags.isPrivate flags || AccessFlags.isStatic flags)
    | none => true

/-- How far the search for cycles is with a class. -/
inductive Visit where
  /-- The search stands below the class. -/
  | entered
  | done
  deriving DecidableEq, Repr, Inhabited

/-- Searches depth-first. `path` holds the classes that have been entered, the last one first,
each with the supertypes that are still to be looked at. An error names a class on a cycle. -/
def searchCycle (index : ClassIndex) : (fuel : Nat) →
    (path : List (BinaryName × List BinaryName)) → (visits : Std.HashMap BinaryName Visit) →
    Except BinaryName (Std.HashMap BinaryName Visit)
  | 0, _, visits => .ok visits
  | _ + 1, [], visits => .ok visits
  | fuel + 1, (name, []) :: path, visits => searchCycle index fuel path (visits.insert name .done)
  | fuel + 1, (name, next :: rest) :: path, visits =>
    match visits[next]? with
    | some .entered => .error next
    | some .done => searchCycle index fuel ((name, rest) :: path) visits
    | none =>
      match index.get? next with
      | none => searchCycle index fuel ((name, rest) :: path) visits
      | some summary =>
        searchCycle index fuel ((next, summary.supertypes) :: (name, rest) :: path)
          (visits.insert next .entered)

/-- More steps than a search takes: one for each class and one for each supertype of a class. -/
def searchSteps (index : ClassIndex) : Nat :=
  index.toList.foldl (fun n summary => n + summary.supertypes.length + 1) 1

/-- A class that can reach itself through supertypes, if there is one. The search starts from each
of `roots` in turn. -/
def findCycleFrom? (index : ClassIndex) (roots : List BinaryName) : Option BinaryName :=
  let steps := index.searchSteps
  let search := roots.foldlM (fun (visits : Std.HashMap BinaryName Visit) root =>
    match visits[root]?, index.get? root with
    | none, some summary =>
      index.searchCycle steps [(root, summary.supertypes)] (visits.insert root .entered)
    | _, _ => .ok visits) ∅
  match search with
  | .ok _ => none
  | .error name => some name

def findCycle? (index : ClassIndex) : Option BinaryName := index.findCycleFrom? index.names

end JarRename.ClassIndex

namespace JarRename

/-- An order in which the classes of an index are gone through. A hash table fixes none: it may be a
different one each time that the program runs. -/
structure ClassOrder where
  names : ClassIndex → List BinaryName
  perm : ∀ index, (names index).Perm index.names

/-- The order in which a table here lists its classes. -/
def ClassOrder.ofTable : ClassOrder := ⟨ClassIndex.names, fun _ => .refl _⟩

end JarRename
