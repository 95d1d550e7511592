import JarRename.Hierarchy.Ancestors

/-!
# Resolvers with a memory

A `Resolver` answers which class declares a member, for an index without cycles, and remembers its
answers.
-/
namespace JarRename

/-- A question: the class from which a member is reached, and the member. -/
structure MemberQuery where
  start : BinaryName
  kind : MemberKind
  member : MemberKey
  deriving DecidableEq, Hashable, Repr

structure Resolver where
  index : ClassIndex
  answers : Std.HashMap MemberQuery (Option BinaryName)
  deriving Inhabited

namespace Resolver

/-- A resolver that remembers nothing yet; the error names a class on a cycle. -/
def ofIndex (index : ClassIndex) : Except BinaryName Resolver :=
  match index.findCycle? with
  | none => .ok ⟨index, ∅⟩
  | some name => .error name

/-- The class that declares a member, and the resolver with the answer in its memory. -/
def resolve (resolver : Resolver) (start : String) (kind : MemberKind) (member : MemberKey) :
    Option BinaryName × Resolver :=
  match resolver.index.find? start with
  | none => (none, resolver)
  | some summary =>
    let query : MemberQuery := ⟨summary.name, kind, member⟩
    match resolver.answers[query]? with
    | some answer => (answer, resolver)
    | none =>
      let answer := resolver.index.findOwner start kind member
      (answer, { resolver with answers := resolver.answers.insert query answer })

end Resolver

end JarRename
