import JarRename.Renaming.Attributes
import JarRename.Renaming.Constants

/-!
# Renaming classes

Renames the constants of a class, then its fields, its methods and its attributes. Every index
that the bytecode holds stays valid.
-/
namespace JarRename

namespace Renaming

def renameMemberDeclaration (ctx : Context) (kind : MemberKind) (member : Member) : PoolM Member := do
  let nameText ← look (·.text member.name)
  let descriptorText ← look (·.text member.descriptor)
  let newName ← mapMemberName ctx.remapper kind ctx.className nameText descriptorText
  let name ← replaceText member.name nameText newName
  let descriptor ← ctx.text (descriptorKind kind) member.descriptor
  return ⟨member.flags, name, descriptor, ← member.attributes.mapM (renameAttribute ctx)⟩

/-- Renames the parts of a class of the given old name. -/
def renameParts (r : Remapper) (className : String) (fields methods : List Member)
    (attributes : List Attribute) : PoolM (List Member × List Member × List Attribute) := do
  let ctx : Context := ⟨r, className, ← renameConstants r⟩
  let fields ← fields.mapM (renameMemberDeclaration ctx .field)
  let methods ← methods.mapM (renameMemberDeclaration ctx .method)
  return (fields, methods, ← attributes.mapM (renameAttribute ctx))

end Renaming

namespace Remapper

/-- Renames every symbol of a class. Returns the new name of the class with it. -/
def renameClass (r : Remapper) (file : ClassFile) : Except ClassError (String × ClassFile) := do
  let className ← file.name
  match Renaming.renameParts r className file.fields file.methods file.attributes file.pool with
  | (.error e, _) => throw e
  | (.ok (fields, methods, attributes), pool) =>
    let file := { file with pool, fields, methods, attributes }
    return (← file.name, file)

/-- Renames every symbol of a class file, given as bytes. -/
def renameBytes (r : Remapper) (bytes : Bytes) : Except ClassError (String × Bytes) := do
  let (name, file) ← r.renameClass (← ClassFile.parse bytes)
  return (name, ← file.write)

end Remapper

end JarRename
