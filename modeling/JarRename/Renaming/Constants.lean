import JarRename.Renaming.Text

/-!
# Renaming constants

Every constant that names a class or a member is replaced by one of its kind with new contents.
The replacements take place at the end, so that all owners are read under their old names.
-/
namespace JarRename.Renaming

/-- The constant to put in the place of another one. -/
def renameConstant (r : Remapper) : Constant → PoolM Constant
  | .classRef name => do
    let old ← look (·.text name)
    return .classRef (← replaceText name old (← r.mapClassConstant old))
  | .fieldRef owner nat => do
    return .fieldRef owner (← renameMember r .field (← look (·.className owner)) nat)
  | .methodRef owner nat isInterface => do
    return .methodRef owner (← renameMember r .method (← look (·.className owner)) nat) isInterface
  | .methodType descriptor => return .methodType (← renameText r .methodDescriptor descriptor)
  | .dynamic bootstrap nat => return .dynamic bootstrap (← renameDynamic r .fieldDescriptor nat)
  | .invokeDynamic bootstrap nat =>
    return .invokeDynamic bootstrap (← renameDynamic r .methodDescriptor nat)
  | other => return other

/-- The constants that change, with what they change to, the last one first. -/
def changes (r : Remapper) (found : List (PoolIndex × Constant × Constant)) :
    List (PoolIndex × Constant) → PoolM (List (PoolIndex × Constant × Constant))
  | [] => return found
  | (index, old) :: rest => do
    let new ← renameConstant r old
    changes r (if new = old then found else (index, old, new) :: found) rest

/-- Puts every new constant in its place. -/
def applyChanges : List (PoolIndex × Constant × Constant) → PoolM Unit
  | [] => return ()
  | (index, _, new) :: rest => do
    ConstantPool.set index new
    applyChanges rest

/-- The old names of class constants that change. -/
def oldNames (pool : ConstantPool) (changed : List (PoolIndex × Constant × Constant)) :
    Std.HashMap PoolIndex String :=
  changed.foldl (fun names (index, old, _) =>
    match old with
    | .classRef name =>
      match pool.text name with
      | .ok text => names.insert index text
      | .error _ => names
    | _ => names) ∅

/-- Renames the constants of a pool. Returns the old names of the class constants that changed. -/
def renameConstants (r : Remapper) : PoolM (Std.HashMap PoolIndex String) := do
  let constants ← look fun pool => .ok pool.toList
  let changed := (← changes r [] constants).reverse
  let names ← look fun pool => .ok (oldNames pool changed)
  applyChanges changed
  return names

end JarRename.Renaming
