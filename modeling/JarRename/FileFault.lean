/-!
# Failures of a file system
-/
namespace JarRename

/-- Why a file system refuses an operation. -/
inductive FileFault where
  | notFound
  | notFolder
  | isFolder
  | nameTooLong
  /-- The end of the path is not a name of its own, so that nothing can be moved there. -/
  | busy
  /-- A path with the character zero, where something is to be opened. -/
  | zeroCharacter
  /-- A path with the character zero, where something is to be moved. -/
  | invalidPath
  /-- A reason that does not follow from what is stored, such as a lack of space. -/
  | other (text : String)
  /-- A reason that is given with the path at which it came up. -/
  | atPath (cause : FileFault) (path : String)
  deriving DecidableEq, Repr, Inhabited

def FileFault.message : FileFault → String
  | notFound => "No such file or directory (os error 2)"
  | notFolder => "Not a directory (os error 20)"
  | isFolder => "Is a directory (os error 21)"
  | nameTooLong => "File name too long (os error 36)"
  | busy => "Device or resource busy (os error 16)"
  | zeroCharacter => "file name contained an unexpected NUL byte"
  | invalidPath => "Invalid argument (os error 22)"
  | other text => text
  | atPath cause path => cause.message ++ " at path \"" ++ path ++ "\""

end JarRename
