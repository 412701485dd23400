/-!
# Files

Programs reach files through two operations, which may be carried out on a disk or on a
tree of files held as a value.
-/

namespace ScriptCheck

/-- Why a file cannot be read or written. -/
inductive FileError where
  | notFound
  | notDirectory
  | isDirectory
  | noSpace
  | nameTooLong
  /-- The path holds the character that ends names on a disk. -/
  | nulInName
  | other (text : String)
deriving DecidableEq, Inhabited

def FileError.describe : FileError → String
  | .notFound => "No such file or directory (os error 2)"
  | .notDirectory => "Not a directory (os error 20)"
  | .isDirectory => "Is a directory (os error 21)"
  | .noSpace => "No space left on device (os error 28)"
  | .nameTooLong => "File name too long (os error 36)"
  | .nulInName => "file name contained an unexpected NUL byte"
  | .other text => text

/-- The operations on files. -/
structure FileAccess (m : Type → Type) where
  read : String → m (Except FileError ByteArray)
  write : String → String → m (Except FileError Unit)

namespace Path

/-- What stands between the slashes of a path. -/
def steps (path : String) : List String := (path.splitOn "/").filter (· ≠ "")

/-- The steps of a path that lead anywhere. -/
def components (path : String) : List String := (steps path).filter (· ≠ ".")

/-- The last component, unless it leads back up. -/
def fileName? (path : String) : Option String :=
  (components path).getLast?.filter (· ≠ "..")

/-- A file name up to its last dot; a dot at the front does not count. -/
def dropExtension (name : String) : String :=
  match name.toList.reverse.dropWhile (· ≠ '.') with
  | _ :: c :: before => String.ofList (c :: before).reverse
  | _ => name

/-- The file name without its extension. -/
def stem? (path : String) : Option String := (fileName? path).map dropExtension

/-- A path from the root begins with a slash. -/
def isAbsolute (path : String) : Bool := path.toList.head? = some '/'

/-- A path that ends in a slash can only name a directory. -/
def endsInSlash (path : String) : Bool := path.toList.getLast? = some '/'

/-- No name on a disk holds the character that ends it there. -/
def holdsNul (path : String) : Bool := path.toList.contains '\x00'

/-- A path has fewer bytes than this. -/
def sizeLimit : Nat := 4096

/-- A name has no more bytes than this. -/
def nameLimit : Nat := 255

end Path

end ScriptCheck
