import ScriptCheck.Files

/-!
# File trees

The files of a disk as a value. A place in the tree is the list of names that lead to it
from the root. A directory is there if something is in it.
-/

namespace ScriptCheck

/-- Files at their places. -/
structure FileTree where
  files : List (List String × ByteArray)

namespace FileTree

def empty : FileTree := ⟨[]⟩

/-- What is at a place. -/
inductive Entry where
  | missing
  | directory
  | file (content : ByteArray)
  /-- A device that takes any text and holds none. -/
  | drain
  /-- A device that takes no text. -/
  | full

/-- The working directory, where paths begin that are not absolute. Its own name is empty,
so that no path leads there by name. -/
def home : List String := ["tmp", ""]

/-- The directories that every tree has at its root. -/
def rootNames : List String :=
  ["bin", "boot", "dev", "etc", "home", "lib", "media", "mnt", "opt", "proc", "root", "run",
   "sbin", "srv", "sys", "tmp", "usr", "var"]

/-- The devices that every tree has. -/
def devices : List (List String × Entry) :=
  [(["dev", "null"], .drain), (["dev", "zero"], .drain), (["dev", "full"], .full)]

/-- Is a place a directory? -/
def hasDirectory (t : FileTree) (place : List String) : Bool :=
  place.isPrefixOf home || rootNames.any (place == [·]) ||
    t.files.any fun (path, _) => place.isPrefixOf path

/-- Looks a place up. -/
def entry (t : FileTree) (place : List String) : Entry :=
  match t.files.lookup place, devices.lookup place with
  | some content, _ => .file content
  | none, some device => device
  | none, none => if t.hasDirectory place then .directory else .missing

/-- Puts a file at a place. -/
def put (t : FileTree) (place : List String) (content : ByteArray) : FileTree :=
  ⟨(place, content) :: t.files.filter fun (path, _) => path ≠ place⟩

/-- Puts a file into the working directory or a directory below it, which is made if it is
not there. -/
def add (t : FileTree) (path : String) (content : ByteArray) : FileTree :=
  t.put (home ++ Path.components path) content

/-- Looks a name up in a directory. -/
def find (t : FileTree) (dir : List String) (name : String) : Except FileError Entry :=
  if Path.nameLimit < name.utf8ByteSize then .error .nameTooLong
  else .ok (t.entry (dir ++ [name]))

/-- The directory one step on from another. -/
def enter (t : FileTree) (dir : List String) (step : String) : Except FileError (List String) :=
  if step = "." then .ok dir
  else if step = ".." then .ok dir.dropLast
  else do
    match ← t.find dir step with
    | .missing => .error .notFound
    | .directory => .ok (dir ++ [step])
    | _ => .error .notDirectory

/-- What a path leads to: a directory, by the root or by a step that has no name of its
own, or a name in a directory, which may or may not be there. -/
inductive Target where
  | directory
  | name (dir : List String) (name : String)

/-- Follows a path up to its last step. All steps before it lead through directories. -/
def resolve (t : FileTree) (path : String) : Except FileError Target := do
  if Path.holdsNul path then throw .nulInName
  if path.isEmpty then throw .notFound
  if Path.sizeLimit ≤ path.utf8ByteSize then throw .nameTooLong
  let steps := Path.steps path
  let dir ← steps.dropLast.foldlM t.enter (if Path.isAbsolute path then [] else home)
  match steps.getLast? with
  | none => return .directory
  | some step => return if step = "." ∨ step = ".." then .directory else .name dir step

/-- The content of a file. -/
def read (t : FileTree) (path : String) : Except FileError ByteArray := do
  match ← t.resolve path with
  | .directory => .error .isDirectory
  | .name dir name =>
    match ← t.find dir name with
    | .missing => .error .notFound
    | .directory => .error .isDirectory
    | .file content => if Path.endsInSlash path then .error .notDirectory else .ok content
    | .drain | .full => if Path.endsInSlash path then .error .notDirectory else .ok .empty

/-- The tree after writing a file, which replaces what the file held. -/
def write (t : FileTree) (path text : String) : Except FileError FileTree := do
  match ← t.resolve path with
  | .directory => .error .isDirectory
  | .name dir name =>
    if Path.endsInSlash path then .error .isDirectory
    else match ← t.find dir name with
      | .missing | .file _ => .ok (t.put (dir ++ [name]) text.toUTF8)
      | .directory => .error .isDirectory
      | .drain => .ok t
      | .full => .error .noSpace

/-- Access to a tree that is carried along. -/
def access : FileAccess (StateM FileTree) where
  read path := return (← get).read path
  write path text := do
    match (← get).write path text with
    | .ok t =>
      set t
      return .ok ()
    | .error e => return .error e

end FileTree

end ScriptCheck
