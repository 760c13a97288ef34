import DeferLang.Disk.Basic
import DeferLang.Text.Bytes
import DeferLang.Text.Path

/-!
# File trees

A tree of files as a value.  Directories are not kept by themselves: they are
the places on the way to a file, and the directory in which paths start.
-/

namespace DeferLang

/-- A place in a tree: the names on the way from the root. -/
abbrev Place := List String

/-- A tree of files. -/
structure FileTree where
  /-- The directory in which relative paths start. -/
  base : Place := []
  files : List (Place × List UInt8) := []

/-- What a place holds. -/
inductive FileNode where
  | directory
  | file (bytes : List UInt8)

namespace FileTree

/-- What the tree holds at a place. -/
def node? (t : FileTree) (place : Place) : Option FileNode :=
  match t.files.lookup place with
  | some bytes => some (.file bytes)
  | none =>
    if (t.base :: t.files.map Prod.fst).any place.isPrefixOf then some .directory else none

/-- The largest number of bytes in a name. -/
def maxName : Nat :=
  255

/-- The largest number of bytes in a path. -/
def maxPath : Nat :=
  4095

/-- Follow the parts of a path.  Everything on the way must be a directory; what the last part
leads to need not exist. -/
def follow (t : FileTree) : Place → List String → Except FileError Place
  | place, [] => .ok place
  | place, part :: parts =>
    match t.node? place with
    | none => .error .notFound
    | some (.file _) => .error .notDirectory
    | some .directory =>
      if part = ".." then t.follow place.dropLast parts
      else if part = "." then t.follow place parts
      else if byteLength part.toList > maxName then .error .nameTooLong
      else t.follow (place ++ [part]) parts

/-- The place that a path leads to.  With a slash at its end it must be a directory. -/
def resolve (t : FileTree) (path : String) : Except FileError Place :=
  if path.toList.contains '\x00' then .error .nulInName
  else if byteLength path.toList > maxPath then .error .nameTooLong
  else
    match pathParts path with
    | [] => .error .notFound
    | [""] => .error .notFound
    | start :: parts =>
      let steps := (start :: parts).filter (· ≠ "")
      let ending := if (start :: parts).getLast? = some "" then ["."] else []
      t.follow (if start = "" then [] else t.base) (steps ++ ending)

def read (t : FileTree) (path : String) : Except FileError (List UInt8) := do
  match t.node? (← t.resolve path) with
  | none => throw .notFound
  | some .directory => throw .isDirectory
  | some (.file bytes) => return bytes

def isFile (t : FileTree) (path : String) : Bool :=
  match t.read path with
  | .ok _ => true
  | .error _ => false

/-- The tree with a file at a place, in place of one that is there. -/
def put (t : FileTree) (place : Place) (bytes : List UInt8) : FileTree :=
  { t with files := (place, bytes) :: t.files.filter (·.1 ≠ place) }

def write (t : FileTree) (path : String) (bytes : List UInt8) : Except FileError FileTree := do
  let place ← t.resolve path
  match t.node? place with
  | some .directory => throw .isDirectory
  | some (.file _) => return t.put place bytes
  | none => return t.put place bytes

/-- The tree with a file at a path, and the directories on the way. -/
def add (t : FileTree) (path : String) (bytes : List UInt8) : FileTree :=
  t.put (t.base ++ (pathParts path).filter isStep) bytes

end FileTree

/-- Access to the files of a tree. -/
def Disk.ofTree : Disk (StateM FileTree) where
  read path := return (← get).read path
  write path bytes := do
    match (← get).write path bytes with
    | .ok t =>
      set t
      return .ok ()
    | .error e => return .error e
  isFile path := return (← get).isFile path

end DeferLang
