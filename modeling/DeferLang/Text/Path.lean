/-!
# Paths

A path is a text whose parts are divided by slashes.  Empty parts and single
dots say nothing, except at the start, and two dots name the directory above.
-/

namespace DeferLang

/-- The texts between the slashes of a path. -/
def pathParts (path : String) : List String :=
  (path.toList.splitOn '/').map String.ofList

/-- Whether a part of a path says where to go. -/
def isStep (part : String) : Bool :=
  part ≠ "" ∧ part ≠ "."

/-- The name of the file that a path leads to, unless the path ends in a directory. -/
def fileName? (path : String) : Option String :=
  match ((pathParts path).filter isStep).getLast? with
  | none => none
  | some name => if name = ".." then none else some name

/-- Leave out the parts at the end that say nothing. -/
def trimParts (parts : List String) : List String :=
  (parts.reverse.dropWhile (!isStep ·)).reverse

/-- The directory that holds what a path leads to, as far as the path tells. -/
def directory (path : String) : String :=
  match pathParts path with
  | [] => "."
  | start :: parts =>
    match trimParts parts with
    | [] => "."
    | part :: more =>
      match trimParts (part :: more).dropLast with
      | [] => if start = "" then "/" else start
      | between => "/".intercalate (start :: between)

/-- The path to a name inside a directory. -/
def joinPath (directory name : String) : String :=
  if directory.toList.getLast? = some '/' then directory ++ name else directory ++ "/" ++ name

end DeferLang
