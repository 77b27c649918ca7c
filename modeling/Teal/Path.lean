/-!
# Paths

Paths are texts whose parts stand between slashes.

## Main definitions

* `Path.extension?`: what follows the last point of a file's name.
* `Path.withExtension`: a path to a file with another extension.
* `Path.join`: a path seen from a directory.
* `Path.above`: the paths of the directories above.
-/

namespace Teal.Path

/-- The parts of a path. Empty parts and single points stand for the directory they are in. -/
def parts (path : String) : List String :=
  path.splitOn "/"

def isName (part : String) : Bool :=
  part ≠ "" && part ≠ "."

def isAbsolute (path : String) : Bool :=
  path.toList.head? = some '/'

/-- Whether a path ends with a slash, so that it can only lead to a directory. -/
def endsWithSlash (path : String) : Bool :=
  path.toList.getLast? = some '/'

def fileName? (path : String) : Option String :=
  match ((parts path).filter isName).getLast? with
  | some ".." | none => none
  | some name => some name

/-- A name split at its last point, which is not its first character. -/
def splitName (name : String) : String × Option String :=
  let reversed := name.toList.reverse
  let extension := reversed.takeWhile (· ≠ '.')
  match reversed.drop extension.length with
  | [] | [_] => (name, none)
  | _ :: stem => (String.ofList stem.reverse, some (String.ofList extension.reverse))

def extension? (path : String) : Option String :=
  (fileName? path).bind fun name => (splitName name).2

def withExtension (path extension : String) : String :=
  match fileName? path with
  | none => path
  | some name =>
    let directory := String.ofList (path.toList.take (path.length - name.length))
    directory ++ (splitName name).1 ++ "." ++ extension

def join (directory path : String) : String :=
  if directory = "" || endsWithSlash directory then directory ++ path
  else directory ++ "/" ++ path

/-- The paths of the directories above the one that a path leads to, the nearest first. Where a
path starts is none of them, as it is always there. -/
def above (path : String) : List String :=
  let names := (parts path).filter isName
  let start := if isAbsolute path then "/" else ""
  (List.range' 1 (names.length - 1)).reverse.map fun n => start ++ "/".intercalate (names.take n)

end Teal.Path
