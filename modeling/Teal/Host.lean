import Teal.Path

/-!
# Hosts

What the toolchain asks of the system it runs on: files, directories and environment variables.

## Main definitions

* `HostError`: why a file or a directory cannot be used.
* `Host`: the questions to a system.
* `Host.makeDirectory`: makes a directory and those above it.
-/

namespace Teal

inductive HostError
  | missing
  | occupied
  | notDirectory
  | isDirectory
  | nameTooLong
  /-- The path holds the character that ends paths. -/
  | brokenPath
  /-- The file does not hold text. -/
  | notText
  | other (text : String)
deriving DecidableEq, Repr

def HostError.message : HostError → String
  | .missing => "No such file or directory (os error 2)"
  | .occupied => "File exists (os error 17)"
  | .notDirectory => "Not a directory (os error 20)"
  | .isDirectory => "Is a directory (os error 21)"
  | .nameTooLong => "File name too long (os error 36)"
  | .brokenPath => "file name contained an unexpected NUL byte"
  | .notText => "stream did not contain valid UTF-8"
  | .other text => text

class Host (m : Type → Type) where
  /-- The text of a file. -/
  read : String → m (Except HostError String)
  /-- Writes a file, its old text being lost. -/
  write : String → String → m (Except HostError Unit)
  /-- Gives a file another path. A file that was there is lost. -/
  rename : String → String → m (Except HostError Unit)
  /-- Makes a directory where nothing is. -/
  createDirectory : String → m (Except HostError Unit)
  /-- Whether a path leads to a file. -/
  isFile : String → m Bool
  /-- Whether a path leads to a directory. -/
  isDirectory : String → m Bool
  /-- The value of an environment variable. -/
  environment : String → m (Option String)

namespace Host

variable {m : Type → Type} [Monad m] [Host m]

def ensureDirectory (path : String) : m (Except HostError Unit) := do
  match ← createDirectory path with
  | .ok () => return .ok ()
  | .error e => return if ← isDirectory path then .ok () else .error e

/-- Makes a directory; those above it, nearest first, are made only if one is missing. -/
def ensureBelow (path : String) : (above : List String) → m (Except HostError Unit)
  | [] => ensureDirectory path
  | parent :: above => do
    match ← ensureDirectory path with
    | .error .missing =>
      match ← ensureBelow parent above with
      | .error e => return .error e
      | .ok () => ensureDirectory path
    | outcome => return outcome

/-- Makes a directory and those above it, unless they are there. The empty path leads to the
working directory. -/
def makeDirectory (path : String) : m (Except HostError Unit) :=
  if path = "" then return .ok () else ensureBelow path (Path.above path)

end Host

end Teal
