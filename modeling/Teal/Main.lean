import Teal.Cli

/-!
# The executable

The command line on the real system.
-/

namespace Teal

/-- The problem with a number and a wording of the real system. Some of its parts give the number
with the other sign. -/
def HostError.ofCode (code : UInt32) (details : String) : HostError :=
  match min code (0 - code) with
  | 2 => .missing
  | 13 => .other "Permission denied (os error 13)"
  | 17 => .occupied
  | 20 => .notDirectory
  | 21 => .isDirectory
  | 36 => .nameTooLong
  | code => .other (details ++ " (os error " ++ toString code ++ ")")

def HostError.ofSystem : IO.Error → HostError
  | .noFileOrDirectory _ code details | .inappropriateType _ code details
  | .alreadyExists _ code details | .noSuchThing _ code details
  | .invalidArgument _ code details | .permissionDenied _ code details
  | .resourceExhausted _ code details => .ofCode code details
  | e => .other (toString e)

def attempt (action : IO α) : IO (Except HostError α) := do
  match ← action.toBaseIO with
  | .ok a => return .ok a
  | .error e => return .error (.ofSystem e)

def readText (path : String) : IO (Except HostError String) := do
  match ← attempt (IO.FS.readBinFile path) with
  | .error e => return .error e
  | .ok bytes =>
    match String.fromUTF8? bytes with
    | some text => return .ok text
    | none => return .error .notText

def leadsTo (kind : IO.FS.FileType) (path : String) : IO Bool := do
  match ← attempt (do (← IO.FS.realPath path).metadata) with
  | .ok found => return found.type == kind
  | .error _ => return false

instance : Host IO where
  read := readText
  write path text := attempt (IO.FS.writeFile path text)
  rename source target := attempt (IO.FS.rename source target)
  createDirectory path := attempt (IO.FS.createDir path)
  isFile := leadsTo .file
  isDirectory := leadsTo .dir
  environment name := IO.getEnv name

end Teal

def Teal.quantumBound : Nat := 0x4000000000000000

def main (words : List String) : IO UInt32 := do
  let answer ← Teal.Cli.respond Teal.quantumBound words
  IO.print answer.out
  IO.eprint answer.err
  return UInt32.ofNat answer.code
