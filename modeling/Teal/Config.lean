import Teal.Machine.Run
import Teal.Text.Blank
import Teal.Toml.Printer
import Teal.Toml.Reader

/-!
# Configuration

## Main definitions

* `Config`: the settings of the toolchain.
* `Config.read`: the settings of a text; what the text does not mention has its default.
* `Config.written`: the text of settings.
* `Config.withTrace`: settings under an environment variable.
-/

namespace Teal

structure Config where
  /-- The function that is called when none is named. -/
  entry : String := "main"
  /-- The steps of one quantum. -/
  stepLimit : Nat := 10000
  trace : Bool := false
  /-- Where sessions are kept, if not at the default place. -/
  stateDir : Option String := none
deriving DecidableEq, Repr

namespace Config

def machine (c : Config) : MachineSettings :=
  { stepLimit := c.stepLimit, trace := c.trace }

def setting (d : Toml.Document) (name : String) (default : α) (read : Toml.Scalar → Option α) :
    Option α :=
  match d.item? name with
  | none => some default
  | some .table => none
  | some (.scalar value) => read value

def string? : Toml.Scalar → Option String
  | .string s => some s
  | _ => none

def count? : Toml.Scalar → Option Nat
  | .integer n => if 0 ≤ n.toInt then some n.toInt.toNat else none
  | _ => none

def boolean? : Toml.Scalar → Option Bool
  | .boolean b => some b
  | _ => none

/-- The settings of a document. Names that mean nothing here are passed over. -/
def ofDocument? (d : Toml.Document) : Option Config := do
  let base : Config := {}
  let entry ← setting d "entry" base.entry string?
  let stepLimit ← setting d "step_limit" base.stepLimit count?
  let trace ← setting d "trace" base.trace boolean?
  let stateDir ← setting d "state_dir" base.stateDir fun value => (string? value).map some
  some { entry, stepLimit, trace, stateDir }

def read (text : String) : Option Config :=
  (Toml.parse text).bind ofDocument?

def written (c : Config) : String :=
  "entry = " ++ Toml.quoted c.entry ++ "\n" ++
  "step_limit = " ++ Nat.repr c.stepLimit ++ "\n" ++
  "trace = " ++ (if c.trace then "true" else "false") ++ "\n" ++
  match c.stateDir with
  | some dir => "state_dir = " ++ Toml.quoted dir ++ "\n"
  | none => ""

def traceVariable : String := "TEAL_TRACE"

def withTrace (c : Config) : Option String → Config
  | none => c
  | some value => { c with trace := ["1", "true", "yes", "on"].contains (Text.trim value) }

end Config

end Teal
