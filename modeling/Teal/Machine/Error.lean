import Teal.Code
import Teal.Value

/-!
# Failures of sessions

## Main definitions

* `TypeMismatch`: a value of the wrong kind, and where it was met.
* `MachineError`: why a session failed, or could not be run.
-/

namespace Teal

inductive TypeMismatch
  /-- The argument count of a call is negative. -/
  | argumentCount
  | keywordSlots (function : String) (arguments slots : Nat)
  | keywordTag (found : Value.Kind)
  | notCallable (found : Value.Kind)
  | unpairedHash (arguments : Nat)
  | operands (op : Operator) (left right : Value.Kind)
  | comparison (left right : Value.Kind)
deriving DecidableEq, Repr

def TypeMismatch.message : TypeMismatch → String
  | .argumentCount => "argument count must be a natural"
  | .keywordSlots function arguments slots =>
    "call to `" ++ function ++ "` has " ++ Nat.repr arguments ++ " argument(s) but " ++
      Nat.repr slots ++ " keyword slot(s)"
  | .keywordTag found => "keyword tag must be a symbol, got " ++ found.describe
  | .notCallable found => "cannot call a value of type " ++ found.describe
  | .unpairedHash arguments =>
    "hash expects key/value pairs, got " ++ Nat.repr arguments ++ " argument(s)"
  | .operands op left right =>
    "unsupported operands for " ++ (Opcode.operate op).name ++ ": " ++ left.describe ++ " and " ++
      right.describe
  | .comparison left right => "cannot compare " ++ left.describe ++ " with " ++ right.describe

inductive MachineError
  | stackUnderflow
  | typeMismatch (mismatch : TypeMismatch)
  | unboundName (name : String)
  | unknownFunction (name : String)
  | invalidPointer (ip : Nat)
  | badJump (ip : Nat) (offset : Int)
  | arity (function : String) (expected got : Nat)
  | unknownKeyword (function keyword : String)
  | duplicateArgument (function param : String)
  | divisionByZero
  | overflow
  | taskFailed (task : TaskId) (message : String)
  | unknownTask (task : TaskId)
  | unknownSession (id : TaskId)
  | notRunnable (id : TaskId)
  | deadlock (waiting : List TaskId)
deriving DecidableEq, Repr

def MachineError.message : MachineError → String
  | .stackUnderflow => "operand stack underflow"
  | .typeMismatch mismatch => "type mismatch: " ++ mismatch.message
  | .unboundName name => "unbound name `" ++ name ++ "`"
  | .unknownFunction name => "unknown function `" ++ name ++ "`"
  | .invalidPointer ip => "instruction pointer " ++ Nat.repr ip ++ " is outside the code"
  | .badJump ip offset =>
    "jump from " ++ Nat.repr ip ++ " by " ++ Int.repr offset ++ " leaves the code"
  | .arity function expected got =>
    "`" ++ function ++ "` expects " ++ Nat.repr expected ++ " argument(s), got " ++ Nat.repr got
  | .unknownKeyword function keyword =>
    "`" ++ function ++ "` has no parameter named `" ++ keyword ++ "`"
  | .duplicateArgument function param =>
    "parameter `" ++ param ++ "` of `" ++ function ++ "` bound twice"
  | .divisionByZero => "division by zero"
  | .overflow => "arithmetic overflow"
  | .taskFailed task message => "awaited task " ++ Nat.repr task ++ " failed: " ++ message
  | .unknownTask task => "unknown task " ++ Nat.repr task
  | .unknownSession id => "unknown session " ++ Nat.repr id
  | .notRunnable id => "session " ++ Nat.repr id ++ " is not runnable"
  | .deadlock waiting =>
    "deadlock: sessions [" ++ String.intercalate ", " (waiting.map Nat.repr) ++
      "] wait on tasks that can never resolve"

end Teal
