import Teal.Machine.Error
import Teal.Value.Printer

/-!
# Builtin functions

## Main definitions

* `Builtin`: the functions that need no definition.
* `Builtin.invoke`: the value of a call, and the lines it prints.
* `Value.hashOf`: the hash of keys and values in turn.
-/

namespace Teal

inductive Builtin
  | list
  | hash
  | print
deriving DecidableEq, Repr

namespace Value

/-- Writes a key of a hash: an old value is replaced in place, a new key goes to the end. -/
def putPair (key value : Value) : List (Value × Value) → List (Value × Value)
  | [] => [(key, value)]
  | (k, v) :: rest => if k.same key then (k, value) :: rest else (k, v) :: putPair key value rest

def putPairs (pairs : List (Value × Value)) : List Value → List (Value × Value)
  | key :: value :: rest => putPairs (putPair key value pairs) rest
  | _ => pairs

/-- The pairs of keys and values in turn: each key where it came first, with its last value. -/
def hashOf (args : List Value) : List (Value × Value) :=
  putPairs [] args

end Value

namespace Builtin

def ofName? : String → Option Builtin
  | "list" => some .list
  | "hash" => some .hash
  | "print" => some .print
  | _ => none

def invoke (b : Builtin) (args : List Value) : Except MachineError (Value × List String) :=
  match b with
  | .list => .ok (.list args, [])
  | .hash =>
    if args.length % 2 = 0 then .ok (.hash (Value.hashOf args), [])
    else .error (.typeMismatch (.unpairedHash args.length))
  | .print =>
    .ok (args.head?.getD .null, [String.intercalate " " (args.map Value.display)])

def callNamed (name : String) (args : List Value) : Except MachineError (Value × List String) :=
  match ofName? name with
  | some b => b.invoke args
  | none => .error (.unknownFunction name)

end Builtin

end Teal
