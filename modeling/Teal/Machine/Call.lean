import Teal.Executable
import Teal.Machine.Builtin

/-!
# Calls

A keyword argument goes to the parameter it names; the other arguments fill the remaining
parameters in order.

## Main definitions

* `argumentBindings`: the bindings of a call.
* `Callee.resolve`: what a value stands for when it is called.
* `takeCall`: what a call takes off the stack.
-/

namespace Teal

/-- How the arguments of a call are shared out. -/
structure Claims where
  /-- The parameters that keywords have taken. -/
  claimed : List String := []
  /-- The arguments without a keyword. -/
  positional : List Value := []
  bindings : Bindings

def Claims.add (function : String) (params : List String) (c : Claims) (arg keyword : Value) :
    Except MachineError Claims :=
  match keyword with
  | .null => .ok { c with positional := c.positional ++ [arg] }
  | .symbol key | .string key =>
    if !params.contains key then .error (.unknownKeyword function key)
    else if c.claimed.contains key then .error (.duplicateArgument function key)
    else .ok { c with
      claimed := c.claimed ++ [key], bindings := c.bindings.insert key arg }
  | other => .error (.typeMismatch (.keywordTag other.kind))

def Claims.addAll (function : String) (params : List String) :
    Claims → List (Value × Value) → Except MachineError Claims
  | c, [] => .ok c
  | c, (arg, keyword) :: rest => do
    let c ← c.add function params arg keyword
    c.addAll function params rest

/-- The parameters that no keyword has taken. -/
def Claims.openParams (params : List String) (c : Claims) : List String :=
  c.claimed.foldl List.erase params

def bindAll (bindings : Bindings) (entries : List (String × Value)) : Bindings :=
  entries.foldl (fun b entry => b.insert entry.1 entry.2) bindings

/-- The bindings of a call: those captured, with the parameters bound to the arguments. -/
def argumentBindings (function : String) (params : List String) (captured : Bindings)
    (args keywords : List Value) : Except MachineError Bindings := do
  if keywords.length ≠ args.length then
    .error (.typeMismatch (.keywordSlots function args.length keywords.length))
  else
    let c ← Claims.addAll function params { bindings := captured } (args.zip keywords)
    let free := c.openParams params
    if free.length ≠ c.positional.length then
      .error (.arity function params.length (params.length - free.length + c.positional.length))
    else .ok (bindAll c.bindings (free.zip c.positional))

inductive Callee
  | compiled (name : String) (info : FunctionEntry) (captured : Bindings)
  | builtin (name : String) (b : Builtin)

/-- What a value stands for when it is called. A definition hides a builtin of its name. -/
def Callee.resolve (exe : Executable) : Value → Except MachineError Callee
  | .function name =>
    match exe.function? name, Builtin.ofName? name with
    | some info, _ => .ok (.compiled name info [])
    | none, some b => .ok (.builtin name b)
    | none, none => .error (.unknownFunction name)
  | .closure name captured =>
    match exe.function? name with
    | some info => .ok (.compiled name info captured)
    | none => .error (.unknownFunction name)
  | other => .error (.typeMismatch (.notCallable other.kind))

/-- Builtins take no keywords. -/
def rejectKeywords (function : String) (keywords : List Value) : Except MachineError Unit :=
  match keywords.findSome? Value.text? with
  | some key => .error (.unknownKeyword function key)
  | none => .ok ()

def Builtin.call (name : String) (b : Builtin) (args keywords : List Value) :
    Except MachineError (Value × List String) := do
  rejectKeywords name keywords
  b.invoke args

structure TakenCall where
  callee : Value
  args : List Value
  stack : List Value

/-- Takes a callee and its arguments off a stack. A failure comes with the stack it leaves. -/
def takeCall (count : Int) (stack : List Value) : Except (MachineError × List Value) TakenCall :=
  if count < 0 then .error (.typeMismatch .argumentCount, stack)
  else match stack with
    | [] => .error (.stackUnderflow, [])
    | callee :: rest =>
      if rest.length < count.toNat then .error (.stackUnderflow, rest)
      else .ok ⟨callee, (rest.take count.toNat).reverse, rest.drop count.toNat⟩

end Teal
