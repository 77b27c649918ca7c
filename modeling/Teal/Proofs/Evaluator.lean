import Teal.Compile
import Teal.Machine.Call
import Teal.Machine.Operate

/-!
# Evaluating expressions

What programs without tasks mean, without code, jumps or a stack. An expression is evaluated in
the bindings of its activation. The recursion is on the expression; calls are left to a parameter,
which is then tied to the evaluation of function bodies by recursion on a fuel.

The functions of a program are those of its definitions and all that their bodies make, at any
depth. A closure names the one that made it and carries the bindings of that moment; so every
function has, besides its name, the number of the first closure that its body makes.

## Main definitions

* `Scope`, `Answer`: bindings with what was printed, and how an evaluation ends.
* `Evaluator.eval`: the value of an expression, calls left open.
* `Evaluator.applyWith`, `Evaluator.evaluate`: calls, and the call of a program's entry.
* `Expr.isSync`: an expression starts no tasks.
-/

namespace Teal

structure Scope where
  bindings : Bindings
  lines : List String := []

def Scope.bind (scope : Scope) (name : String) (v : Value) : Scope :=
  { scope with bindings := scope.bindings.insert name v }

/-- How an evaluation ends: with a value, with an error, or not within its fuel. -/
inductive Answer (α : Type)
  | given (a : α) (scope : Scope)
  | raised (error : MachineError)
  | unknown

namespace Answer

def andThen (r : Answer α) (k : α → Scope → Answer β) : Answer β :=
  match r with
  | .given a scope => k a scope
  | .raised e => .raised e
  | .unknown => .unknown

def ofExcept (r : Except MachineError α) (scope : Scope) : Answer α :=
  match r with
  | .ok a => .given a scope
  | .error e => .raised e

end Answer

def numberedFunctions (program : List Expr) : List Region :=
  regionsFrom 0 (program.filterMap Expr.function?)

/-- The bindings with which the body of a function starts: a nested definition first binds itself,
even if a parameter has its name. -/
def Function.activate (f : Function) (bindings : Bindings) : Bindings :=
  match f.itself with
  | some name => bindings.insert name (.closure f.name bindings)
  | none => bindings

namespace Evaluator

/-- What a call does: it is given the callee, the arguments and their keywords. -/
abbrev Apply := Value → List Value → List Value → Scope → Answer Value

def find? (functions : List Region) (name : String) : Option Region :=
  functions.find? fun r => r.function.name = name

/-- What a name stands for: a binding, or else a function, or else a builtin. -/
def lookup (functions : List Region) (scope : Scope) (name : String) :
    Except MachineError Value :=
  match scope.bindings.get? name with
  | some v => .ok v
  | none =>
    if (find? functions name).isSome || (Builtin.ofName? name).isSome then .ok (.function name)
    else .error (.unboundName name)

section Eval

variable (functions : List Region) (apply : Apply)

mutual

/-- The value of an expression whose first closure has the number `next`. Operands and arguments
are evaluated from left to right, the callee after its arguments. -/
def eval (next : Nat) : Expr → Scope → Answer Value
  | .literal _ value, scope => .given (Expr.ofLiteral value) scope
  | .symbol _ name, scope => .given (.symbol name) scope
  | .ident _ name, scope => .ofExcept (lookup functions scope name) scope
  | .binary _ .assign left right, scope =>
    (eval next right scope).andThen fun v scope =>
      .given v (scope.bind (left.ident?.getD "") v)
  | .binary _ (.calculate op) left right, scope =>
    (eval next left scope).andThen fun a scope =>
      (eval (next + left.functions.length) right scope).andThen fun b scope =>
        .ofExcept (op.apply a b) scope
  | .argument _ _ value, scope => eval next value scope
  | .call _ callee args, scope =>
    (evalAll next args scope).andThen fun values scope =>
      (eval (next + (Expr.functionsOfAll args).length) callee scope).andThen fun f scope =>
        apply f values (args.map Expr.keyword) scope
  -- only expressions that start no tasks are evaluated
  | .async .., _ => .unknown
  | .await _ inner, scope => eval next inner scope
  | .conditional _ condition consequence alternative, scope =>
    let next' := next + condition.functions.length
    (eval next condition scope).andThen fun v scope =>
      if v.isTruthy then
        eval (next' + (Expr.functionsOfElse alternative).length) consequence scope
      else evalElse next' alternative scope
  | .block _ [], scope => .given .null scope
  | .block _ (first :: rest), scope =>
    (eval next first scope).andThen fun v scope =>
      evalRest (next + first.functions.length) rest v scope
  | .lambda .., scope =>
    .given (.closure (Expr.closureName "lambda" next) scope.bindings) scope
  | .definition _ name .., scope =>
    let v := Value.closure (Expr.closureName name next) scope.bindings
    .given v (scope.bind name v)

def evalAll (next : Nat) : List Expr → Scope → Answer (List Value)
  | [], scope => .given [] scope
  | e :: rest, scope =>
    (eval next e scope).andThen fun v scope =>
      (evalAll (next + e.functions.length) rest scope).andThen fun vs scope =>
        .given (v :: vs) scope

def evalRest (next : Nat) : List Expr → Value → Scope → Answer Value
  | [], last, scope => .given last scope
  | e :: rest, _, scope =>
    (eval next e scope).andThen fun v scope =>
      evalRest (next + e.functions.length) rest v scope

def evalElse (next : Nat) : Option Expr → Scope → Answer Value
  | none, scope => .given .null scope
  | some e, scope => eval next e scope

end

end Eval

/-- What a value stands for when it is called. A definition hides a builtin of its name. -/
inductive Target
  | body (r : Region) (captured : Bindings)
  | builtin (name : String) (b : Builtin)

def resolve (functions : List Region) : Value → Except MachineError Target
  | .function name =>
    match find? functions name, Builtin.ofName? name with
    | some r, _ => .ok (.body r [])
    | none, some b => .ok (.builtin name b)
    | none, none => .error (.unknownFunction name)
  | .closure name captured =>
    match find? functions name with
    | some r => .ok (.body r captured)
    | none => .error (.unknownFunction name)
  | other => .error (.typeMismatch (.notCallable other.kind))

/-- A call, with fuel for as many calls inside of each other. What the body of a function binds is
gone after it; what it printed stays. -/
def applyWith (functions : List Region) : (fuel : Nat) → Apply
  | 0, _, _, _, _ => .unknown
  | fuel + 1, callee, args, keywords, scope =>
    match resolve functions callee with
    | .error e => .raised e
    | .ok (.builtin name b) =>
      match b.call name args keywords with
      | .error e => .raised e
      | .ok (v, lines) => .given v { scope with lines := scope.lines ++ lines }
    | .ok (.body r captured) =>
      match argumentBindings r.function.name r.function.params captured args keywords with
      | .error e => .raised e
      | .ok bindings =>
        (eval functions (applyWith functions fuel) r.next r.function.body
          ⟨r.function.activate bindings, scope.lines⟩).andThen fun v inner =>
            .given v { scope with lines := inner.lines }

def evaluate (fuel : Nat) (functions : List Region) (entry : String) (args : List Value) :
    Answer Value :=
  match find? functions entry with
  | none => .raised (.unknownFunction entry)
  | some r =>
    match argumentBindings entry r.function.params [] args (args.map fun _ => .null) with
    | .error e => .raised e
    | .ok bindings =>
      eval functions (applyWith functions fuel) r.next r.function.body
        { bindings := r.function.activate bindings }

end Evaluator

namespace Expr

mutual

/-- An expression starts no tasks, at any depth. -/
def isSync : Expr → Bool
  | .definition _ _ _ body _ => isSync body
  | .lambda _ _ body => isSync body
  | .call _ callee args => areSync args && isSync callee
  | .argument _ _ value => isSync value
  | .ident .. | .symbol .. | .literal .. => true
  | .binary _ _ left right => isSync left && isSync right
  | .conditional _ condition consequence alternative =>
    isSync condition && isSync consequence && isSyncElse alternative
  | .async .. => false
  | .await _ inner => isSync inner
  | .block _ items => areSync items

def areSync : List Expr → Bool
  | [] => true
  | e :: rest => isSync e && areSync rest

def isSyncElse : Option Expr → Bool
  | none => true
  | some e => isSync e

end

end Expr

end Teal
