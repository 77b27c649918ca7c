import Teal.Expr

/-!
# Static checks

A program is a list of definitions with different names. Besides that, only a name can be
assigned to, only a call can be started as a task, and arguments stand only in calls.

## Main definitions

* `CompileError`: why expressions are no program.
* `Expr.fault?`: the first fault of an expression, the bodies of functions in it apart.
-/

namespace Teal

inductive CompileError
  | topLevelExpression (loc : Location)
  | duplicateFunction (name : String) (loc : Location)
  | invalidAssignment (loc : Location)
  | asyncRequiresCall (loc : Location)
  | strayArgument (loc : Location)
deriving DecidableEq, Repr

namespace CompileError

def loc : CompileError → Location
  | .topLevelExpression loc | .duplicateFunction _ loc | .invalidAssignment loc
  | .asyncRequiresCall loc | .strayArgument loc => loc

def problem : CompileError → String
  | .topLevelExpression _ => "only function definitions are allowed at the top level"
  | .duplicateFunction name _ => "function `" ++ name ++ "` is defined more than once"
  | .invalidAssignment _ => "the left side of `=` must be a name"
  | .asyncRequiresCall _ => "`async` must be applied to a function call"
  | .strayArgument _ => "argument outside of a call"

def message (e : CompileError) : String :=
  e.loc.display ++ ": " ++ e.problem

end CompileError

namespace Expr

def ident? : Expr → Option String
  | .ident _ name => some name
  | _ => none

mutual

/-- The first fault of an expression in the order in which its parts are evaluated. Function
bodies are not looked into. -/
def fault? : Expr → Option CompileError
  | .definition .. | .lambda .. | .ident .. | .symbol .. | .literal .. => none
  | .argument loc _ _ => some (.strayArgument loc)
  | .binary _ .assign left right =>
    match left with
    | .ident _ _ => fault? right
    | left => some (.invalidAssignment left.loc)
  | .binary _ (.calculate _) left right => (fault? left).or (fault? right)
  | .call _ callee args => (argumentFault? args).or (fault? callee)
  | .async loc inner =>
    match inner with
    | .call _ callee args => (argumentFault? args).or (fault? callee)
    | _ => some (.asyncRequiresCall loc)
  | .await _ inner => fault? inner
  | .conditional _ condition consequence alternative =>
    (fault? condition).or ((alternativeFault? alternative).or (fault? consequence))
  | .block _ items => itemFault? items

def argumentFault? : List Expr → Option CompileError
  | [] => none
  | .argument _ _ value :: rest => (fault? value).or (argumentFault? rest)
  | e :: rest => (fault? e).or (argumentFault? rest)

def alternativeFault? : Option Expr → Option CompileError
  | none => none
  | some e => fault? e

def itemFault? : List Expr → Option CompileError
  | [] => none
  | e :: rest => (fault? e).or (itemFault? rest)

end

end Expr

end Teal
