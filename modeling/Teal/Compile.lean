import Teal.Compile.Emit
import Teal.Compile.Fault
import Teal.Executable

/-!
# Compiling programs

Every function has a region of code of its own. The regions of a definition come one after the
other: first its own, then those of the functions it makes, then those of the functions these
make. The functions of the whole program are numbered in the order in which their closures
appear in the code.

## Main definitions

* `Region`, `Region.family`: a function with its numbering, and a definition's regions.
* `Executable.link`: the program of regions.
* `compile`: the program of expressions.
-/

namespace Teal

/-- A function and the number of the first closure that it makes. -/
structure Region where
  function : Function
  next : Nat

namespace Region

def code (r : Region) : List Instruction :=
  r.function.code r.next

def closures (r : Region) : Nat :=
  r.function.body.functions.length

def closuresOfAll : List Region → Nat
  | [] => 0
  | r :: rest => r.closures + closuresOfAll rest

/-- The regions of waiting functions and of all functions these make, first come, first served. -/
def family : (fuel : Nat) → (next : Nat) → List Function → List Region
  | 0, _, _ => []
  | _ + 1, _, [] => []
  | fuel + 1, next, f :: waiting =>
    let r : Region := ⟨f, next⟩
    r :: family fuel (next + r.closures) (waiting ++ f.nested next)

end Region

namespace Expr

mutual

def functionCount : Expr → Nat
  | .definition _ _ _ body _ => functionCount body + 1
  | .lambda _ _ body => functionCount body + 1
  | .ident .. | .symbol .. | .literal .. => 0
  | .argument _ _ value => functionCount value
  | .binary _ _ left right => functionCount left + functionCount right
  | .call _ callee args => functionCountOfAll args + functionCount callee
  | .async _ inner => functionCount inner
  | .await _ inner => functionCount inner
  | .conditional _ condition consequence alternative =>
    functionCount condition + functionCountOfElse alternative + functionCount consequence
  | .block _ items => functionCountOfAll items

def functionCountOfAll : List Expr → Nat
  | [] => 0
  | e :: rest => functionCount e + functionCountOfAll rest

def functionCountOfElse : Option Expr → Nat
  | none => 0
  | some e => functionCount e

end

def function? : Expr → Option Function
  | .definition _ name params body tag => some ⟨name, params, body, tag, none⟩
  | _ => none

end Expr

def Function.regions (f : Function) (next : Nat) : List Region :=
  Region.family (f.body.functionCount + 1) next [f]

/-- The first fault of a function and of the functions inside it, in the order of their code. -/
def Function.fault? (f : Function) : Option CompileError :=
  (f.regions 0).findSome? fun r => r.function.body.fault?

def programError? (seen : List String) : List Expr → Option CompileError
  | [] => none
  | e :: rest =>
    match e.function? with
    | none => some (.topLevelExpression e.loc)
    | some f =>
      if seen.contains f.name then some (.duplicateFunction f.name e.loc)
      else f.fault?.or (programError? (f.name :: seen) rest)

def regionsFrom (next : Nat) : List Function → List Region
  | [] => []
  | f :: rest =>
    let regions := f.regions next
    regions ++ regionsFrom (next + Region.closuresOfAll regions) rest

namespace Executable

def entries (location : Nat) : List Region → List (String × FunctionEntry)
  | [] => []
  | r :: rest =>
    (r.function.name, { location, params := r.function.params, tag := r.function.tag }) ::
      entries (location + r.code.length) rest

def link (regions : List Region) : Executable :=
  { functions := Table.ofEntries (entries 0 regions), code := regions.flatMap Region.code }

end Executable

def compile (program : List Expr) : Except CompileError Executable :=
  match programError? [] program with
  | some e => .error e
  | none => .ok (Executable.link (regionsFrom 0 (program.filterMap Expr.function?)))

end Teal
