import Teal.Code
import Teal.Expr

/-!
# Code of expressions

The code of an expression leaves exactly one value on the stack. It is put together from the
code of the parts; jumps are relative, so no code depends on where it is placed. The functions
an expression makes are numbered in the order in which their closures are made, and their
bodies are not part of its code.

## Main definitions

* `Function`: a function to be compiled.
* `Expr.functions`: the functions that an expression makes.
* `Expr.code`: the code of an expression.
* `Function.code`: the code of a function.
-/

namespace Teal

structure Function where
  name : String
  params : List String
  body : Expr
  tag : Option String
  /-- The name by which a nested definition finds itself. -/
  itself : Option String

def Function.numbered (f : Function) (n : Nat) : Function :=
  { f with name := f.name ++ ":" ++ Nat.repr n }

namespace Expr

def trace (e : Expr) : List String :=
  [e.loc.display, e.loc.sourceLine]

def emit (e : Expr) (op : Op) : Instruction :=
  { op, source := e.trace }

def ofLiteral : Literal → Value
  | .null => .null
  | .boolean b => .boolean b
  | .integer n => .integer n
  | .float x => .float x
  | .string s => .string s

def keyword : Expr → Value
  | .argument _ (some (.symbol _ name)) _ => .symbol name
  | _ => .null

mutual

/-- The functions that an expression makes, not yet numbered, in the order of their closures. -/
def functions : Expr → List Function
  | .definition _ name params body tag => [⟨name, params, body, tag, some name⟩]
  | .lambda _ params body => [⟨"lambda", params, body, none, none⟩]
  | .ident .. | .symbol .. | .literal .. => []
  | .argument _ _ value => functions value
  | .binary _ .assign _ right => functions right
  | .binary _ (.calculate _) left right => functions left ++ functions right
  | .call _ callee args => functionsOfAll args ++ functions callee
  | .async _ inner => functions inner
  | .await _ inner => functions inner
  | .conditional _ condition consequence alternative =>
    functions condition ++ functionsOfElse alternative ++ functions consequence
  | .block _ items => functionsOfAll items

def functionsOfAll : List Expr → List Function
  | [] => []
  | e :: rest => functions e ++ functionsOfAll rest

def functionsOfElse : Option Expr → List Function
  | none => []
  | some e => functions e

end

def closureName (base : String) (n : Nat) : String :=
  base ++ ":" ++ Nat.repr n

mutual

/-- The code of an expression whose first closure has the number `next`. -/
def code (next : Nat) : Expr → List Instruction
  | .literal loc value => [(Expr.literal loc value).emit (.pushValue (ofLiteral value))]
  | .symbol loc name => [(Expr.symbol loc name).emit (.pushValue (.symbol name))]
  | .ident loc name => [(Expr.ident loc name).emit (.pushBinding name)]
  | .binary loc .assign left right =>
    code next right ++
      [(Expr.binary loc .assign left right).emit (.bind (match left with
        | .ident _ name => name
        | _ => ""))]
  | .binary loc (.calculate op) left right =>
    code next left ++ code (next + left.functions.length) right ++
      [(Expr.binary loc (.calculate op) left right).emit (.operate op)]
  | .argument _ _ value => code next value
  | .call loc callee args =>
    codeOfAll next args ++ code (next + (functionsOfAll args).length) callee ++
      [(Expr.call loc callee args).emit (.call args.length (args.map keyword))]
  | .async _ (.call loc callee args) =>
    codeOfAll next args ++ code (next + (functionsOfAll args).length) callee ++
      [(Expr.call loc callee args).emit (.asyncCall args.length (args.map keyword))]
  | .async _ inner => code next inner
  | .await loc inner => code next inner ++ [(Expr.await loc inner).emit .wait]
  | .conditional loc condition consequence alternative =>
    let self := Expr.conditional loc condition consequence alternative
    let next' := next + condition.functions.length
    let otherwise := codeOfElse next' (self.emit (.pushValue .null)) alternative
    let chosen := code (next' + (functionsOfElse alternative).length) consequence
    code next condition ++ [self.emit (.jumpIf (otherwise.length + 2))] ++ otherwise ++
      [self.emit (.jump (chosen.length + 1))] ++ chosen
  | .block loc [] => [(Expr.block loc []).emit (.pushValue .null)]
  | .block _ (first :: rest) =>
    code next first ++ codeOfRest (next + first.functions.length) rest
  | .lambda loc params body =>
    [(Expr.lambda loc params body).emit (.makeClosure (closureName "lambda" next))]
  | .definition loc name params body tag =>
    let self := Expr.definition loc name params body tag
    [self.emit (.makeClosure (closureName name next)), self.emit (.bind name)]

def codeOfAll (next : Nat) : List Expr → List Instruction
  | [] => []
  | e :: rest => code next e ++ codeOfAll (next + e.functions.length) rest

/-- The code of the later items of a block: each first drops the value before it. -/
def codeOfRest (next : Nat) : List Expr → List Instruction
  | [] => []
  | e :: rest => [e.emit .pop] ++ code next e ++ codeOfRest (next + e.functions.length) rest

def codeOfElse (next : Nat) (missing : Instruction) : Option Expr → List Instruction
  | none => [missing]
  | some e => code next e

end

end Expr

namespace Function

def nested (f : Function) (next : Nat) : List Function :=
  (f.body.functions.zipIdx next).map fun (g, n) => g.numbered n

/-- The code of a function whose first closure has the number `next`. A nested definition first
binds itself, so that it can recurse. -/
def code (f : Function) (next : Nat) : List Instruction :=
  (match f.itself with
    | some name => [f.body.emit (.makeClosure f.name), f.body.emit (.bind name), f.body.emit .pop]
    | none => []) ++
  f.body.code next ++ [f.body.emit .ret]

end Function

end Teal
