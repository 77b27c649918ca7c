import Teal.Operator
import Teal.Source

/-!
# Expressions

Source text after parsing. Every expression has the location it is reported at.

## Main definitions

* `Literal`, `Expr`: literals and expressions.
* `Expr.loc`: where an expression starts.
-/

namespace Teal

inductive Literal
  | null
  | boolean (b : Bool)
  | integer (n : Int64)
  | float (x : Float)
  | string (s : String)

inductive Expr
  | definition (loc : Location) (name : String) (params : List String) (body : Expr)
      (tag : Option String)
  | lambda (loc : Location) (params : List String) (body : Expr)
  | call (loc : Location) (callee : Expr) (args : List Expr)
  /-- An argument of a call, with its keyword if it has one. -/
  | argument (loc : Location) (keyword : Option Expr) (value : Expr)
  | ident (loc : Location) (name : String)
  | symbol (loc : Location) (name : String)
  | literal (loc : Location) (value : Literal)
  | binary (loc : Location) (op : BinaryOp) (left right : Expr)
  | conditional (loc : Location) (condition consequence : Expr) (alternative : Option Expr)
  | async (loc : Location) (inner : Expr)
  | await (loc : Location) (inner : Expr)
  | block (loc : Location) (items : List Expr)

namespace Expr

def loc : Expr → Location
  | .definition loc .. | .lambda loc .. | .call loc .. | .argument loc .. | .ident loc ..
  | .symbol loc .. | .literal loc .. | .binary loc .. | .conditional loc .. | .async loc ..
  | .await loc .. | .block loc .. => loc

instance : Inhabited Expr := ⟨.literal ⟨"", 1, 1, ""⟩ .null⟩

def positional (value : Expr) : Expr :=
  .argument value.loc none value

def callNamed (loc : Location) (name : String) (args : List Expr) : Expr :=
  .call loc (.ident loc name) args

end Expr

end Teal
