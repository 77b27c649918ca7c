import Teal.Expr
import Teal.Text.Quoted
import Teal.Decimal.Style

/-!
# Shown expressions

Expressions as nested lists: the head names the form and the parts follow in order.

## Main definitions

* `Expr.display`: an expression on one line.
-/

namespace Teal

def Literal.display : Literal → String
  | .null => "null"
  | .boolean b => if b then "true" else "false"
  | .integer n => Int.repr n.toInt
  | .float x => Decimal.marked.write x
  | .string s => Text.quoted s

namespace Expr

def displayParams (params : List String) : String :=
  "(" ++ String.intercalate " " params ++ ")"

mutual

def display : Expr → String
  | .definition _ name params body tag =>
    (match tag with
      | some text => "#[" ++ text ++ "] "
      | none => "") ++
    "(fn " ++ name ++ " " ++ displayParams params ++ " " ++ display body ++ ")"
  | .lambda _ params body => "(lambda " ++ displayParams params ++ " " ++ display body ++ ")"
  | .call _ callee args => "(" ++ display callee ++ displayRest args ++ ")"
  | .argument _ keyword value => displayKeyword keyword ++ display value
  | .ident _ name => name
  | .symbol _ name => ":" ++ name
  | .literal _ value => value.display
  | .binary _ op left right =>
    "(" ++ op.spelling ++ " " ++ display left ++ " " ++ display right ++ ")"
  | .conditional _ condition consequence alternative =>
    "(if " ++ display condition ++ " " ++ display consequence ++ displayElse alternative ++ ")"
  | .async _ inner => "(async " ++ display inner ++ ")"
  | .await _ inner => "(await " ++ display inner ++ ")"
  | .block _ items => "(progn" ++ displayRest items ++ ")"

def displayRest : List Expr → String
  | [] => ""
  | e :: rest => " " ++ display e ++ displayRest rest

def displayKeyword : Option Expr → String
  | none => ""
  | some e => display e ++ " "

def displayElse : Option Expr → String
  | none => ""
  | some e => " " ++ display e

end

end Expr

end Teal
