import Teal.Value
import Teal.Text.Quoted
import Teal.Decimal.Style

/-!
# Shown values

## Main definitions

* `Value.display`: a value as `print` and results show it.
* `Value.repr`: a value as it stands inside another: the same, but with strings quoted.
-/

namespace Teal.Value

mutual

/-- A value on its own or inside another; only a string tells the difference. -/
def render (inside : Bool) : Value → String
  | .null => "null"
  | .boolean b => if b then "true" else "false"
  | .integer n => Int.repr n.toInt
  | .float x => Decimal.plain.write x
  | .string s => if inside then Text.quoted s else s
  | .symbol name => ":" ++ name
  | .list items => "[" ++ renderItems items ++ "]"
  | .hash pairs => "\x7b" ++ renderPairs pairs ++ "\x7d"
  | .function name => "<function " ++ name ++ ">"
  | .closure name _ => "<closure " ++ name ++ ">"
  | .future task => "<future " ++ Nat.repr task ++ ">"

def renderItems : List Value → String
  | [] => ""
  | [v] => render true v
  | v :: rest => render true v ++ ", " ++ renderItems rest

def renderPairs : List (Value × Value) → String
  | [] => ""
  | [(k, v)] => render true k ++ ": " ++ render true v
  | (k, v) :: rest => render true k ++ ": " ++ render true v ++ ", " ++ renderPairs rest

end

def display (v : Value) : String :=
  v.render false

def repr (v : Value) : String :=
  v.render true

end Teal.Value
