import Teal.Expr
import Teal.Token
import Teal.Decimal.Numeral

/-!
# The meaning of literal tokens

## Main definitions

* `Literal.ofNumber?`: the number a token spells.
* `Text.unquote`: the text a string token stands for.
* `BinaryOp.ofKind?`: the operator a token stands for.
-/

namespace Teal

/-- The number a token spells: a finite double if it has a point, else a 64-bit integer. -/
def Literal.ofNumber? (text : String) : Option Literal :=
  if text.toList.contains '.' then
    ((Numeral.float? text.toList).filter Float.isFinite).map .float
  else
    (Numeral.int64? text.toList).map .integer

namespace Text

/-- Resolves the escapes of a string. A backslash before any other character stands for itself. -/
def unescape : List Char → List Char
  | [] => []
  | ['\\'] => ['\\']
  | '\\' :: c :: rest =>
    match c with
    | 'n' => '\n' :: unescape rest
    | 't' => '\t' :: unescape rest
    | 'r' => '\r' :: unescape rest
    | '\\' => '\\' :: unescape rest
    | '"' => '"' :: unescape rest
    | c => '\\' :: c :: unescape rest
  | c :: rest => c :: unescape rest

def stripQuotes (text : List Char) : List Char :=
  match text with
  | '"' :: rest => if rest.getLast? = some '"' then rest.dropLast else text
  | _ => text

def unquote (text : String) : String :=
  String.ofList (unescape (stripQuotes text.toList))

end Text

def BinaryOp.ofKind? : Token.Kind → Option BinaryOp
  | .less => some (.calculate .lt)
  | .greater => some (.calculate .gt)
  | .or => some (.calculate .or)
  | .and => some (.calculate .and)
  | .equal => some (.calculate .eq)
  | .assign => some .assign
  | .plus => some (.calculate .add)
  | .minus => some (.calculate .sub)
  | .star => some (.calculate .mul)
  | .slash => some (.calculate .div)
  | _ => none

end Teal
