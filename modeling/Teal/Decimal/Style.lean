import Teal.Decimal.Shortest

/-!
# Written numbers

How a double is written: always with its shortest digits, and with a style that says where
positional writing ends and whether a whole number keeps its point.

## Main definitions

* `Decimal.Style.write`: the text of a double in a style.
* `Decimal.plain`, `Decimal.marked`, `Decimal.json`: the styles of values, listings and documents.
-/

namespace Teal.Decimal

/-- A way to write doubles. A number is written positionally when the power of ten just above
it lies between `lowest` and `highest`, and with an exponent otherwise. -/
structure Style where
  lowest : Option Int
  highest : Option Int
  /-- A whole number written positionally keeps `.0`. -/
  keepsPoint : Bool
  tie : Tie

/-- Values are shown positionally whatever their size, whole numbers without a point. -/
def plain : Style := ⟨none, none, false, .up⟩

/-- Literals are shown with a point or an exponent, positionally from `1e-4` up to `1e16`. -/
def marked : Style := ⟨some (-3), some 16, true, .up⟩

/-- Documents write numbers with a point or an exponent, positionally from `1e-5` up to `1e16`. -/
def json : Style := ⟨some (-4), some 16, true, .even⟩

def zeros (n : Nat) : List Char :=
  List.replicate n '0'

/-- Digits with a point `point` places in. -/
def positional (keepsPoint : Bool) (digits : List Char) (point : Int) : List Char :=
  if point ≤ 0 then
    ['0', '.'] ++ zeros (-point).toNat ++ digits
  else if point.toNat < digits.length then
    digits.take point.toNat ++ ['.'] ++ digits.drop point.toNat
  else
    digits ++ zeros (point.toNat - digits.length) ++ if keepsPoint then ['.', '0'] else []

def scientific (digits : List Char) (point : Int) : List Char :=
  let exponent := ['e'] ++ (Int.repr (point - 1)).toList
  match digits with
  | first :: second :: rest => [first, '.', second] ++ rest ++ exponent
  | _ => digits ++ exponent

namespace Style

def isPositional (style : Style) (point : Int) : Bool :=
  style.lowest.all (· ≤ point) && style.highest.all (point ≤ ·)

def writeDecimal (style : Style) (d : Decimal) : List Char :=
  let digits := Nat.toDigits 10 d.coefficient
  let point := d.exponent + digits.length
  if style.isPositional point then positional style.keepsPoint digits point
  else scientific digits point

def writeMagnitude (style : Style) (x : Float) : List Char :=
  if x == 0 then if style.keepsPoint then ['0', '.', '0'] else ['0']
  else style.writeDecimal (shortest style.tie x)

def isNegative (x : Float) : Bool :=
  0x8000000000000000 ≤ x.toBits.toNat

def write (style : Style) (x : Float) : String :=
  if x.isNaN then "NaN"
  else
    let sign := if isNegative x then ['-'] else []
    let magnitude := if x.isInf then ['i', 'n', 'f'] else style.writeMagnitude x
    String.ofList (sign ++ magnitude)

end Style

end Teal.Decimal
