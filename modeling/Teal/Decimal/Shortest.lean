/-!
# Shortest decimals

A double stands for all reals that round to it. Its shortest decimal is the one with the fewest
significant digits among those reals, and of two with equally few the one nearer to the double.
Everything here is exact arithmetic on natural numbers.

## Main definitions

* `Binary.ofFloat`: a finite double as mantissa and exponent.
* `Decimal.shortest`: the shortest decimal of a positive double.
-/

namespace Teal

inductive Decimal.Tie
  | up
  | even
deriving DecidableEq, Repr

structure Decimal where
  coefficient : Nat
  exponent : Int
deriving DecidableEq, Repr

/-- A number `mantissa · 2 ^ exponent`, with the distance to the number below it. -/
structure Binary where
  mantissa : Nat
  exponent : Int
  /-- The number below is only half as far away as the number above. -/
  closeBelow : Bool
deriving DecidableEq, Repr

/-- The number of values of the 52 low bits of a double, which hold its fraction. -/
def Binary.fractions : Nat := 0x10000000000000

/-- The number of values of the 11 bits above, which hold its exponent. -/
def Binary.exponents : Nat := 0x800

def Binary.ofFloat (x : Float) : Binary :=
  let bits := x.toBits.toNat
  let fraction : Nat := bits % fractions
  let field : Nat := bits / fractions % exponents
  if field = 0 then ⟨fraction, -1074, false⟩
  else ⟨fractions + fraction, (field : Int) - 1075, fraction = 0 && field > 1⟩

namespace Decimal

def digitCount (n : Nat) : Nat :=
  (Nat.toDigits 10 n).length

/-- The zeros after the point before the first digit of `num / den`, at most `fuel` of them. -/
def leadingZeros (num den : Nat) : (fuel : Nat) → Nat
  | 0 => 0
  | fuel + 1 => if den ≤ num * 10 then 0 else leadingZeros (num * 10) den fuel + 1

/-- The power of ten just above `num / den`. -/
def magnitude (num den : Nat) : Int :=
  if den ≤ num then digitCount (num / den) else -(leadingZeros num den 400 : Nat)

def factor (base : Nat) (exponent : Int) : Nat :=
  Nat.pow base exponent.toNat

/-- The nearest decimal on the grid `10 ^ place` that still rounds to `b`. -/
def onGrid (tie : Tie) (b : Binary) (place : Int) : Option Decimal :=
  -- All bounds are quarters of the last binary place, over the common denominator `den`.
  let up := factor 2 (b.exponent - 2) * factor 10 (-place)
  let den := factor 2 (2 - b.exponent) * factor 10 place
  let value := 4 * b.mantissa * up
  let low := (4 * b.mantissa - if b.closeBelow then 1 else 2) * up
  let high := (4 * b.mantissa + 2) * up
  let inside (c : Nat) : Bool :=
    if b.mantissa % 2 = 0 then low ≤ c * den && c * den ≤ high
    else low < c * den && c * den < high
  let floor := value / den
  let below := value - floor * den
  let above := den - below
  let preferFloor :=
    below < above || (below = above && tie = .even && floor % 2 = 0)
  match inside floor, inside (floor + 1) with
  | true, true => some ⟨if preferFloor then floor else floor + 1, place⟩
  | true, false => some ⟨floor, place⟩
  | false, true => some ⟨floor + 1, place⟩
  | false, false => none

/-- Tries grids of more and more digits. -/
def search (tie : Tie) (b : Binary) (top : Int) : (digits fuel : Nat) → Decimal
  | _, 0 => ⟨0, 0⟩
  | digits, fuel + 1 =>
    match onGrid tie b (top - digits) with
    | some d => d
    | none => search tie b top (digits + 1) fuel

def strip : (fuel : Nat) → Decimal → Decimal
  | 0, d => d
  | fuel + 1, d =>
    if d.coefficient ≠ 0 && d.coefficient % 10 = 0 then
      strip fuel ⟨d.coefficient / 10, d.exponent + 1⟩
    else d

/-- The shortest decimal of the magnitude of a finite double that is not zero. Seventeen digits
are always enough. -/
def shortest (tie : Tie) (x : Float) : Decimal :=
  let b := Binary.ofFloat x
  let top := magnitude (b.mantissa * factor 2 b.exponent) (factor 2 (-b.exponent))
  strip 20 (search tie b top 1 18)

end Decimal

end Teal
