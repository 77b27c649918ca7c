import Teal.Machine.Error
import Teal.Decimal.Numeral

/-!
# Operators on values

Integers are checked for overflow and doubles stay finite, so every result can be written down.
An integer meets a double as a double.

## Main definitions

* `Operator.apply`: the value of an operator and two operands.
-/

namespace Teal

namespace Operator

def widen (n : Int64) : Float :=
  Float.ofInt n.toInt

/-- An integer result, if 64 bits can hold it. -/
def checked (n : Int) : Except MachineError Value :=
  match Numeral.toInt64? n with
  | some n => .ok (.integer n)
  | none => .error .overflow

def finite (x : Float) : Except MachineError Value :=
  if x.isFinite then .ok (.float x) else .error .overflow

inductive Arithmetic
  | add | sub | mul | div
deriving DecidableEq, Repr

def Arithmetic.operator : Arithmetic → Operator
  | .add => .add
  | .sub => .sub
  | .mul => .mul
  | .div => .div

/-- Arithmetic on integers; quotients go toward zero. -/
def onIntegers (op : Arithmetic) (a b : Int64) : Except MachineError Value :=
  match op with
  | .add => checked (a.toInt + b.toInt)
  | .sub => checked (a.toInt - b.toInt)
  | .mul => checked (a.toInt * b.toInt)
  | .div => if b = 0 then .error .divisionByZero else checked (a.toInt.tdiv b.toInt)

def onFloats (op : Arithmetic) (a b : Float) : Except MachineError Value :=
  match op with
  | .add => finite (a + b)
  | .sub => finite (a - b)
  | .mul => finite (a * b)
  | .div => if b == 0 then .error .divisionByZero else finite (a / b)

def unsupported (op : Arithmetic) (a b : Value) : Except MachineError Value :=
  .error (.typeMismatch (.operands op.operator a.kind b.kind))

/-- Addition also joins strings and lists. -/
def join (a b : Value) : Except MachineError Value :=
  match a, b with
  | .string s, .string t => .ok (.string (s ++ t))
  | .list xs, .list ys => .ok (.list (xs ++ ys))
  | a, b => unsupported .add a b

def calculate (op : Arithmetic) (a b : Value) : Except MachineError Value :=
  match a, b with
  | .integer m, .integer n => onIntegers op m n
  | .float x, .float y => onFloats op x y
  | .integer m, .float y => onFloats op (widen m) y
  | .float x, .integer n => onFloats op x (widen n)
  | a, b =>
    match op with
    | .add => join a b
    | op => unsupported op a b

/-- Equality of values, an integer and a double being equal if they are the same number. -/
def equal (a b : Value) : Bool :=
  match a, b with
  | .integer m, .float y => widen m == y
  | .float x, .integer n => widen n == x
  | a, b => a.same b

/-- Whether a value is less than another; only numbers and strings are ordered. -/
def less? (a b : Value) : Option Bool :=
  match a, b with
  | .integer m, .integer n => some (m.toInt < n.toInt)
  | .string s, .string t => some (s < t)
  | .integer m, .float y => some (widen m < y)
  | .float x, .integer n => some (x < widen n)
  | .float x, .float y => some (x < y)
  | _, _ => none

def compared (a b : Value) (answer : Option Bool) : Except MachineError Value :=
  match answer with
  | some b => .ok (.boolean b)
  | none => .error (.typeMismatch (.comparison a.kind b.kind))

def apply (op : Operator) (a b : Value) : Except MachineError Value :=
  match op with
  | .add => calculate .add a b
  | .sub => calculate .sub a b
  | .mul => calculate .mul a b
  | .div => calculate .div a b
  | .eq => .ok (.boolean (equal a b))
  | .lt => compared a b (less? a b)
  | .gt => compared a b (less? b a)
  | .and => .ok (.boolean (a.isTruthy && b.isTruthy))
  | .or => .ok (.boolean (a.isTruthy || b.isTruthy))

end Operator

end Teal
