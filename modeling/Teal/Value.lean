import Teal.Table

/-!
# Values

What programs compute with. A closure carries the bindings of the activation that made it; a
future is a handle on a task.

## Main definitions

* `Value`: the values, with `Value.kind` and `Value.isTruthy`.
* `Value.same`: equality of values. Doubles are compared as numbers, integers and doubles never
  equal each other, and the order of pairs in a hash counts.
-/

namespace Teal

/-- The number of a session, and of the task that ends with it. -/
abbrev TaskId := Nat

inductive Value
  | null
  | boolean (b : Bool)
  | integer (n : Int64)
  | float (x : Float)
  | string (s : String)
  | symbol (name : String)
  | list (items : List Value)
  /-- Key and value pairs in the order of their insertion. -/
  | hash (pairs : List (Value × Value))
  /-- A named function: a compiled definition or a builtin. -/
  | function (name : String)
  | closure (function : String) (captured : List (String × Value))
  | future (task : TaskId)

abbrev Bindings := Table String Value

inductive Value.Kind
  | null | boolean | integer | float | string | symbol | list | hash | function | closure | future
deriving DecidableEq, Repr

def Value.Kind.describe : Value.Kind → String
  | .null => "null"
  | .boolean => "boolean"
  | .integer => "integer"
  | .float => "float"
  | .string => "string"
  | .symbol => "symbol"
  | .list => "list"
  | .hash => "hash"
  | .function => "function"
  | .closure => "closure"
  | .future => "future"

namespace Value

instance : Inhabited Value := ⟨.null⟩

def kind : Value → Kind
  | .null => .null
  | .boolean _ => .boolean
  | .integer _ => .integer
  | .float _ => .float
  | .string _ => .string
  | .symbol _ => .symbol
  | .list _ => .list
  | .hash _ => .hash
  | .function _ => .function
  | .closure _ _ => .closure
  | .future _ => .future

/-- Whether a value counts as true: null, false, zero and everything empty do not. -/
def isTruthy : Value → Bool
  | .null => false
  | .boolean b => b
  | .integer n => n ≠ 0
  | .float x => x != 0
  | .string s => s ≠ ""
  | .list items => !items.isEmpty
  | .hash pairs => !pairs.isEmpty
  | .symbol _ | .function _ | .closure _ _ | .future _ => true

def integer? : Value → Option Int64
  | .integer n => some n
  | _ => none

def text? : Value → Option String
  | .string s | .symbol s => some s
  | _ => none

mutual

def same : Value → Value → Bool
  | .null, .null => true
  | .boolean a, .boolean b => a = b
  | .integer a, .integer b => a = b
  | .float a, .float b => a == b
  | .string a, .string b => a = b
  | .symbol a, .symbol b => a = b
  | .list a, .list b => sameItems a b
  | .hash a, .hash b => samePairs a b
  | .function a, .function b => a = b
  | .closure f a, .closure g b => f = g && sameEntries a b
  | .future a, .future b => a = b
  | _, _ => false
termination_by structural a => a

def sameItems : List Value → List Value → Bool
  | [], [] => true
  | a :: as, b :: bs => same a b && sameItems as bs
  | _, _ => false
termination_by structural as => as

def samePairs : List (Value × Value) → List (Value × Value) → Bool
  | [], [] => true
  | (k, a) :: as, (l, b) :: bs => same k l && same a b && samePairs as bs
  | _, _ => false
termination_by structural as => as

def sameEntries : List (String × Value) → List (String × Value) → Bool
  | [], [] => true
  | (k, a) :: as, (l, b) :: bs => k = l && same a b && sameEntries as bs
  | _, _ => false
termination_by structural as => as

end

instance : BEq Value := ⟨same⟩

end Value

end Teal
