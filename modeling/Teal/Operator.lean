/-!
# Operators

The operators that calculate, and the operators that stand between two operands in source text:
those and assignment.

## Main definitions

* `Operator`: the operators that take two values and give one.
* `BinaryOp`: an operator of the source text, with `BinaryOp.power` and `BinaryOp.grouping`.
-/

namespace Teal

inductive Operator
  | add | sub | mul | div | eq | gt | lt | and | or
deriving DecidableEq, Repr

inductive BinaryOp
  | assign
  | calculate (op : Operator)
deriving DecidableEq, Repr

inductive Grouping
  | left
  | right
  | never
deriving DecidableEq, Repr

def Operator.spelling : Operator → String
  | .add => "+"
  | .sub => "-"
  | .mul => "*"
  | .div => "/"
  | .eq => "=="
  | .gt => ">"
  | .lt => "<"
  | .and => "&&"
  | .or => "||"

namespace BinaryOp

def spelling : BinaryOp → String
  | .assign => "="
  | .calculate op => op.spelling

def power : BinaryOp → Nat
  | .calculate .lt | .calculate .gt => 1
  | .calculate .or => 2
  | .calculate .and => 3
  | .calculate .eq | .assign => 4
  | .calculate .add | .calculate .sub => 5
  | .calculate .mul | .calculate .div => 6

def grouping : BinaryOp → Grouping
  | .calculate .lt | .calculate .gt | .calculate .eq | .assign => .never
  | .calculate .or | .calculate .and => .right
  | .calculate .add | .calculate .sub | .calculate .mul | .calculate .div => .left

/-- Two operators of one power group alike. -/
theorem grouping_eq_of_power_eq {a b : BinaryOp} (h : a.power = b.power) :
    a.grouping = b.grouping := by
  rcases a with _ | a <;> rcases b with _ | b <;> try cases a
  all_goals try cases b
  all_goals first | rfl | exact absurd h (by decide)

def all : List BinaryOp :=
  [.assign, .calculate .add, .calculate .sub, .calculate .mul, .calculate .div, .calculate .eq,
    .calculate .gt, .calculate .lt, .calculate .and, .calculate .or]

def ofSpelling? (text : String) : Option BinaryOp :=
  all.find? fun op => op.spelling = text

end BinaryOp

end Teal
