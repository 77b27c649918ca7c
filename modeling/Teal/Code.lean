import Teal.Operator
import Teal.Value

/-!
# Instructions

An instruction is an operation of the stack machine with the source lines it came from. The
operations are typed; their opcode and operand list are views, used where instructions are
written, read and shown.

## Main definitions

* `Op`, `Instruction`: operations, and operations with a source trace.
* `Opcode.signature`: the operands an opcode takes.
* `Op.ofOperands`: the operation of an opcode and operands.
-/

namespace Teal

inductive Op
  /-- Pushes a constant. -/
  | pushValue (value : Value)
  /-- Pushes what a name stands for. -/
  | pushBinding (name : String)
  /-- Binds a name to the top of the stack. -/
  | bind (name : String)
  | pop
  /-- Moves the instruction pointer by an offset. -/
  | jump (offset : Int)
  /-- Moves the instruction pointer if the popped value is truthy. -/
  | jumpIf (offset : Int)
  /-- Calls a function; each argument has a keyword or null. -/
  | call (count : Int) (keywords : List Value)
  /-- Starts a task that calls a function. -/
  | asyncCall (count : Int) (keywords : List Value)
  /-- Replaces a future by the result of its task. -/
  | wait
  | ret
  /-- Pushes a closure over the current bindings. -/
  | makeClosure (function : String)
  | operate (op : Operator)

inductive Opcode
  | pushValue | pushBinding | bind | pop | jump | jumpIf | call | asyncCall | wait | ret
  | makeClosure
  | operate (op : Operator)
deriving DecidableEq, Repr

inductive OperandKind
  | any | integer | string | list
deriving DecidableEq, Repr

namespace OperandKind

def accepts : OperandKind → Value → Bool
  | .any, _ => true
  | .integer, v => v.kind = .integer
  | .string, v => v.kind = .string
  | .list, v => v.kind = .list

def describe : OperandKind → String
  | .any => "any"
  | .integer => "integer"
  | .string => "string"
  | .list => "list"

end OperandKind

namespace Opcode

def all : List Opcode :=
  [.pushValue, .pushBinding, .bind, .pop, .jump, .jumpIf, .call, .asyncCall, .wait, .ret,
    .makeClosure, .operate .add, .operate .sub, .operate .mul, .operate .div, .operate .eq,
    .operate .gt, .operate .lt, .operate .and, .operate .or]

def name : Opcode → String
  | .pushValue => "PushV"
  | .pushBinding => "PushB"
  | .bind => "Bind"
  | .pop => "Pop"
  | .jump => "Jump"
  | .jumpIf => "JumpIf"
  | .call => "Call"
  | .asyncCall => "ACall"
  | .wait => "Wait"
  | .ret => "Return"
  | .makeClosure => "MakeClosure"
  | .operate .add => "Add"
  | .operate .sub => "Sub"
  | .operate .mul => "Mul"
  | .operate .div => "Div"
  | .operate .eq => "Eq"
  | .operate .gt => "Gt"
  | .operate .lt => "Lt"
  | .operate .and => "And"
  | .operate .or => "Or"

def ofName? (table : List Opcode) (name : String) : Option Opcode :=
  table.find? fun opcode => opcode.name = name

def signature : Opcode → List OperandKind
  | .pushValue => [.any]
  | .pushBinding | .bind | .makeClosure => [.string]
  | .jump | .jumpIf => [.integer]
  | .call | .asyncCall => [.integer, .list]
  | .pop | .wait | .ret | .operate _ => []

def arity (opcode : Opcode) : Nat :=
  opcode.signature.length

end Opcode

inductive OperandError
  | badLength (opcode : Opcode) (expected got : Nat)
  | badType (opcode : Opcode) (position : Nat) (expected : OperandKind) (found : Value.Kind)
deriving DecidableEq, Repr

def OperandError.message : OperandError → String
  | .badLength opcode expected got =>
    opcode.name ++ ": expected " ++ Nat.repr expected ++ " operand(s), got " ++ Nat.repr got
  | .badType opcode position expected found =>
    opcode.name ++ ": operand " ++ Nat.repr position ++ " must be " ++ expected.describe ++
      ", got " ++ found.describe

namespace Op

def opcode : Op → Opcode
  | .pushValue _ => .pushValue
  | .pushBinding _ => .pushBinding
  | .bind _ => .bind
  | .pop => .pop
  | .jump _ => .jump
  | .jumpIf _ => .jumpIf
  | .call _ _ => .call
  | .asyncCall _ _ => .asyncCall
  | .wait => .wait
  | .ret => .ret
  | .makeClosure _ => .makeClosure
  | .operate op => .operate op

def number (n : Int) : Value :=
  .integer (Int64.ofInt n)

def operands : Op → List Value
  | .pushValue value => [value]
  | .pushBinding name | .bind name | .makeClosure name => [.string name]
  | .jump offset | .jumpIf offset => [number offset]
  | .call count keywords | .asyncCall count keywords => [number count, .list keywords]
  | .pop | .wait | .ret | .operate _ => []

/-- The first operand that is not what its place asks for. -/
def misfit? (opcode : Opcode) : (position : Nat) → List OperandKind → List Value →
    Option OperandError
  | position, expected :: kinds, value :: values =>
    if expected.accepts value then misfit? opcode (position + 1) kinds values
    else some (.badType opcode position expected value.kind)
  | _, _, _ => none

/-- What is wrong with operands that make no operation: their number, or else the first misfit. -/
def operandError (opcode : Opcode) (operands : List Value) : OperandError :=
  let wrongLength := OperandError.badLength opcode opcode.arity operands.length
  if operands.length ≠ opcode.arity then wrongLength
  else (misfit? opcode 0 opcode.signature operands).getD wrongLength

def ofOperands : Opcode → List Value → Except OperandError Op
  | .pushValue, [value] => .ok (.pushValue value)
  | .pushBinding, [.string name] => .ok (.pushBinding name)
  | .bind, [.string name] => .ok (.bind name)
  | .makeClosure, [.string name] => .ok (.makeClosure name)
  | .jump, [.integer n] => .ok (.jump n.toInt)
  | .jumpIf, [.integer n] => .ok (.jumpIf n.toInt)
  | .call, [.integer n, .list keywords] => .ok (.call n.toInt keywords)
  | .asyncCall, [.integer n, .list keywords] => .ok (.asyncCall n.toInt keywords)
  | .pop, [] => .ok .pop
  | .wait, [] => .ok .wait
  | .ret, [] => .ok .ret
  | .operate op, [] => .ok (.operate op)
  | opcode, operands => .error (operandError opcode operands)

end Op

structure Instruction where
  op : Op
  source : List String := []

namespace Instruction

/-- Equality of instructions; the source trace does not count. -/
def same (a b : Instruction) : Bool :=
  a.op.opcode = b.op.opcode && Value.sameItems a.op.operands b.op.operands

end Instruction

end Teal
