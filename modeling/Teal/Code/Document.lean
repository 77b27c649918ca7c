import Teal.Code
import Teal.Value.Document

/-!
# Instructions as documents

An instruction is written as an array of its opcode's name, its operands and its source trace.

## Main definitions

* `Instruction.toJson`: the document of an instruction.
* `Instruction.ofJson`: the instruction of a document, out of the opcodes a table admits.
-/

namespace Teal

inductive InstructionProblem
  | notTriple
  | nameNotString
  | operandsNotArray
  | badOperand
  | badTrace
deriving DecidableEq, Repr

def InstructionProblem.message : InstructionProblem → String
  | .notTriple => "expected a 3-element array"
  | .nameNotString => "opcode name must be a string"
  | .operandsNotArray => "operands must be an array"
  | .badOperand => "operand is not a value"
  | .badTrace => "source trace must be an array of strings"

inductive InstructionError
  | operands (cause : OperandError)
  | unknownOpcode (name : String)
  | malformed (problem : InstructionProblem)
  | unserializable (opcode : Opcode) (cause : NonFinite)

def InstructionError.message : InstructionError → String
  | .operands cause => cause.message
  | .unknownOpcode name => "unknown opcode `" ++ name ++ "`"
  | .malformed problem => "malformed instruction: " ++ problem.message
  | .unserializable opcode cause =>
    opcode.name ++ ": operand cannot be serialized: " ++ cause.message

namespace Instruction

def toJson (i : Instruction) : Except InstructionError Json :=
  match Value.itemsToJson i.op.operands with
  | .ok operands => .ok (.arr [.str i.op.opcode.name, .arr operands, .strings i.source])
  | .error cause => .error (.unserializable i.op.opcode cause)

def ofParts (opcode : Opcode) (operands trace : Json) : Except InstructionError Instruction :=
  match operands with
  | .arr items =>
    match Value.itemsOfJson? items, trace.strings? with
    | none, _ => .error (.malformed .badOperand)
    | _, none => .error (.malformed .badTrace)
    | some operands, some source =>
      match Op.ofOperands opcode operands with
      | .ok op => .ok { op, source }
      | .error cause => .error (.operands cause)
  | _ => .error (.malformed .operandsNotArray)

def ofJson (table : List Opcode) : Json → Except InstructionError Instruction
  | .arr [name, operands, trace] =>
    match name with
    | .str name =>
      match Opcode.ofName? table name with
      | some opcode => ofParts opcode operands trace
      | none => .error (.unknownOpcode name)
    | _ => .error (.malformed .nameNotString)
  | _ => .error (.malformed .notTriple)

end Instruction

end Teal
