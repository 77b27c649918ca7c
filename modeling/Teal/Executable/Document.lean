import Teal.Executable
import Teal.Code.Document
import Teal.Json.Printer
import Teal.Json.Reader

/-!
# Executables as documents

## Main definitions

* `Executable.toJson`, `Executable.ofJson`: the document of a program, and the program of one.
* `Executable.encode`, `Executable.decode`: the text of that document, and back.
-/

namespace Teal

inductive ExecutableError
  | invalidFormat (tag : String)
  | unsupportedVersion (version : Nat)
  | instruction (index : Nat) (cause : InstructionError)
  | badLocation (name : String) (location : Nat)
  /-- The text is no document, or its function table is malformed. -/
  | malformed

def ExecutableError.message : ExecutableError → String
  | .invalidFormat tag => "not a teal executable (format tag `" ++ tag ++ "`)"
  | .unsupportedVersion version => "unsupported executable version " ++ Nat.repr version
  | .instruction index cause => "instruction " ++ Nat.repr index ++ ": " ++ cause.message
  | .badLocation name location =>
    "function `" ++ name ++ "` points outside the code (" ++ Nat.repr location ++ ")"
  | .malformed => "json error: malformed document"

def FunctionEntry.toJson (info : FunctionEntry) : Json :=
  .obj ((info.tag.toList.map fun tag => ("attribute", .str tag)) ++
    [("location", .nat info.location), ("params", .strings info.params)])

def FunctionEntry.ofJson? (j : Json) : Option FunctionEntry := do
  let fields ← j.record? ["location", "params", "attribute"] 2
  let location ← Json.required fields "location" Json.nat?
  let params ← Json.required fields "params" Json.strings?
  let tag ← Json.optional fields "attribute" Json.string?
  some { location, params, tag }

namespace Executable

def format : String := "teal-bytecode"

def version : Nat := 1

def codeToJson : (index : Nat) → List Instruction → Except ExecutableError (List Json)
  | _, [] => .ok []
  | index, i :: rest =>
    match i.toJson with
    | .error cause => .error (.instruction index cause)
    | .ok j => (codeToJson (index + 1) rest).map (j :: ·)

def codeOfJson (table : List Opcode) : (index : Nat) → List Json →
    Except ExecutableError (List Instruction)
  | _, [] => .ok []
  | index, j :: rest =>
    match Instruction.ofJson table j with
    | .error cause => .error (.instruction index cause)
    | .ok i => (codeOfJson table (index + 1) rest).map (i :: ·)

def toJson (exe : Executable) : Except ExecutableError Json :=
  (codeToJson 0 exe.code).map fun code =>
    .obj [("code", .arr code), ("format", .str format),
      ("functions", .obj (exe.functions.map fun (name, info) => (name, info.toJson))),
      ("version", .nat version)]

def functionsOfJson? (j : Json) : Option (Table String FunctionEntry) :=
  j.object?.bind fun fields =>
    fields.mapM fun (name, j) => (FunctionEntry.ofJson? j).map fun info => (name, info)

def misplaced? (functions : Table String FunctionEntry) (length : Nat) :
    Option (String × FunctionEntry) :=
  functions.find? fun entry => length ≤ entry.2.location

def ofJson (table : List Opcode) (j : Json) : Except ExecutableError Executable :=
  let tag := ((j.field? "format").bind Json.string?).getD ""
  let found := ((j.field? "version").bind Json.nat?).getD 0
  if tag ≠ format then .error (.invalidFormat tag)
  else if found ≠ version then .error (.unsupportedVersion found)
  else match functionsOfJson? ((j.field? "functions").getD (.obj [])) with
    | none => .error .malformed
    | some functions => do
      let code ← codeOfJson table 0 (((j.field? "code").bind Json.array?).getD [])
      match misplaced? functions code.length with
      | some (name, info) => .error (.badLocation name info.location)
      | none => .ok { functions, code }

def encode (exe : Executable) : Except ExecutableError String :=
  exe.toJson.map Json.pretty

def decode (text : String) : Except ExecutableError Executable :=
  match Json.parse text with
  | some j => ofJson Opcode.all j
  | none => .error .malformed

end Executable

end Teal
