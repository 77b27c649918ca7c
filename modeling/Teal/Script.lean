import Teal.Compile
import Teal.Executable.Document
import Teal.Expr.Parser
import Teal.Invocation

/-!
# Scripts

From source text to result. Every failure on the way has a code that says in which part of the
way it arose.

## Main definitions

* `Stage`, `ScriptFailure`: the failures of scripts.
* `Source.compile`: the program of a source unit.
* `Source.run`: the result of a source unit.
-/

namespace Teal

inductive Stage
  | reading
  | compiling
  | bytecode
  | machine
  | store
deriving DecidableEq, Repr

def Stage.code : Stage → String
  | .reading => "E001"
  | .compiling => "E002"
  | .bytecode => "E003"
  | .machine => "E004"
  | .store => "E005"

structure ScriptFailure where
  stage : Stage
  message : String
  /-- The place in the source text, if the text could not be read. -/
  diagnostic : Option Diagnostic := none
deriving DecidableEq, Repr

namespace ScriptFailure

def display (e : ScriptFailure) : String :=
  "[" ++ e.stage.code ++ "] " ++ e.message

/-- The text shown to a user: with a caret if there is a place in the source text. -/
def render (e : ScriptFailure) : String :=
  match e.diagnostic with
  | some d => "[" ++ e.stage.code ++ "] " ++ d.render
  | none => "error: " ++ e.display ++ "\n"

def ofDiagnostic (d : Diagnostic) : ScriptFailure :=
  { stage := .reading, message := d.display, diagnostic := some d }

def ofLex (e : LexError) : ScriptFailure :=
  ofDiagnostic e.diagnostic

def ofParse (e : ParseError) : ScriptFailure :=
  ofDiagnostic e.diagnostic

def ofCompile (e : CompileError) : ScriptFailure :=
  { stage := .compiling, message := e.message }

def ofInstruction (e : InstructionError) : ScriptFailure :=
  { stage := .bytecode, message := e.message }

def ofExecutable (e : ExecutableError) : ScriptFailure :=
  { stage := .bytecode, message := e.message }

def ofMachine (e : MachineError) : ScriptFailure :=
  { stage := .machine, message := e.message }

def ofStore (e : StoreError) : ScriptFailure :=
  { stage := .store, message := e.message }

def ofInvocation : InvocationError → ScriptFailure
  | .store e => ofStore e
  | .machine e => ofMachine e
  | .state => { stage := .store, message := "saved state is not a machine world" }
  | .checkpoint cause => { stage := .store, message := cause.message }

end ScriptFailure

def Source.compile (source : Source) : Except ScriptFailure Executable := do
  let program ← source.parse.mapError ScriptFailure.ofParse
  (Teal.compile program).mapError ScriptFailure.ofCompile

def Executable.run (bound : Nat) (exe : Executable) (settings : MachineSettings) (entry : String)
    (args : List Value) : Option (Except ScriptFailure Report) :=
  (exe.evaluate bound settings entry args).map (Except.mapError ScriptFailure.ofMachine)

def Source.run (bound : Nat) (source : Source) (settings : MachineSettings) (entry : String)
    (args : List Value) : Option (Except ScriptFailure Report) :=
  match source.compile with
  | .error e => some (.error e)
  | .ok exe => exe.run bound settings entry args

end Teal
