import Teal.Cli.Words
import Teal.Decimal.Numeral
import Teal.Value

/-!
# Commands

## Main definitions

* `Cli.Command`, `Cli.Request`: what a command line asks for.
* `Cli.Request.ofWords`: the request of the words of a command line.
* `Cli.argument`: the value of a word that is handed to a program.
-/

namespace Teal.Cli

structure Call where
  script : String
  /-- The function; without one, that of the configuration. -/
  entry : Option String
  args : List String
deriving DecidableEq, Repr

structure Kept where
  session : String
  /-- The directory of the session; without one, that of the configuration. -/
  stateDir : Option String
deriving DecidableEq, Repr

inductive Command
  | run (call : Call) (trace printAst : Bool)
  | compile (input : String) (output : Option String)
  | tokens (input : String)
  | ast (input : String)
  | disasm (input : String)
  | start (call : Call) (kept : Kept)
  | resume (script : String) (kept : Kept) (quanta : Nat)
deriving DecidableEq, Repr

structure Request where
  config : Option String
  command : Command
deriving DecidableEq, Repr

def helpOption : Opt := ⟨"help", some 'h', .stop .help⟩

def configOption : Opt := ⟨"config", none, .value .path⟩

def valueOption (name : String) (kind : ValueKind) : Opt := ⟨name, none, .value kind⟩

def sessionOption : Opt := valueOption "session" .text

def entryOption : Opt := valueOption "entry" .text

def stateDirOption : Opt := valueOption "state-dir" .path

def grammarOf : String → Grammar
  | "run" =>
    { options := [entryOption, ⟨"trace", none, .flag⟩, ⟨"print-ast", none, .flag⟩,
        configOption, helpOption]
      positionals := 1
      trailing := true }
  | "compile" =>
    { options := [⟨"output", some 'o', .value .path⟩, configOption, helpOption]
      positionals := 1 }
  | "start" =>
    { options := [sessionOption, entryOption, stateDirOption, configOption, helpOption]
      positionals := 1
      trailing := true }
  | "resume" =>
    { options := [sessionOption, valueOption "quanta" .count, stateDirOption, configOption,
        helpOption]
      positionals := 1 }
  | _ => { options := [configOption, helpOption], positionals := 1 }

def commandNames : List String :=
  ["run", "compile", "tokens", "ast", "disasm", "start", "resume"]

def outerGrammar : Grammar :=
  { options := [configOption, helpOption, ⟨"version", some 'V', .stop .version⟩]
    positionals := 0
    commands := "help" :: commandNames }

def firstPath (f : Found) : Except Stop String :=
  match f.positionals with
  | path :: _ => .ok path
  | [] => .error .misuse

def kept (f : Found) : Except Stop Kept :=
  match f.values.lookup "session" with
  | some session => .ok { session, stateDir := f.values.lookup "state-dir" }
  | none => .error .misuse

def call (f : Found) : Except Stop Call := do
  let script ← firstPath f
  .ok { script, entry := f.values.lookup "entry", args := f.rest }

def quanta (f : Found) : Nat :=
  ((f.values.lookup "quanta").bind count?).getD 1

def Command.ofFound (name : String) (f : Found) : Except Stop Command :=
  match name with
  | "run" => do .ok (.run (← call f) (f.flags.contains "trace") (f.flags.contains "print-ast"))
  | "compile" => do .ok (.compile (← firstPath f) (f.values.lookup "output"))
  | "tokens" => do .ok (.tokens (← firstPath f))
  | "ast" => do .ok (.ast (← firstPath f))
  | "disasm" => do .ok (.disasm (← firstPath f))
  | "start" => do .ok (.start (← call f) (← kept f))
  | "resume" => do .ok (.resume (← firstPath f) (← kept f) (quanta f))
  | _ => .error .misuse

def helpFor : List String → Stop
  | [] => .help
  | [name] => if ("help" :: commandNames).contains name then .help else .misuse
  | _ => .misuse

/-- The request of the words of a command line. A configuration file named after the command
counts more than one named before it. -/
def Request.ofWords (words : List String) : Except Stop Request := do
  let outer ← outerGrammar.read {} words
  match outer.rest with
  | [] => .error .misuse
  | "help" :: rest => .error (helpFor rest)
  | name :: rest =>
    let inner ← (grammarOf name).read {} rest
    let command ← Command.ofFound name inner
    .ok { config := (inner.values.lookup "config").or (outer.values.lookup "config"), command }

/-- The value of a word that is handed to a program: an integer or a finite double where it
spells one, otherwise a string. -/
def argument (word : String) : Value :=
  match Numeral.int64? word.toList with
  | some n => .integer n
  | none =>
    match Numeral.float? word.toList with
    | some x => if x.isFinite then .float x else .string word
    | none => .string word

end Teal.Cli
