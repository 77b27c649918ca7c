import Teal.Cli.Command
import Teal.Config
import Teal.Executable.Listing
import Teal.Expr.Printer
import Teal.Host
import Teal.Path
import Teal.Script

/-!
# The command line

What the commands do, on any host. A command prints as it goes, so what it printed before it
failed stays printed.

## Main definitions

* `Cli.Failure`: why a command failed.
* `Cli.perform`: what a command does.
* `Cli.respond`: what a command line prints, and its exit code.
-/

namespace Teal.Cli

inductive Failure
  | script (error : ScriptFailure)
  | read (path : String) (cause : HostError)
  | openFile (path : String) (cause : HostError)
  | create (path : String) (cause : HostError)
  | readConfig (path : String) (cause : HostError)
  | parseConfig (path : String)
  /-- A compiled program has no expressions to print. -/
  | noExpressions (path : String)
  | session (id message : String)
  /-- The program did not end within the bound. -/
  | unfinished

def Failure.render : Failure → String
  | .script error => error.render
  | .read path cause => "error: failed to read " ++ path ++ ": " ++ cause.message ++ "\n"
  | .openFile path cause => "error: failed to open " ++ path ++ ": " ++ cause.message ++ "\n"
  | .create path cause => "error: failed to create " ++ path ++ ": " ++ cause.message ++ "\n"
  | .readConfig path cause =>
    "error: reading configuration from " ++ path ++ ": " ++ cause.message ++ "\n"
  | .parseConfig path => "error: parsing configuration " ++ path ++ ": malformed settings\n"
  | .noExpressions path => "error: --print-ast needs a source file, got " ++ path ++ "\n"
  | .session id message => "error: session " ++ id ++ " failed: " ++ message ++ "\n"
  | .unfinished => "error: the program is still running\n"

abbrev Work (m : Type → Type) := ExceptT Failure (StateT String m)

variable {m : Type → Type} [Monad m] [Host m]

def say (text : String) : Work m Unit :=
  modify (· ++ text)

def sayLines (lines : List String) : Work m Unit :=
  say (String.join (lines.map (· ++ "\n")))

def ask (question : m α) : Work m α :=
  fun printed => do return (.ok (← question), printed)

def orFail (failure : ε → Failure) : Except ε α → Work m α
  | .ok a => pure a
  | .error e => throw (failure e)

def source (path : String) : Work m Source := do
  let text ← orFail (.read path) (← ask (Host.read path))
  return { filename := path, text }

def isCompiled (path : String) : Bool :=
  Path.extension? path = some "tlc"

/-- Why a compiled program cannot be read. A directory can be opened like a file, so that only
its reading as a document fails. -/
def unreadable (path : String) : HostError → Failure
  | .isDirectory =>
    .script { stage := .bytecode, message := "json error: " ++ HostError.isDirectory.message }
  | cause => .openFile path cause

def program (path : String) : Work m Executable := do
  if isCompiled path then
    let text ← orFail (unreadable path) (← ask (Host.read path))
    orFail (fun e => .script (.ofExecutable e)) (Executable.decode text)
  else
    orFail .script (← source path).compile

def printExpressions (path : String) : Work m Unit := do
  let program ← orFail (fun e => .script (.ofParse e)) (← source path).parse
  sayLines (program.map Expr.display)

def tokenLine (text : List Char) (t : Token) : String :=
  Nat.repr t.line ++ ":" ++ Nat.repr (Text.columnAt text t.index) ++ "\t" ++ t.kind.listed ++
    "\t" ++ Text.quoted t.value

def printTokens (path : String) : Work m Unit := do
  let unit ← source path
  let tokens ← orFail (fun e => .script (.ofLex e)) unit.lex.terminate.toExcept
  sayLines (tokens.map (tokenLine unit.text.toList))

def compileTo (input : String) (output : Option String) : Work m Unit := do
  let exe ← orFail .script (← source input).compile
  let path := output.getD (Path.withExtension input "tlc")
  let text ← orFail (fun e => .script (.ofExecutable e)) exe.encode
  orFail (.create path) (← ask (Host.write path text))
  say ("wrote " ++ path ++ "\n")

def runProgram (bound : Nat) (config : Config) (call : Call) : Work m Unit := do
  let exe ← program call.script
  match exe.run bound config.machine (call.entry.getD config.entry) (call.args.map argument) with
  | none => throw .unfinished
  | some outcome =>
    let report ← orFail .script outcome
    sayLines (report.allOutput ++ [report.result.display])

def absolute? (value : Option String) : Option String :=
  value.filter Path.isAbsolute

def userDirectory (name below : String) : Work m (Option String) := do
  let home ← ask (Host.environment "HOME")
  let given ← ask (Host.environment name)
  return (absolute? given).or ((home.filter (· ≠ "")).map fun path => Path.join path below)

def defaultStateDir : Work m String := do
  match ← userDirectory "XDG_DATA_HOME" ".local/share" with
  | some dir => return Path.join dir "teal/sessions"
  | none => return ".teal/sessions"

def storeFailure (cause : HostError) : Failure :=
  .script (.ofStore (.host cause))

def stateDir (config : Config) (kept : Kept) : Work m String := do
  let dir ← match kept.stateDir.or config.stateDir with
    | some dir => pure dir
    | none => defaultStateDir
  orFail storeFailure (← ask (Host.makeDirectory dir))
  return dir

def openStore (dir id : String) : Work m DirectoryStore := do
  match DirectoryStore.fileName id with
  | .error _ => return {}
  | .ok name =>
    match ← ask (Host.read (Path.join dir name)) with
    | .ok text => return { files := [(name, text)] }
    | .error .missing => return {}
    | .error e => throw (storeFailure e)

/-- Writes the files of a store to a directory. Each is written beside the old one and then put
in its place, so that a reader finds a whole file. -/
def closeStore (dir : String) : (files : Table String String) → Work m Unit
  | [] => pure ()
  | (name, text) :: rest => do
    let path := Path.join dir name
    let draft := path ++ ".tmp"
    orFail storeFailure (← ask (Host.write draft text))
    orFail storeFailure (← ask (Host.rename draft path))
    closeStore dir rest

def saveSession (dir id : String) (c : Scheduler) : Work m Unit := do
  let store ← orFail (fun e => .script (.ofInvocation e))
    (Invocation.checkpoint ({} : DirectoryStore) id c.world)
  closeStore dir store.files

def startSession (config : Config) (call : Call) (kept : Kept) : Work m Unit := do
  let executable ← program call.script
  let dir ← stateDir config kept
  let invocation : Invocation := { executable, settings := config.machine }
  let store ← orFail (fun e => .script (.ofInvocation e))
    (invocation.start ({} : DirectoryStore) kept.session (call.entry.getD config.entry)
      (call.args.map argument))
  closeStore dir store.files
  say ("started " ++ kept.session ++ "\n")

def sayStatus (id : String) : Standing → Work m Unit
  | .finished result output => sayLines (output ++ [result.display])
  | .pending => say "pending\n"
  | .failed message => throw (.session id message)

def resumeSession (config : Config) (script : String) (kept : Kept) (quanta : Nat) :
    Work m Unit := do
  let executable ← program script
  let dir ← stateDir config kept
  let store ← openStore dir kept.session
  let invocation : Invocation := { executable, settings := config.machine }
  let c ← orFail (fun e => .script (.ofInvocation e))
    (invocation.advance store kept.session quanta)
  saveSession dir kept.session c
  sayStatus kept.session (← orFail (fun e => .script (.ofInvocation e)) (Invocation.statusOf c))

def perform (bound : Nat) (config : Config) : Command → Work m Unit
  | .run call trace printAst => do
    if printAst then
      if isCompiled call.script then throw (.noExpressions call.script)
      printExpressions call.script
    runProgram bound { config with trace := config.trace || trace } call
  | .compile input output => compileTo input output
  | .tokens input => printTokens input
  | .ast input => printExpressions input
  | .disasm input => do say (← program input).listing
  | .start call kept => startSession config call kept
  | .resume script kept quanta => resumeSession config script kept quanta

def readConfig (path : String) : Work m Config := do
  let text ← orFail (.readConfig path) (← ask (Host.read path))
  match Config.read text with
  | some config => return config
  | none => throw (.parseConfig path)

def firstFile : List String → Work m (Option String)
  | [] => return none
  | path :: rest => do
    if ← ask (Host.isFile path) then return some path
    firstFile rest

/-- The configuration of a named file; without one, of the file in the working directory or of
the user's; without these, the default one. -/
def loadConfig (named : Option String) : Work m Config := do
  match named with
  | some path => readConfig path
  | none =>
    let user ← userDirectory "XDG_CONFIG_HOME" ".config"
    let paths := "teal.toml" :: (user.map fun dir => Path.join dir "teal/config.toml").toList
    match ← firstFile paths with
    | some path => readConfig path
    | none => return {}

def fulfil (bound : Nat) (request : Request) : Work m Unit := do
  let config ← loadConfig request.config
  let trace ← ask (Host.environment Config.traceVariable)
  perform bound (config.withTrace trace) request.command

structure Answer where
  code : Nat
  out : String := ""
  err : String := ""
deriving DecidableEq, Repr

def versionLine : String := "teal 0.1.0\n"

def usage : String :=
  "Usage: teal [--config CONFIG] COMMAND\n\n" ++
  "  run SCRIPT [--entry NAME] [--trace] [--print-ast] [ARGS]...\n" ++
  "  compile INPUT [--output FILE]\n" ++
  "  tokens INPUT\n" ++
  "  ast INPUT\n" ++
  "  disasm INPUT\n" ++
  "  start SCRIPT --session ID [--entry NAME] [--state-dir DIR] [ARGS]...\n" ++
  "  resume SCRIPT --session ID [--quanta N] [--state-dir DIR]\n"

def Stop.answer : Stop → Answer
  | .misuse => { code := 2, err := usage }
  | .help => { code := 0, out := usage }
  | .version => { code := 0, out := versionLine }

def respond (bound : Nat) (words : List String) : m Answer :=
  match Request.ofWords words with
  | .error stop => pure stop.answer
  | .ok request => do
    match ← (fulfil bound request : Work m Unit).run.run "" with
    | (.ok (), out) => return { code := 0, out }
    | (.error failure, out) => return { code := 1, out, err := failure.render }

end Teal.Cli
