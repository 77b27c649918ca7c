import Teal.Decimal.Numeral

/-!
# Words of a command line

Words are options with one or two dashes, or positional. An option takes a value from the same
word after an equals sign or from the next word. Two dashes end the options. Words are judged
in their order, so a wrong value counts before a later word that asks for help.

## Main definitions

* `Cli.Word`: what a word looks like.
* `Cli.ValueKind`: what a value has to be.
* `Cli.Grammar`: the options and positional words of a command.
* `Cli.Found`, `Cli.Grammar.read`: what was found, and the reading of words.
-/

namespace Teal.Cli

inductive Word
  /-- Two dashes alone. -/
  | escape
  | long (name : String) (value : Option String)
  | short (letters : List Char)
  | plain
deriving DecidableEq, Repr

def splitLong (text : List Char) : Word :=
  let name := String.ofList (text.takeWhile (· ≠ '='))
  match text.dropWhile (· ≠ '=') with
  | [] => .long name none
  | _ :: value => .long name (some (String.ofList value))

def classify (word : String) : Word :=
  match word.toList with
  | ['-', '-'] => .escape
  | '-' :: '-' :: rest => splitLong rest
  | '-' :: c :: rest => .short (c :: rest)
  | _ => .plain

inductive Stop
  /-- The words make no command. -/
  | misuse
  /-- The options are asked for. -/
  | help
  /-- The version is asked for. -/
  | version
deriving DecidableEq, Repr

def count? (text : String) : Option Nat :=
  let digits := match text.toList with
    | '+' :: digits => digits
    | digits => digits
  let n := Numeral.natOfDigits digits
  if digits.isEmpty || !digits.all Char.isDigit || UInt64.size ≤ n then none else some n

inductive ValueKind
  | text
  /-- A path, which is not empty. -/
  | path
  /-- A number of 64 bits. -/
  | count
deriving DecidableEq, Repr

def ValueKind.accepts : ValueKind → String → Bool
  | .text, _ => true
  | .path, value => value ≠ ""
  | .count, value => (count? value).isSome

inductive Effect
  /-- It takes a value. -/
  | value (kind : ValueKind)
  | flag
  /-- It ends the reading at once. -/
  | stop (stop : Stop)
deriving DecidableEq, Repr

structure Opt where
  name : String
  letter : Option Char := none
  effect : Effect
deriving DecidableEq, Repr

def Opt.takesValue (o : Opt) : Bool :=
  match o.effect with
  | .value _ => true
  | _ => false

structure Grammar where
  options : List Opt
  /-- How many positional words there are at most, all of them paths. -/
  positionals : Nat
  /-- Whether all words after those are the arguments of a program. -/
  trailing : Bool := false
  /-- The words that end the reading because another command starts there. -/
  commands : List String := []

structure Found where
  values : List (String × String) := []
  flags : List String := []
  positionals : List String := []
  /-- The arguments of a program, or the words from the next command on. -/
  rest : List String := []
  /-- The option that waits for its value, and what this has to be. -/
  pending : Option (String × ValueKind) := none
deriving DecidableEq, Repr

namespace Found

def addValue (f : Found) (name : String) (kind : ValueKind) (value : String) :
    Except Stop Found :=
  if f.pending.isSome || (f.values.lookup name).isSome || !kind.accepts value then .error .misuse
  else .ok { f with values := f.values ++ [(name, value)] }

def addFlag (f : Found) (name : String) : Except Stop Found :=
  if f.pending.isSome || f.flags.contains name then .error .misuse
  else .ok { f with flags := name :: f.flags }

def await (f : Found) (name : String) (kind : ValueKind) : Except Stop Found :=
  if f.pending.isSome then .error .misuse else .ok { f with pending := some (name, kind) }

def addPositional (f : Found) (word : String) : Except Stop Found :=
  if ValueKind.path.accepts word then .ok { f with positionals := f.positionals ++ [word] }
  else .error .misuse

def finish (f : Found) : Except Stop Found :=
  if f.pending.isSome then .error .misuse else .ok f

end Found

namespace Grammar

def named? (g : Grammar) (name : String) : Option Opt :=
  g.options.find? fun o => o.name = name

def lettered? (g : Grammar) (c : Char) : Option Opt :=
  g.options.find? fun o => o.letter = some c

/-- Whether the next positional word is an argument of a program, which may start with a dash. -/
def takesArguments (g : Grammar) (f : Found) : Bool :=
  g.trailing && g.positionals ≤ f.positionals.length

def apply (f : Found) (o : Opt) : Except Stop Found :=
  match o.effect with
  | .value kind => f.await o.name kind
  | .flag => f.addFlag o.name
  | .stop stop => if f.pending.isSome then .error .misuse else .error stop

def applyTo (f : Found) (o : Opt) (value : String) : Except Stop Found :=
  match o.effect with
  | .value kind => f.addValue o.name kind value
  | .flag | .stop _ => .error .misuse

def attached : List Char → String
  | '=' :: value => String.ofList value
  | value => String.ofList value

def readLetters (g : Grammar) (f : Found) : List Char → Except Stop Found
  | [] => .ok f
  | c :: rest =>
    match g.lettered? c with
    | none => .error .misuse
    | some o =>
      if o.takesValue && !rest.isEmpty then applyTo f o (attached rest)
      else do
        let f ← apply f o
        readLetters g f rest

/-- A word as an option, or nothing if it is none. A word that looks like an option but is not
one is refused, unless it can be an argument of a program. -/
def readOption (g : Grammar) (f : Found) (word : String) : Except Stop (Option Found) :=
  match classify word with
  | .escape | .plain => .ok none
  | .long name value =>
    match g.named? name, value with
    | none, _ => if g.takesArguments f then .ok none else .error .misuse
    | some o, none => (apply f o).map some
    | some o, some value => (applyTo f o value).map some
  | .short letters =>
    if g.takesArguments f && letters.any fun c => (g.lettered? c).isNone then .ok none
    else (readLetters g f letters).map some

def readPositionals (g : Grammar) (f : Found) : List String → Except Stop Found
  | [] => f.finish
  | word :: rest =>
    if f.positionals.length < g.positionals then
      match f.addPositional word with
      | .error stop => .error stop
      | .ok f => readPositionals g f rest
    else if g.trailing then { f with rest := word :: rest }.finish
    else .error .misuse

def read (g : Grammar) (f : Found) : List String → Except Stop Found
  | [] => f.finish
  | word :: rest =>
    if f.pending.isNone && g.commands.contains word then .ok { f with rest := word :: rest }
    else if classify word = .escape then readPositionals g f rest
    else match readOption g f word with
      | .error stop => .error stop
      | .ok (some f) => read g f rest
      | .ok none =>
        match f.pending with
        | some (name, kind) =>
          match { f with pending := none }.addValue name kind word with
          | .error stop => .error stop
          | .ok f => read g f rest
        | none =>
          if f.positionals.length < g.positionals then
            match f.addPositional word with
            | .error stop => .error stop
            | .ok f => read g f rest
          else if g.trailing then .ok { f with rest := word :: rest }
          else .error .misuse

end Grammar

end Teal.Cli
