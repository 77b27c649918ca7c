import Teal.Expr.Chain
import Teal.Expr.Spelling
import Teal.Token.Terminator

/-!
# Parsing

Expressions are read from a list of tokens from left to right, and the first token that does not
fit ends the reading. Operands nest at most `Parser.maxDepth` deep: the recursion is on the depth
that is left, and every form is read by a function of the operand reader one level deeper. Loops
over items are bounded by the number of tokens, of which each item takes at least one.

## Main definitions

* `ParseError`: why a text is no program.
* `Parser.expression`: a chain of operands and operators.
* `Parser.form`: one operand.
* `Parser.program`, `Source.parse`: all expressions of a stream, and of a source unit.
-/

namespace Teal

inductive ParseProblem
  | chained (op : BinaryOp)
  | nestedTooDeeply
  | invalidNumber (text : String)
  | duplicateParameter (name : String)
  | emptyBlock
deriving DecidableEq, Repr

def ParseProblem.message : ParseProblem → String
  | .chained op => "operator `" ++ op.spelling ++ "` cannot be chained"
  | .nestedTooDeeply => "expression nested too deeply"
  | .invalidNumber text => "invalid number `" ++ text ++ "`"
  | .duplicateParameter name => "duplicate parameter `" ++ name ++ "`"
  | .emptyBlock => "empty block"

inductive ParseError
  | lex (error : LexError)
  | unexpectedToken (expected : String) (found : Token) (loc : Location)
  | unexpectedEnd (expected : String) (loc : Location)
  | invalid (problem : ParseProblem) (loc : Location)
deriving DecidableEq, Repr

def ParseError.diagnostic : ParseError → Diagnostic
  | .lex error => error.diagnostic
  | .unexpectedToken expected found loc =>
    { loc with message := "expected " ++ expected ++ ", found " ++ found.describe }
  | .unexpectedEnd expected loc =>
    { loc with message := "unexpected end of input, expected " ++ expected }
  | .invalid problem loc => { loc with message := problem.message }

namespace Parser

def maxDepth : Nat := 256

/-- What a reader knows besides the tokens: where offsets lie, and what ends the tokens. -/
structure Context where
  locate : Nat → Location
  endIndex : Nat
  failure : Option LexError

abbrev Parsed (α : Type) := α × List Token

abbrev Reader (α : Type) := List Token → Except ParseError (Parsed α)

namespace Context

def loc (ctx : Context) (token : Token) : Location :=
  ctx.locate token.index

def unexpected (ctx : Context) (token : Token) (expected : String) : ParseError :=
  .unexpectedToken expected token (ctx.loc token)

/-- The tokens end where another is expected: because the text does, or because of an error. -/
def ended (ctx : Context) (expected : String) : ParseError :=
  match ctx.failure with
  | some error => .lex error
  | none => .unexpectedEnd expected (ctx.locate ctx.endIndex)

def invalid (ctx : Context) (token : Token) (problem : ParseProblem) : ParseError :=
  .invalid problem (ctx.loc token)

end Context

def skipTerminators (tokens : List Token) : List Token :=
  tokens.dropWhile fun token => token.kind = .terminator

def eat? (kind : Token.Kind) : List Token → Option (List Token)
  | [] => none
  | token :: rest => if token.kind = kind then some rest else none

def expect (ctx : Context) (kind : Token.Kind) (expected : String) : Reader Token
  | [] => .error (ctx.ended expected)
  | token :: rest =>
    if token.kind = kind then .ok (token, rest) else .error (ctx.unexpected token expected)

/-- A round of a chain: an operator and its operand, and then the rest. -/
def chainRound (ctx : Context) (operand : Reader Expr)
    (again : List Waiting → Expr → Reader Expr) : List Waiting → Expr → Reader Expr
  | waiting, left, [] => .ok (Waiting.closeAll waiting left, [])
  | waiting, left, token :: rest =>
    match BinaryOp.ofKind? token.kind with
    | none => .ok (Waiting.closeAll waiting left, token :: rest)
    | some op =>
      match Waiting.push op waiting left with
      | none => .error (ctx.invalid token (.chained op))
      | some waiting => do
        let (right, rest) ← operand rest
        again waiting right rest

def chain (ctx : Context) (operand : Reader Expr) :
    (fuel : Nat) → List Waiting → Expr → Reader Expr
  | 0, waiting, left, tokens => .ok (Waiting.closeAll waiting left, tokens)
  | fuel + 1, waiting, left, tokens =>
    chainRound ctx operand (chain ctx operand fuel) waiting left tokens

def expression (ctx : Context) (operand : Reader Expr) (tokens : List Token) :
    Except ParseError (Parsed Expr) := do
  let (left, rest) ← operand tokens
  chain ctx operand rest.length [] left rest

/-- A round of `separated`: the closing token, or an item and, after a comma, the rest. -/
def separatedRound (ctx : Context) (close : Token.Kind) (expected : String)
    (item : List α → Reader α) (again : List α → Reader (List α)) (items : List α)
    (tokens : List Token) : Except ParseError (Parsed (List α)) :=
  let tokens := skipTerminators tokens
  match eat? close tokens with
  | some rest => .ok (items, rest)
  | none => do
    let (x, rest) ← item items tokens
    let rest := skipTerminators rest
    match eat? .comma rest with
    | some rest => again (items ++ [x]) rest
    | none =>
      let (_, rest) ← expect ctx close expected rest
      .ok (items ++ [x], rest)

/-- Items separated by commas up to a closing token; a comma may follow the last. An item is
read knowing those before it. -/
def separated (ctx : Context) (close : Token.Kind) (expected : String)
    (item : List α → Reader α) :
    (fuel : Nat) → List α → Reader (List α)
  | 0, _, _ => .error (ctx.ended expected)
  | fuel + 1, items, tokens =>
    separatedRound ctx close expected item (separated ctx close expected item fuel) items tokens

def delimited (ctx : Context) (close : Token.Kind) (expected : String)
    (item : List α → Reader α) (tokens : List Token) : Except ParseError (Parsed (List α)) :=
  separated ctx close expected item (tokens.length + 1) [] tokens

def parameter (ctx : Context) (seen : List String) (tokens : List Token) :
    Except ParseError (Parsed String) := do
  let (token, rest) ← expect ctx .name "parameter name" tokens
  if seen.contains token.value then
    .error (ctx.invalid token (.duplicateParameter token.value))
  else .ok (token.value, rest)

def parameters (ctx : Context) (tokens : List Token) :
    Except ParseError (Parsed (List String)) := do
  let (_, rest) ← expect ctx .leftParen "`(`" tokens
  delimited ctx .rightParen "`,` or `)`" (parameter ctx) rest

def symbolName (token : Token) : String :=
  String.ofList (token.value.toList.drop 1)

def startsKeyword : List Token → Bool
  | first :: second :: _ => first.kind = .symbol && second.kind.startsExpression
  | _ => false

def argument (ctx : Context) (operand : Reader Expr) (tokens : List Token) :
    Except ParseError (Parsed Expr) :=
  match tokens with
  | token :: rest =>
    if startsKeyword tokens then do
      let (value, rest) ← expression ctx operand rest
      let loc := ctx.loc token
      .ok (.argument loc (some (.symbol loc (symbolName token))) value, rest)
    else do
      let (value, rest) ← expression ctx operand tokens
      .ok (value.positional, rest)
  | [] => do
    let (value, rest) ← expression ctx operand []
    .ok (value.positional, rest)

def pair (ctx : Context) (operand : Reader Expr) (tokens : List Token) :
    Except ParseError (Parsed (Expr × Expr)) := do
  let (key, rest) ← expression ctx operand tokens
  let (_, rest) ← expect ctx .colon "`:`" (skipTerminators rest)
  let (value, rest) ← expression ctx operand (skipTerminators rest)
  .ok ((key, value), rest)

/-- A list literal calls `list`. -/
def listLiteral (ctx : Context) (operand : Reader Expr) (bracket : Token)
    (tokens : List Token) : Except ParseError (Parsed Expr) := do
  let (items, rest) ← delimited ctx .rightBracket "`,` or `]`"
    (fun _ => expression ctx operand) tokens
  .ok (Expr.callNamed (ctx.loc bracket) "list" (items.map .positional), rest)

def hashLiteral (ctx : Context) (operand : Reader Expr) (brace : Token)
    (tokens : List Token) : Except ParseError (Parsed Expr) := do
  let (pairs, rest) ← delimited ctx .rightBrace "`,` or `\x7d`" (fun _ => pair ctx operand) tokens
  let args := pairs.flatMap fun (key, value) => [key.positional, value.positional]
  .ok (Expr.callNamed (ctx.loc brace) "hash" args, rest)

/-- The tokens after an item of a block: a terminator is due unless the block ends. -/
def endItem (ctx : Context) (tokens : List Token) : Except ParseError (List Token) :=
  match eat? .rightBrace tokens with
  | some _ => .ok tokens
  | none => (expect ctx .terminator "terminator or `\x7d`" tokens).map Prod.snd

def blockRound (ctx : Context) (operand : Reader Expr) (again : Reader (List Expr))
    (tokens : List Token) : Except ParseError (Parsed (List Expr)) :=
  match skipTerminators tokens with
  | [] => .error (ctx.ended "`\x7d`")
  | token :: rest =>
    if token.kind = .rightBrace then .ok ([], rest)
    else do
      let (item, rest) ← expression ctx operand (token :: rest)
      let rest ← endItem ctx rest
      let (items, rest) ← again rest
      .ok (item :: items, rest)

def blockItems (ctx : Context) (operand : Reader Expr) :
    (fuel : Nat) → Reader (List Expr)
  | 0, _ => .error (ctx.ended "`\x7d`")
  | fuel + 1, tokens => blockRound ctx operand (blockItems ctx operand fuel) tokens

def block (ctx : Context) (operand : Reader Expr) (tokens : List Token) :
    Except ParseError (Parsed Expr) := do
  let (brace, rest) ← expect ctx .leftBrace "`\x7b`" tokens
  let (items, rest) ← blockItems ctx operand (rest.length + 1) rest
  if items.isEmpty then .error (ctx.invalid brace .emptyBlock)
  else .ok (.block (ctx.loc brace) items, rest)

def continuesIf (kind : Token.Kind) : Bool :=
  kind = .kwElif || kind = .kwElse

/-- A terminator between two branches of a conditional carries no meaning. -/
def joinBranches : List Token → List Token
  | first :: second :: rest =>
    if first.kind = .terminator && continuesIf second.kind then second :: rest
    else first :: second :: rest
  | tokens => tokens

/-- A round of `conditional`: its condition and branches, and what is left after an `elif`. -/
def conditionalRound (ctx : Context) (operand : Reader Expr) (again : Token → Reader Expr)
    (word : Token) (tokens : List Token) : Except ParseError (Parsed Expr) := do
  let (condition, rest) ← expression ctx operand tokens
  let (consequence, rest) ← block ctx operand rest
  let loc := ctx.loc word
  match joinBranches rest with
  | [] => .ok (.conditional loc condition consequence none, [])
  | token :: rest =>
    if token.kind = .kwElif then do
      let (alternative, rest) ← again token rest
      .ok (.conditional loc condition consequence (some alternative), rest)
    else if token.kind = .kwElse then do
      let (alternative, rest) ← block ctx operand rest
      .ok (.conditional loc condition consequence (some alternative), rest)
    else .ok (.conditional loc condition consequence none, token :: rest)

/-- A conditional after its first word. Each `elif` is a conditional in the place of the
alternative. -/
def conditional (ctx : Context) (operand : Reader Expr) :
    (fuel : Nat) → Token → Reader Expr
  | 0, _, _ => .error (ctx.ended "expression")
  | fuel + 1, word, tokens =>
    conditionalRound ctx operand (conditional ctx operand fuel) word tokens

def definition (ctx : Context) (operand : Reader Expr) (start : Token)
    (tag : Option String) (tokens : List Token) : Except ParseError (Parsed Expr) := do
  let (name, rest) ← expect ctx .name "function name" tokens
  let (params, rest) ← parameters ctx rest
  let (body, rest) ← block ctx operand rest
  .ok (.definition (ctx.loc start) name.value params body tag, rest)

def tagged (ctx : Context) (operand : Reader Expr) (tag : Token)
    (tokens : List Token) : Except ParseError (Parsed Expr) := do
  let (_, rest) ← expect ctx .kwFn "`fn` after attribute" (skipTerminators tokens)
  definition ctx operand tag (some tag.value) rest

def lambda (ctx : Context) (operand : Reader Expr) (word : Token)
    (tokens : List Token) : Except ParseError (Parsed Expr) := do
  let (params, rest) ← parameters ctx tokens
  let (body, rest) ← block ctx operand rest
  .ok (.lambda (ctx.loc word) params body, rest)

/-- An expression in parentheses stands for itself. -/
def parenthesized (ctx : Context) (operand : Reader Expr) (tokens : List Token) :
    Except ParseError (Parsed Expr) := do
  let (inner, rest) ← expression ctx operand (skipTerminators tokens)
  let (_, rest) ← expect ctx .rightParen "`)`" (skipTerminators rest)
  .ok (inner, rest)

def nameOrCall (ctx : Context) (operand : Reader Expr) (token : Token)
    (tokens : List Token) : Except ParseError (Parsed Expr) :=
  let loc := ctx.loc token
  match eat? .leftParen tokens with
  | none => .ok (.ident loc token.value, tokens)
  | some rest => do
    let (args, rest) ← delimited ctx .rightParen "`,` or `)`" (fun _ => argument ctx operand) rest
    .ok (.call loc (.ident loc token.value) args, rest)

def number (ctx : Context) (token : Token) (tokens : List Token) :
    Except ParseError (Parsed Expr) :=
  match Literal.ofNumber? token.value with
  | some value => .ok (.literal (ctx.loc token) value, tokens)
  | none => .error (ctx.invalid token (.invalidNumber token.value))

def form (ctx : Context) (operand : Reader Expr) : Reader Expr
  | [] => .error (ctx.ended "expression")
  | token :: rest =>
    let loc := ctx.loc token
    match token.kind with
    | .kwAsync => do
      let (inner, rest) ← operand rest
      .ok (.async loc inner, rest)
    | .kwAwait => do
      let (inner, rest) ← operand rest
      .ok (.await loc inner, rest)
    | .tag => tagged ctx operand token rest
    | .kwFn => definition ctx operand token none rest
    | .kwLambda => lambda ctx operand token rest
    | .kwIf => conditional ctx operand (rest.length + 1) token rest
    | .leftBracket => listLiteral ctx operand token rest
    | .leftBrace => hashLiteral ctx operand token rest
    | .leftParen => parenthesized ctx operand rest
    | .name => nameOrCall ctx operand token rest
    | .number => number ctx token rest
    | .string => .ok (.literal loc (.string (Text.unquote token.value)), rest)
    | .kwTrue => .ok (.literal loc (.boolean true), rest)
    | .kwFalse => .ok (.literal loc (.boolean false), rest)
    | .kwNull => .ok (.literal loc .null, rest)
    | .symbol => .ok (.symbol loc (symbolName token), rest)
    | _ => .error (ctx.unexpected token "expression")

/-- An operand inside which operands may nest `depth` deep, itself counted. -/
def operand (ctx : Context) : (depth : Nat) → Reader Expr
  | 0, tokens =>
    let index := (tokens.head?.map Token.index).getD ctx.endIndex
    .error (.invalid .nestedTooDeeply (ctx.locate index))
  | depth + 1, tokens => form ctx (operand ctx depth) tokens

def endExpression (ctx : Context) : List Token → Except ParseError (List Token)
  | [] => .ok []
  | token :: rest =>
    if token.kind = .terminator then .ok rest
    else .error (ctx.unexpected token "end of expression")

def programRound (ctx : Context) (again : List Token → Except ParseError (List Expr))
    (tokens : List Token) : Except ParseError (List Expr) :=
  match skipTerminators tokens with
  | [] =>
    match ctx.failure with
    | some error => .error (.lex error)
    | none => .ok []
  | token :: rest => do
    let (first, rest) ← expression ctx (operand ctx maxDepth) (token :: rest)
    let rest ← endExpression ctx rest
    let others ← again rest
    .ok (first :: others)

def programFrom (ctx : Context) : (fuel : Nat) → List Token → Except ParseError (List Expr)
  | 0, _ => .error (ctx.ended "expression")
  | fuel + 1, tokens => programRound ctx (programFrom ctx fuel) tokens

def program (ctx : Context) (tokens : List Token) : Except ParseError (List Expr) :=
  programFrom ctx (tokens.length + 1) tokens

end Parser

def Source.parseStream (source : Source) (stream : TokenStream) : Except ParseError (List Expr) :=
  Parser.program
    { locate := source.locate, endIndex := source.endIndex, failure := stream.failure }
    stream.tokens

def Source.parse (source : Source) : Except ParseError (List Expr) :=
  source.parseStream source.lex.terminate

end Teal
