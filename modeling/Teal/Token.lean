/-!
# Tokens

The words of the language. Line breaks are tokens until the terminator pass removes them.

## Main definitions

* `Token.Kind`, `Token`: the kind of a token, and a token with its text and place.
* `Token.Kind.endsOperand`: after such a token a sign is an operator.
* `Token.Kind.startsExpression`: such a token can begin an expression.
-/

namespace Teal

inductive Token.Kind
  | tag | terminator | lineBreak
  | symbol | name
  | kwFn | kwLambda | kwIf | kwElif | kwElse | kwAsync | kwAwait | kwTrue | kwFalse | kwNull
  | number | string
  | plus | minus | star | slash | and | or | equal | assign | greater | less
  | leftParen | rightParen | comma | leftBrace | rightBrace | leftBracket | rightBracket | colon
deriving DecidableEq, Repr

structure Token where
  kind : Token.Kind
  /-- The text of the token; of a tag only what stands between its brackets. -/
  value : String
  /-- The line of the first character, counted from one. -/
  line : Nat
  /-- The byte offset of the first character. -/
  index : Nat
deriving DecidableEq, Repr

namespace Token

namespace Kind

def all : List Kind :=
  [.tag, .terminator, .lineBreak, .symbol, .name, .kwFn, .kwLambda, .kwIf, .kwElif, .kwElse,
    .kwAsync, .kwAwait, .kwTrue, .kwFalse, .kwNull, .number, .string, .plus, .minus, .star, .slash,
    .and, .or, .equal, .assign, .greater, .less, .leftParen, .rightParen, .comma, .leftBrace,
    .rightBrace, .leftBracket, .rightBracket, .colon]

def listed : Kind → String
  | .tag => "Attribute"
  | .terminator => "Term"
  | .lineBreak => "Nl"
  | .symbol => "Symbol"
  | .name => "Id"
  | .kwFn => "Fn"
  | .kwLambda => "Lambda"
  | .kwIf => "If"
  | .kwElif => "Elif"
  | .kwElse => "Else"
  | .kwAsync => "Async"
  | .kwAwait => "Await"
  | .kwTrue => "True"
  | .kwFalse => "False"
  | .kwNull => "Null"
  | .number => "Number"
  | .string => "String"
  | .plus => "Add"
  | .minus => "Sub"
  | .star => "Mul"
  | .slash => "Div"
  | .and => "And"
  | .or => "Or"
  | .equal => "Eq"
  | .assign => "Set"
  | .greater => "Gt"
  | .less => "Lt"
  | .leftParen => "LParen"
  | .rightParen => "RParen"
  | .comma => "Comma"
  | .leftBrace => "LBrace"
  | .rightBrace => "RBrace"
  | .leftBracket => "LBracket"
  | .rightBracket => "RBracket"
  | .colon => "Colon"

def ofListed? (name : String) : Option Kind :=
  all.find? fun kind => kind.listed = name

def describe : Kind → String
  | .tag => "attribute"
  | .terminator => "terminator"
  | .lineBreak => "line break"
  | .symbol => "symbol"
  | .name => "identifier"
  | .kwFn => "`fn`"
  | .kwLambda => "`lambda`"
  | .kwIf => "`if`"
  | .kwElif => "`elif`"
  | .kwElse => "`else`"
  | .kwAsync => "`async`"
  | .kwAwait => "`await`"
  | .kwTrue => "`true`"
  | .kwFalse => "`false`"
  | .kwNull => "`null`"
  | .number => "number"
  | .string => "string"
  | .plus => "`+`"
  | .minus => "`-`"
  | .star => "`*`"
  | .slash => "`/`"
  | .and => "`&&`"
  | .or => "`||`"
  | .equal => "`==`"
  | .assign => "`=`"
  | .greater => "`>`"
  | .less => "`<`"
  | .leftParen => "`(`"
  | .rightParen => "`)`"
  | .comma => "`,`"
  | .leftBrace => "`\x7b`"
  | .rightBrace => "`\x7d`"
  | .leftBracket => "`[`"
  | .rightBracket => "`]`"
  | .colon => "`:`"

/-- After a token of such a kind an operand is complete, so `+` and `-` are operators. -/
def endsOperand : Kind → Bool
  | .name | .number | .string | .kwTrue | .kwFalse | .kwNull
  | .rightParen | .rightBracket | .rightBrace => true
  | _ => false

def startsExpression : Kind → Bool
  | .tag | .symbol | .name | .kwFn | .kwLambda | .kwIf | .kwAsync | .kwAwait
  | .kwTrue | .kwFalse | .kwNull | .number | .string
  | .leftParen | .leftBrace | .leftBracket => true
  | _ => false

/-- The keyword a word spells, or else a name. -/
def ofWord (word : String) : Kind :=
  match word with
  | "fn" => .kwFn
  | "lambda" => .kwLambda
  | "if" => .kwIf
  | "elif" => .kwElif
  | "else" => .kwElse
  | "async" => .kwAsync
  | "await" => .kwAwait
  | "true" => .kwTrue
  | "false" => .kwFalse
  | "null" => .kwNull
  | _ => .name

def ofMark? : Char → Option Kind
  | '+' => some .plus
  | '-' => some .minus
  | '*' => some .star
  | '/' => some .slash
  | '=' => some .assign
  | '>' => some .greater
  | '<' => some .less
  | '(' => some .leftParen
  | ')' => some .rightParen
  | ',' => some .comma
  | '{' => some .leftBrace
  | '}' => some .rightBrace
  | '[' => some .leftBracket
  | ']' => some .rightBracket
  | ':' => some .colon
  | _ => none

end Kind

/-- What a token is called in messages: its kind, with its text unless that is only layout. -/
def describe (token : Token) : String :=
  match token.kind with
  | .lineBreak | .terminator => token.kind.describe
  | kind => kind.describe ++ " `" ++ token.value ++ "`"

end Token

end Teal
