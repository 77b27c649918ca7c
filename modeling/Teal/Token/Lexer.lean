import Teal.Source
import Teal.Token

/-!
# Reading tokens

A lexeme is read at one place of the text and knows how many characters it covers; the lexer
walks over the text once, reads a lexeme where the last one ended and skips the characters it
covers. So the recursion is on the text itself, and offsets and lines are those of the
characters walked over.

## Main definitions

* `Lexeme.read`: the lexeme that starts at a place.
* `Token.scan`: all tokens of a text, and the problem that ends them, if any.
* `Source.lex`: the token stream of a source unit.
-/

namespace Teal

inductive Lexeme.Problem
  | unclosedComment
  | unclosedString
  | unclosedTag
  | illegal (c : Char)
deriving DecidableEq, Repr

namespace Lexeme.Problem

def character : Lexeme.Problem → Char
  | .unclosedComment => '/'
  | .unclosedString => '"'
  | .unclosedTag => '#'
  | .illegal c => c

def message : Lexeme.Problem → String
  | .unclosedComment => "unterminated block comment"
  | .unclosedString => "unterminated string literal"
  | .unclosedTag => "attribute must end with `]`"
  | .illegal c => "Illegal character `" ++ String.singleton c ++ "`"

end Lexeme.Problem

inductive Lexeme
  /-- Blanks or a comment. -/
  | gap (length : Nat)
  | token (kind : Token.Kind) (value : List Char) (length : Nat)
  | problem (what : Lexeme.Problem)
deriving DecidableEq, Repr

namespace Lexeme

def isBlank (c : Char) : Bool :=
  c = ' ' || c = '\t' || c = '\r'

def isNameStart (c : Char) : Bool :=
  c.isLower || c = '_'

def isNamePart (c : Char) : Bool :=
  c.isAlphanum || c = '_' || c = '?' || c = '.'

def isSymbolPart (c : Char) : Bool :=
  c.isAlphanum || c = '_'

def isNumberPart (c : Char) : Bool :=
  c.isDigit || c = '.'

def commentLength : List Char → Option Nat
  | [] => none
  | '*' :: '/' :: _ => some 2
  | _ :: rest => (commentLength rest).map (· + 1)

/-- The length of a string's text up to and with its closing quote. A backslash keeps the next
character from closing. -/
def stringLength : (escaped : Bool) → List Char → Option Nat
  | _, [] => none
  | true, _ :: rest => (stringLength false rest).map (· + 1)
  | false, c :: rest =>
    if c = '"' then some 1 else (stringLength (c = '\\') rest).map (· + 1)

def verbatim (kind : Token.Kind) (text : List Char) : Lexeme :=
  .token kind text text.length

def trimBlanks (line : List Char) : List Char :=
  (line.reverse.dropWhile isBlank).reverse

/-- A tag covers its line and the line break after it; its value is what stands between
the brackets. -/
def readTag (text : List Char) : Lexeme :=
  let line := Text.firstLine text
  let content := trimBlanks line
  if content.getLast? = some ']' then
    .token .tag (content.drop 2).dropLast
      (line.length + if line.length < text.length then 1 else 0)
  else .problem .unclosedTag

def readString (text : List Char) : Lexeme :=
  match stringLength false (text.drop 1) with
  | some n => verbatim .string (text.take (n + 1))
  | none => .problem .unclosedString

def readComment (text : List Char) : Lexeme :=
  match commentLength (text.drop 2) with
  | some n => .gap (n + 2)
  | none => .problem .unclosedComment

def readMark (c : Char) (rest : List Char) : Lexeme :=
  match c, rest with
  | '&', '&' :: _ => verbatim .and ['&', '&']
  | '|', '|' :: _ => verbatim .or ['|', '|']
  | '=', '=' :: _ => verbatim .equal ['=', '=']
  | _, _ =>
    match Token.Kind.ofMark? c with
    | some kind => verbatim kind [c]
    | none => .problem (.illegal c)

def nextIs (test : Char → Bool) (rest : List Char) : Bool :=
  rest.head?.any test

/-- The lexeme at the start of a text. A sign belongs to the number after it unless an operand
stands before it. -/
def read (afterOperand : Bool) (c : Char) (rest : List Char) : Lexeme :=
  if isBlank c then .gap 1
  else if c = '/' && nextIs (· = '/') rest then .gap ((Text.firstLine rest).length + 1)
  else if c = '/' && nextIs (· = '*') rest then readComment (c :: rest)
  else if c = '#' && nextIs (· = '[') rest then readTag (c :: rest)
  else if c = '\n' then verbatim .lineBreak (c :: rest.takeWhile (· = '\n'))
  else if isNameStart c then
    let word := c :: rest.takeWhile isNamePart
    verbatim (.ofWord (String.ofList word)) word
  else if c = ':' && nextIs Char.isLower rest then
    verbatim .symbol (c :: rest.takeWhile isSymbolPart)
  else if c.isDigit then verbatim .number (c :: rest.takeWhile isNumberPart)
  else if (c = '+' || c = '-') && !afterOperand && nextIs Char.isDigit rest then
    verbatim .number (c :: rest.takeWhile isNumberPart)
  else if c = '"' then readString (c :: rest)
  else if c = ';' then verbatim .terminator (c :: rest.takeWhile (· = ';'))
  else readMark c rest

end Lexeme

structure Cursor where
  index : Nat
  line : Nat
deriving DecidableEq, Repr

def Cursor.start : Cursor := ⟨0, 1⟩

def Cursor.next (c : Char) (cursor : Cursor) : Cursor :=
  ⟨cursor.index + c.utf8Size, if c = '\n' then cursor.line + 1 else cursor.line⟩

structure Lexeme.Fault where
  problem : Lexeme.Problem
  index : Nat
deriving DecidableEq, Repr

namespace Token

/-- Walks over a text, of which the next `skip` characters belong to a lexeme already read. -/
def scanFrom : (skip : Nat) → (afterOperand : Bool) → Cursor → List Char →
    List Token × Option Lexeme.Fault
  | _, _, _, [] => ([], none)
  | skip + 1, afterOperand, cursor, c :: rest => scanFrom skip afterOperand (cursor.next c) rest
  | 0, afterOperand, cursor, c :: rest =>
    match Lexeme.read afterOperand c rest with
    | .gap length => scanFrom (length - 1) afterOperand (cursor.next c) rest
    | .token kind value length =>
      let (tokens, fault) := scanFrom (length - 1) kind.endsOperand (cursor.next c) rest
      (⟨kind, String.ofList value, cursor.line, cursor.index⟩ :: tokens, fault)
    | .problem what => ([], some ⟨what, cursor.index⟩)

def scan (text : List Char) : List Token × Option Lexeme.Fault :=
  scanFrom 0 false .start text

end Token

structure LexError where
  character : Char
  index : Nat
  diagnostic : Diagnostic
deriving DecidableEq, Repr

/-- Tokens up to the end of a source unit, or up to the error that ends them. -/
structure TokenStream where
  tokens : List Token
  failure : Option LexError := none
deriving DecidableEq, Repr

def TokenStream.toExcept (stream : TokenStream) : Except LexError (List Token) :=
  match stream.failure with
  | none => .ok stream.tokens
  | some e => .error e

def Lexeme.Fault.report (source : Source) (fault : Lexeme.Fault) : LexError :=
  { character := fault.problem.character
    index := fault.index
    diagnostic := source.diagnose fault.index fault.problem.message }

def Source.lex (source : Source) : TokenStream :=
  let (tokens, fault) := Token.scan source.text.toList
  { tokens, failure := fault.map (Lexeme.Fault.report source) }

end Teal
