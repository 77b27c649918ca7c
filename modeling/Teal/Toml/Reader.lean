import Teal.Toml
import Teal.Json.Reader

/-!
# Read settings texts

A text is a sequence of lines: blank, a comment, the header of a table, or a key with its value.
Values are strings in four quotings, integers in four bases, doubles and booleans.

## Main definitions

* `Toml.readText`: the rest of a quoted string.
* `Toml.scalar?`: the value that a word spells.
* `Toml.parse`: the settings that a whole text spells.
-/

namespace Teal.Toml

def apostrophe : Char := '\x27'

def isBlank (c : Char) : Bool :=
  c = ' ' || c = '\t'

def isPlain (c : Char) : Bool :=
  c = '\t' || (0x20 ≤ c.toNat && c.toNat ≠ 0x7F)

def isBare (c : Char) : Bool :=
  c.isAlphanum || c = '_' || c = '-'

structure Quoting where
  quote : Char
  escapes : Bool
  long : Bool

inductive TextState
  /-- Some quotes have just been read; blanks are skipped after a folded line. -/
  | plain (quotes : Nat) (folded : Bool)
  /-- A carriage return asks for a line feed. -/
  | returned (folded : Bool)
  | escaped
  /-- A backslash before blanks asks for the end of the line. -/
  | folding
  /-- Digits of a code point are due. -/
  | hex (due : Nat) (code : Nat)

def unescape? : Char → Option Char
  | '"' => some '"'
  | '\\' => some '\\'
  | 'b' => some '\x08'
  | 'f' => some '\x0c'
  | 'n' => some '\n'
  | 'r' => some '\r'
  | 't' => some '\t'
  | _ => none

def character? (code : Nat) : Option Char :=
  if code < 0xD800 || (0xE000 ≤ code && code < 0x110000) then some (Char.ofNat code) else none

def prepend (front : List Char) : Option (List Char × List Char) → Option (List Char × List Char)
  | some (cs, after) => some (front ++ cs, after)
  | none => none

/-- The rest of a string after its opening quotes, and the text after its closing quotes. Up to
two quotes more than three close a long string and belong to it. -/
def readText (q : Quoting) : TextState → List Char → Option (List Char × List Char)
  | .plain n _, [] => if q.long && 3 ≤ n then some (List.replicate (n - 3) q.quote, []) else none
  | _, [] => none
  | .plain n folded, c :: rest =>
    if c = q.quote then
      if !q.long then some ([], rest)
      else if n = 5 then some (List.replicate 2 q.quote, c :: rest)
      else readText q (.plain (n + 1) false) rest
    else if 3 ≤ n then some (List.replicate (n - 3) q.quote, c :: rest)
    else if folded && (isBlank c || c = '\n') then readText q (.plain 0 true) rest
    else prepend (List.replicate n q.quote) <|
      if c = '\\' && q.escapes then readText q .escaped rest
      else if c = '\r' && q.long then readText q (.returned folded) rest
      else if isPlain c || (c = '\n' && q.long) then prepend [c] (readText q (.plain 0 false) rest)
      else none
  | .returned folded, c :: rest =>
    if c ≠ '\n' then none
    else if folded then readText q (.plain 0 true) rest
    else prepend [c] (readText q (.plain 0 false) rest)
  | .escaped, c :: rest =>
    match unescape? c with
    | some d => prepend [d] (readText q (.plain 0 false) rest)
    | none =>
      if c = 'u' then readText q (.hex 4 0) rest
      else if c = 'U' then readText q (.hex 8 0) rest
      else if !q.long then none
      else if isBlank c then readText q .folding rest
      else if c = '\n' then readText q (.plain 0 true) rest
      else if c = '\r' then readText q (.returned true) rest
      else none
  | .folding, c :: rest =>
    if isBlank c then readText q .folding rest
    else if c = '\n' then readText q (.plain 0 true) rest
    else if c = '\r' then readText q (.returned true) rest
    else none
  | .hex due code, c :: rest =>
    match Json.hexValue? c with
    | none => none
    | some digit =>
      let code := code * 16 + digit
      if due > 1 then readText q (.hex (due - 1) code) rest
      else match character? code with
        | some d => prepend [d] (readText q (.plain 0 false) rest)
        | none => none

def dropLineEnd : List Char → List Char
  | '\n' :: rest => rest
  | '\r' :: '\n' :: rest => rest
  | text => text

def readShort (quote : Char) (text : List Char) : Option (String × List Char) :=
  (readText ⟨quote, quote = '"', false⟩ (.plain 0 false) text).map fun (cs, rest) =>
    (String.ofList cs, rest)

/-- The string after its opening quote. Two more quotes open a string of several lines, and a
line end right after them does not belong to it. -/
def readString (quote : Char) (text : List Char) : Option (String × List Char) :=
  if [quote, quote].isPrefixOf text then
    (readText ⟨quote, quote = '"', true⟩ (.plain 0 false) (dropLineEnd (text.drop 2))).map
      fun (cs, rest) => (String.ofList cs, rest)
  else readShort quote text

def ungroup? (isDigit : Char → Bool) : List Char → Option (List Char)
  | [] => none
  | [c] => if isDigit c then some [c] else none
  | c :: d :: rest =>
    if !isDigit c then none
    else if d = '_' then (ungroup? isDigit rest).map (c :: ·)
    else (ungroup? isDigit (d :: rest)).map (c :: ·)

/-- Decimal digits of a whole number: no zero before other digits. -/
def wholeDigits? (text : List Char) : Option (List Char) :=
  (ungroup? Char.isDigit text).bind fun digits =>
    match digits with
    | '0' :: _ :: _ => none
    | digits => some digits

def ofBase (base : Nat) (text : List Char) : Option Int64 :=
  let isDigit (c : Char) : Bool := (Json.hexValue? c).any fun value => value < base
  (ungroup? isDigit text).bind fun digits =>
    Numeral.toInt64? ((digits.foldl (fun n c => n * base + (Json.hexValue? c).getD 0) 0 : Nat))

def integer? : List Char → Option Int64
  | '0' :: 'x' :: digits => ofBase 16 digits
  | '0' :: 'o' :: digits => ofBase 8 digits
  | '0' :: 'b' :: digits => ofBase 2 digits
  | word =>
    let (negative, text) := Numeral.splitSign word
    (wholeDigits? text).bind fun digits =>
      Numeral.toInt64? (Numeral.signed negative (Numeral.natOfDigits digits))

def fraction? : List Char → Option (List Char × List Char)
  | '.' :: rest =>
    let isGrouped (c : Char) : Bool := c.isDigit || c = '_'
    (ungroup? Char.isDigit (rest.takeWhile isGrouped)).map (·, rest.dropWhile isGrouped)
  | text => some ([], text)

def exponent? : List Char → Option Int
  | [] => some 0
  | mark :: rest =>
    if mark = 'e' || mark = 'E' then
      let (negative, text) := Numeral.splitSign rest
      (ungroup? Char.isDigit text).map fun digits =>
        Numeral.signed negative (Numeral.natOfDigits digits)
    else none

def magnitude? (text : List Char) : Option Float :=
  if text = ['n', 'a', 'n'] then some (0 / 0)
  else do
    let isGrouped (c : Char) : Bool := c.isDigit || c = '_'
    let whole ← wholeDigits? (text.takeWhile isGrouped)
    let (fraction, rest) ← fraction? (text.dropWhile isGrouped)
    let exponent ← exponent? rest
    some (Numeral.nearest (Numeral.natOfDigits (whole ++ fraction)) (exponent - fraction.length))

/-- The double that a word spells. Only the word for it is positive infinity. -/
def float? (word : List Char) : Option Float :=
  let (negative, text) := Numeral.splitSign word
  if text = ['i', 'n', 'f'] then some (if negative then -1 / 0 else 1 / 0)
  else (magnitude? text).bind fun x =>
    if negative then some (-x) else if x == 1 / 0 then none else some x

def scalar? (word : List Char) : Option Scalar :=
  if word = ['t', 'r', 'u', 'e'] then some (.boolean true)
  else if word = ['f', 'a', 'l', 's', 'e'] then some (.boolean false)
  else ((integer? word).map .integer).or ((float? word).map .float)

def readScalar : List Char → Option (Scalar × List Char)
  | [] => none
  | c :: rest =>
    if c = '"' || c = apostrophe then
      (readString c rest).map fun (s, rest) => (.string s, rest)
    else
      let inWord (c : Char) : Bool := !isBlank c && c ≠ '#' && c ≠ '\n' && c ≠ '\r'
      (scalar? ((c :: rest).takeWhile inWord)).map (·, (c :: rest).dropWhile inWord)

def readPart : List Char → Option (String × List Char)
  | [] => none
  | c :: rest =>
    if c = '"' || c = apostrophe then readShort c rest
    else
      let text := c :: rest
      let name := text.takeWhile isBare
      if name.isEmpty then none else some (String.ofList name, text.dropWhile isBare)

def readKey : (fuel : Nat) → List Char → Option (Path × List Char)
  | 0, _ => none
  | fuel + 1, text => do
    let (part, rest) ← readPart (text.dropWhile isBlank)
    match rest.dropWhile isBlank with
    | '.' :: rest =>
      let (parts, rest) ← readKey fuel rest
      some (part :: parts, rest)
    | rest => some ([part], rest)

def lineEnd? (text : List Char) : Option (List Char) :=
  let rest := match text.dropWhile isBlank with
    | '#' :: rest => rest.dropWhile isPlain
    | rest => rest
  match rest with
  | [] => some []
  | '\n' :: rest => some rest
  | '\r' :: '\n' :: rest => some rest
  | _ => none

def readHeader (text : List Char) : Option (Path × List Char) := do
  let (table, rest) ← readKey text.length text
  match rest with
  | ']' :: rest => (lineEnd? rest).map (table, ·)
  | _ => none

def readEntry (text : List Char) : Option (Path × Scalar × List Char) := do
  let (key, rest) ← readKey text.length text
  match rest with
  | '=' :: rest =>
    let (value, rest) ← readScalar (rest.dropWhile isBlank)
    (lineEnd? rest).map (key, value, ·)
  | _ => none

/-- The lines of a text; keys belong to the table whose header came last. -/
def readLines : (fuel : Nat) → (table : Path) → Document → List Char → Option Document
  | 0, _, d, text => if text.isEmpty then some d else none
  | fuel + 1, table, d, text =>
    match text.dropWhile isBlank with
    | [] => some d
    | '[' :: rest => do
      let (table, rest) ← readHeader rest
      let d ← d.opened table
      readLines fuel table d rest
    | c :: rest =>
      if c = '#' || c = '\n' || c = '\r' then
        (lineEnd? (c :: rest)).bind (readLines fuel table d)
      else do
        let (key, value, rest) ← readEntry (c :: rest)
        let d ← d.define table key value
        readLines fuel table d rest

def dropMark : List Char → List Char
  | '\uFEFF' :: rest => rest
  | text => text

def parse (text : String) : Option Document :=
  let cs := dropMark text.toList
  readLines cs.length [] {} cs

end Teal.Toml
