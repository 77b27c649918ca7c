import Teal.Json
import Teal.Decimal.Numeral

/-!
# Read documents

A strict reader: no leading zeros, no trailing commas or text, no raw control characters and no
half of a surrogate pair. Nesting is bounded. An integer that fits into 64 bits stays an
integer; any other number is a double.

## Main definitions

* `Json.Number.read`: the number at the start of a text.
* `Json.parse`: the document a text spells, with a bound on its nesting.
-/

namespace Teal.Json

def isBlank (c : Char) : Bool :=
  c = ' ' || c = '\n' || c = '\t' || c = '\r'

def skipBlanks (text : List Char) : List Char :=
  text.dropWhile isBlank

namespace Number

/-- Appends digits to a significand while it fits into 64 bits; gives the digits left over. -/
def accumulate (significand : Nat) : List Char → Nat × List Char
  | [] => (significand, [])
  | c :: rest =>
    let next := significand * 10 + (c.toNat - '0'.toNat)
    if next < UInt64.size then accumulate next rest else (significand, c :: rest)

def powerOfTen (n : Nat) : Float :=
  Float.ofScientific 1 false n

/-- `x · 10 ^ exponent`, rounded once for each power of ten that a double can hold. A number
beyond the range of doubles is refused. -/
def scale : (fuel : Nat) → Float → Int → Option Float
  | 0, _, _ => none
  | fuel + 1, x, exponent =>
    if exponent.natAbs ≤ 308 then
      if 0 ≤ exponent then
        let y := x * powerOfTen exponent.natAbs
        if y.isInf then none else some y
      else some (x / powerOfTen exponent.natAbs)
    else if x == 0 then some x
    else if 0 ≤ exponent then none
    else scale fuel (x / powerOfTen 308) (exponent + 308)

def ofParts (negative : Bool) (significand : Nat) (exponent : Int) : Option Json :=
  (scale (exponent.natAbs / 308 + 2) (Float.ofNat significand) exponent).map fun x =>
    .float (if negative then -x else x)

/-- A whole number: an integer where 64 bits can hold it. -/
def ofWhole (negative : Bool) (significand : Nat) : Json :=
  if negative then
    if 0 < significand ∧ significand ≤ Int64.minValue.toInt.natAbs then .int (-(significand : Int))
    else .float (-Float.ofNat significand)
  else .int significand

def readExponent (text : List Char) : Option (Int × List Char) :=
  let (negative, text) := Numeral.splitSign text
  let (digits, rest) := Numeral.splitDigits text
  if digits.isEmpty then none
  else some (Numeral.signed negative (Numeral.natOfDigits digits), rest)

def readTail (negative : Bool) (significand : Nat) (dropped : Nat) (text : List Char) :
    Option (Json × List Char) :=
  let (fraction, rest, ok) := match text with
    | '.' :: after =>
      let (digits, rest) := Numeral.splitDigits after
      (digits, rest, !digits.isEmpty)
    | _ => ([], text, true)
  if !ok then none
  else
    let (full, left) := accumulate significand fraction
    let exponent : Int := dropped - (fraction.length - left.length : Nat)
    match rest with
    | 'e' :: after | 'E' :: after =>
      (readExponent after).bind fun (e, rest) =>
        (ofParts negative full (exponent + e)).map (·, rest)
    | _ =>
      if fraction.isEmpty && dropped = 0 then some (ofWhole negative significand, rest)
      else (ofParts negative full exponent).map (·, rest)

def readMagnitude (negative : Bool) (text : List Char) : Option (Json × List Char) :=
  let (digits, rest) := Numeral.splitDigits text
  match digits with
  | [] => none
  | '0' :: _ :: _ => none
  | _ =>
    let (significand, left) := accumulate 0 digits
    readTail negative significand left.length rest

def read : List Char → Option (Json × List Char)
  | '-' :: rest => readMagnitude true rest
  | text => readMagnitude false text

end Number

def hexValue? (c : Char) : Option Nat :=
  if c.isDigit then some (c.toNat - '0'.toNat)
  else if 'a' ≤ c && c ≤ 'f' then some (c.toNat - 'a'.toNat + 10)
  else if 'A' ≤ c && c ≤ 'F' then some (c.toNat - 'A'.toNat + 10)
  else none

inductive StringState
  | plain
  | escaped
  /-- Digits of a code unit are due; `high` is the first half of a pair, if one was read. -/
  | hex (due : Nat) (unit : Nat) (high : Option Nat)
  /-- The first half of a pair asks for a backslash. -/
  | paired (high : Nat)
  /-- The backslash was read. -/
  | pairedEscape (high : Nat)

def unescape? : Char → Option Char
  | '"' => some '"'
  | '\\' => some '\\'
  | '/' => some '/'
  | 'b' => some '\x08'
  | 'f' => some '\x0c'
  | 'n' => some '\n'
  | 'r' => some '\r'
  | 't' => some '\t'
  | _ => none

def isHigh (unit : Nat) : Bool :=
  0xD800 ≤ unit && unit ≤ 0xDBFF

def isLow (unit : Nat) : Bool :=
  0xDC00 ≤ unit && unit ≤ 0xDFFF

def readString : StringState → List Char → Option (List Char × List Char)
  | _, [] => none
  | .plain, c :: rest =>
    if c = '"' then some ([], rest)
    else if c = '\\' then readString .escaped rest
    else if c.toNat < 0x20 then none
    else (readString .plain rest).map fun (cs, after) => (c :: cs, after)
  | .escaped, c :: rest =>
    if c = 'u' then readString (.hex 4 0 none) rest
    else match unescape? c with
      | some d => (readString .plain rest).map fun (cs, after) => (d :: cs, after)
      | none => none
  | .hex due unit high, c :: rest =>
    match hexValue? c with
    | none => none
    | some digit =>
      let unit := unit * 16 + digit
      if due > 1 then readString (.hex (due - 1) unit high) rest
      else match high with
        | some h =>
          if isLow unit then
            let code := 0x10000 + (h - 0xD800) * 0x400 + (unit - 0xDC00)
            (readString .plain rest).map fun (cs, after) => (Char.ofNat code :: cs, after)
          else none
        | none =>
          if isHigh unit then readString (.paired unit) rest
          else if isLow unit then none
          else (readString .plain rest).map fun (cs, after) => (Char.ofNat unit :: cs, after)
  | .paired high, c :: rest => if c = '\\' then readString (.pairedEscape high) rest else none
  | .pairedEscape high, c :: rest =>
    if c = 'u' then readString (.hex 4 0 (some high)) rest else none

def readItems (item : List Char → Option (Json × List Char)) :
    (fuel : Nat) → List Char → Option (List Json × List Char)
  | 0, _ => none
  | fuel + 1, text =>
    (item text).bind fun (j, rest) =>
      match skipBlanks rest with
      | ',' :: rest => (readItems item fuel rest).map fun (items, rest) => (j :: items, rest)
      | ']' :: rest => some ([j], rest)
      | _ => none

def readFields (item : List Char → Option (Json × List Char)) :
    (fuel : Nat) → List Char → Option (List (String × Json) × List Char)
  | 0, _ => none
  | fuel + 1, text =>
    match skipBlanks text with
    | '"' :: rest =>
      (readString .plain rest).bind fun (name, rest) =>
        match skipBlanks rest with
        | ':' :: rest =>
          (item rest).bind fun (j, rest) =>
            let entry := (String.ofList name, j)
            match skipBlanks rest with
            | ',' :: rest =>
              (readFields item fuel rest).map fun (fields, rest) => (entry :: fields, rest)
            | '}' :: rest => some ([entry], rest)
            | _ => none
        | _ => none
    | _ => none

def readWord : List Char → Option (Json × List Char)
  | 'n' :: 'u' :: 'l' :: 'l' :: rest => some (.null, rest)
  | 't' :: 'r' :: 'u' :: 'e' :: rest => some (.bool true, rest)
  | 'f' :: 'a' :: 'l' :: 's' :: 'e' :: rest => some (.bool false, rest)
  | _ => none

def readScalar (text : List Char) : Option (Json × List Char) :=
  match text with
  | '"' :: rest =>
    (readString .plain rest).map fun (cs, after) => (.str (String.ofList cs), after)
  | c :: _ => if c = '-' || c.isDigit then Number.read text else readWord text
  | [] => none

/-- The document at the start of a text, with at most `depth` arrays and objects inside each
other. -/
def readValue : (depth : Nat) → List Char → Option (Json × List Char)
  | 0, text =>
    match skipBlanks text with
    | '[' :: _ | '{' :: _ => none
    | text => readScalar text
  | depth + 1, text =>
    match skipBlanks text with
    | '[' :: rest =>
      match skipBlanks rest with
      | ']' :: rest => some (.arr [], rest)
      | rest => (readItems (readValue depth) rest.length rest).map fun (items, rest) =>
          (.arr items, rest)
    | '{' :: rest =>
      match skipBlanks rest with
      | '}' :: rest => some (.obj [], rest)
      | rest => (readFields (readValue depth) rest.length rest).map fun (fields, rest) =>
          (.object fields, rest)
    | text => readScalar text

def parseWithin (depth : Nat) (text : String) : Option Json :=
  (readValue depth text.toList).bind fun (j, rest) =>
    if (skipBlanks rest).isEmpty then some j else none

/-- Stored documents nest arrays and objects less than 128 deep. -/
def maxDepth : Nat := 127

def parse (text : String) : Option Json :=
  parseWithin maxDepth text

end Teal.Json
