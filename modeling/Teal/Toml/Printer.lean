import Teal.Toml

/-!
# Written settings strings

A string is written in the first of these quotings that needs no escapes: on one line between
quotes, on one line between apostrophes, on several lines between either. If all need some, it
is written between quotes with escapes.

## Main definitions

* `Toml.quoted`: a string as a settings text holds it.
-/

namespace Teal.Toml

/-- Controls that no quoting can hold as they are. -/
def isControl (c : Char) : Bool :=
  (c.toNat ≤ 0x1F || c.toNat = 0x7F) && c ≠ '\t' && c ≠ '\n'

/-- The length of the longest run of a character, of which `current` have just been seen. -/
def longestRun (x : Char) : (current : Nat) → List Char → Nat
  | current, [] => current
  | current, c :: rest =>
    if c = x then longestRun x (current + 1) rest else max current (longestRun x 0 rest)

def codePoint (c : Char) : List Char :=
  let digits := (Nat.toDigits 16 c.toNat).map Char.toUpper
  ['\\', 'u'] ++ List.replicate (4 - digits.length) '0' ++ digits

def escape? (long : Bool) (c : Char) : Option (List Char) :=
  if c = '\x08' then some ['\\', 'b']
  else if c = '\t' then some ['\\', 't']
  else if c = '\n' then if long then none else some ['\\', 'n']
  else if c = '\x0c' then some ['\\', 'f']
  else if c = '\r' then some ['\\', 'r']
  else if c = '\\' then some ['\\', '\\']
  else if isControl c then some (codePoint c)
  else none

/-- A text with escapes. Long strings hold two quotes in a row as they are; `quotes` of them
have just been written. -/
def escaped (long : Bool) : (quotes : Nat) → List Char → List Char
  | _, [] => []
  | quotes, c :: rest =>
    if c = '"' then
      if long && quotes < 2 then c :: escaped long (quotes + 1) rest
      else ['\\', '"'] ++ escaped long 0 rest
    else match escape? long c with
      | some front => front ++ escaped long 0 rest
      | none => c :: escaped long 0 rest

/-- A text between quotes or apostrophes. A long string with line ends starts on a line of its
own. -/
def enclosed (mark : String) (long : Bool) (text body : List Char) : String :=
  if long then
    let start := if text.contains '\n' then "\n" else ""
    mark ++ mark ++ mark ++ start ++ String.ofList body ++ mark ++ mark ++ mark
  else mark ++ String.ofList body ++ mark

def basic (long : Bool) (text : List Char) : String :=
  enclosed "\"" long text (escaped long 0 text)

def verbatim (long : Bool) (text : List Char) : String :=
  enclosed "'" long text text

def quoted (s : String) : String :=
  let text := s.toList
  let oneLine := !text.contains '\n'
  let backslash := text.contains '\\'
  let quotes := longestRun '"' 0 text
  let apostrophes := longestRun '\x27' 0 text
  if text.any isControl then basic (!oneLine) text
  else if !backslash && quotes = 0 && oneLine then basic false text
  else if apostrophes = 0 && oneLine then verbatim false text
  else if !backslash && quotes ≤ 2 then basic true text
  else if apostrophes ≤ 2 then verbatim true text
  else basic (!oneLine) text

end Teal.Toml
