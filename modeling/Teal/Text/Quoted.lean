import Teal.Text.Hidden

/-!
# Quoted text

A text between double quotes in which every character can be seen: quotes, backslashes and the
common controls have short escapes, and any other hidden character is written by its code point.

## Main definitions

* `Text.quoted`: the quoted form of a text.
-/

namespace Teal.Text

def codePoint (c : Char) : List Char :=
  ['\\', 'u', '{'] ++ Nat.toDigits 16 c.toNat ++ ['}']

def escape (c : Char) : List Char :=
  if c = '"' then ['\\', '"']
  else if c = '\\' then ['\\', '\\']
  else if c = '\n' then ['\\', 'n']
  else if c = '\r' then ['\\', 'r']
  else if c = '\t' then ['\\', 't']
  else if c = '\x00' then ['\\', '0']
  else if isHidden c then codePoint c
  else [c]

def quoted (s : String) : String :=
  String.ofList (['"'] ++ s.toList.flatMap escape ++ ['"'])

end Teal.Text
