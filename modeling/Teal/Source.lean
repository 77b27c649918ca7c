import Teal.Text.Position

/-!
# Sources, locations and diagnostics

A source unit is a text with the name it is reported under. A location is what a reader needs
to find a place in it; a diagnostic adds what is wrong there.

## Main definitions

* `Source.locate`: the location of a byte offset.
* `Diagnostic.render`: the display with a caret under the offending column.
-/

namespace Teal

structure Source where
  filename : String
  text : String
deriving DecidableEq, Repr

/-- A place in a source unit. Lines and columns are counted from one, columns in characters. -/
structure Location where
  filename : String
  line : Nat
  column : Nat
  sourceLine : String
deriving DecidableEq, Repr

def Location.display (loc : Location) : String :=
  loc.filename ++ ":" ++ Nat.repr loc.line ++ ":" ++ Nat.repr loc.column

structure Diagnostic extends Location where
  message : String
deriving DecidableEq, Repr

def Source.locate (source : Source) (index : Nat) : Location :=
  let text := source.text.toList
  { filename := source.filename
    line := Text.lineAt text index
    column := Text.columnAt text index
    sourceLine := String.ofList (Text.lineTextAt text index) }

def Source.diagnose (source : Source) (index : Nat) (message : String) : Diagnostic :=
  { source.locate index with message }

def Source.endIndex (source : Source) : Nat :=
  Text.byteSize source.text.toList

def Diagnostic.display (d : Diagnostic) : String :=
  d.toLocation.display ++ ": " ++ d.message

def Text.spaces (n : Nat) : String :=
  String.ofList (List.replicate n ' ')

/-- Several lines: the problem, the place, the line of text and a caret under the column. -/
def Diagnostic.render (d : Diagnostic) : String :=
  let gutter := Nat.repr d.line
  let pad := Text.spaces gutter.length
  "error: " ++ d.message ++ "\n" ++
  pad ++ "--> " ++ d.toLocation.display ++ "\n" ++
  pad ++ " |\n" ++
  gutter ++ " | " ++ d.sourceLine ++ "\n" ++
  pad ++ " | " ++ Text.spaces (d.column - 1) ++ "^\n"

end Teal
