import Teal.Table

/-!
# Documents

Documents are trees of plain data: what is written to files and stores. Integers and doubles are
kept apart, and the fields of an object stand in ascending order of their names.

## Main definitions

* `Json`: a document.
* `Json.record?`, `Json.tagged?`: the fields of a record, and of one alternative of several.
-/

namespace Teal

inductive Json
  | null
  | bool (b : Bool)
  | int (n : Int)
  | float (x : Float)
  | str (s : String)
  | arr (items : List Json)
  | obj (fields : List (String × Json))

namespace Json

instance : Inhabited Json := ⟨.null⟩

def object (fields : List (String × Json)) : Json :=
  .obj (Table.ofEntries fields)

def nat (n : Nat) : Json :=
  .int n

def strings (items : List String) : Json :=
  .arr (items.map .str)

def field? (name : String) : Json → Option Json
  | .obj fields => Table.get? fields name
  | _ => none

def string? : Json → Option String
  | .str s => some s
  | _ => none

def nat? : Json → Option Nat
  | .int n => if 0 ≤ n then some n.toNat else none
  | _ => none

def array? : Json → Option (List Json)
  | .arr items => some items
  | _ => none

def object? : Json → Option (Table String Json)
  | .obj fields => some fields
  | _ => none

def strings? (j : Json) : Option (List String) :=
  j.array?.bind fun items => items.mapM string?

def nats? (j : Json) : Option (List Nat) :=
  j.array?.bind fun items => items.mapM nat?

/-- The fields of a record: those of an object, or the items of an array that lists the named
fields in order, at least `least` of them. -/
def record? (names : List String) (least : Nat) : Json → Option (Table String Json)
  | .obj fields => some fields
  | .arr items =>
    if least ≤ items.length ∧ items.length ≤ names.length then some (names.zip items) else none
  | _ => none

/-- One alternative of several: the name under `tag`, and the document that holds its fields. -/
def tagged? (tag : String) : Json → Option (String × Json)
  | .obj fields =>
    (Table.get? fields tag).bind fun j => j.string?.map fun name => (name, .obj fields)
  | .arr (.str name :: items) => some (name, .arr items)
  | _ => none

def required (fields : Table String Json) (name : String) (read : Json → Option α) : Option α :=
  (Table.get? fields name).bind read

def optional (fields : Table String Json) (name : String) (read : Json → Option α) :
    Option (Option α) :=
  match Table.get? fields name with
  | none | some .null => some none
  | some j => (read j).map some

def defaulted (fields : Table String Json) (name : String) (default : α)
    (read : Json → Option α) : Option α :=
  match Table.get? fields name with
  | none => some default
  | some j => read j

end Json

end Teal
