/-!
# Settings texts

A settings text names values by dotted keys, and collects names under the headers of tables. It
is kept flat: the full name of every value, and the full names of the tables. Two statements
conflict when one makes a value or a table out of what the other made something else.

## Main definitions

* `Toml.Scalar`, `Toml.Document`: values, and named values.
* `Toml.Document.define`: gives a value to a new name.
* `Toml.Document.opened`: opens a table under a new header.
* `Toml.Document.item?`: what a top-level name stands for.
-/

namespace Teal.Toml

inductive Scalar
  | string (s : String)
  | integer (n : Int64)
  | float (x : Float)
  | boolean (b : Bool)

abbrev Path := List String

structure Document where
  /-- The values by their full names, the latest first. -/
  values : List (Path × Scalar) := []
  /-- The tables that have a header. -/
  headers : List Path := []
  /-- The tables that exist because a dotted key passes through them. -/
  dotted : List Path := []

inductive Item
  | scalar (value : Scalar)
  | table

namespace Document

/-- Some value's name is the start of a path, or all of it. -/
def blocks (d : Document) (path : Path) : Bool :=
  d.values.any fun entry => entry.1.isPrefixOf path

/-- Some value or table has a name that a path is the start of, or all of. -/
def covers (d : Document) (path : Path) : Bool :=
  d.values.any (fun entry => path.isPrefixOf entry.1) ||
    d.headers.any path.isPrefixOf || d.dotted.any path.isPrefixOf

def passed (table key : Path) : List Path :=
  ((List.range key.length).drop 1).map fun n => table ++ key.take n

/-- Gives a value to a new name. A dotted key cannot reach into a table that has a header or lies
on the way to one. -/
def define (d : Document) (table key : Path) (value : Scalar) : Option Document :=
  let path := table ++ key
  let through := passed table key
  if d.blocks path || d.covers path ||
      through.any (fun p => d.headers.any p.isPrefixOf) then none
  else some { d with values := (path, value) :: d.values, dotted := through ++ d.dotted }

def opened (d : Document) (table : Path) : Option Document :=
  if d.blocks table || d.headers.contains table || d.dotted.contains table then none
  else some { d with headers := table :: d.headers }

def item? (d : Document) (name : String) : Option Item :=
  match d.values.lookup [name] with
  | some value => some (.scalar value)
  | none => if d.covers [name] then some .table else none

end Document

end Teal.Toml
