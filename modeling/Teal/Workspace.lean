import Teal.Host
import Teal.Path
import Teal.Table

/-!
# Workspaces

A host in memory: a working directory with files, and a value for every environment variable
that is set.

## Main definitions

* `Workspace`: files, directories and environment variables.
* `Workspace.walk`: where a path leads.
* `Workspace.read`, `Workspace.write`, `Workspace.rename`, `Workspace.createDirectory`: what a
  host is asked for.
-/

namespace Teal

/-- A place: the names that lead there from the working directory, or from the root if it starts
with a slash. Double points at the start lead to the directories above the working directory. -/
abbrev Place := List String

structure Workspace where
  files : Table Place String := []
  /-- The directories other than the root, the working directory and those above it. -/
  directories : List Place := []
  environment : Table String String := []

namespace Workspace

def nameLimit : Nat := 255

def pathLimit : Nat := 4095

def holds (w : Workspace) (place : Place) : Bool :=
  w.files.contains place

def isAround (place : Place) : Bool :=
  place.all (· = "..")

def isDirectory (w : Workspace) (place : Place) : Bool :=
  isAround place || place = ["/"] || w.directories.contains place

/-- The place that a part of a path leads to from a place. The root is above itself. -/
def move (place : Place) (part : String) : Place :=
  if !Path.isName part then place
  else if part ≠ ".." || isAround place then place ++ [part]
  else if place = ["/"] then place
  else place.dropLast

def origin (path : String) : Place :=
  if Path.isAbsolute path then ["/"] else []

def enter (w : Workspace) (place : Place) : Except HostError Place :=
  if w.isDirectory place then .ok place
  else .error (if w.holds place then .notDirectory else .missing)

def step (w : Workspace) (place : Place) (part : String) : Except HostError Place := do
  let place ← w.enter place
  if nameLimit < part.utf8ByteSize then .error .nameTooLong else .ok (move place part)

/-- Where parts of a path lead from a place. Every place on the way is a directory. -/
def walk (w : Workspace) : (place : Place) → (parts : List String) → Except HostError Place
  | place, [] => .ok place
  | place, part :: rest => do w.walk (← w.step place part) rest

def checkPath (path : String) : Except HostError Unit :=
  if path.toList.contains '\x00' then .error .brokenPath
  else if path = "" then .error .missing
  else if pathLimit < path.utf8ByteSize then .error .nameTooLong
  else .ok ()

def locate (w : Workspace) (path : String) : Except HostError Place := do
  checkPath path
  w.walk (origin path) (Path.parts path)

/-- The place that the last part of a path names within a directory; nothing if that part is
points, or if there is none, as then the path leads to a directory that has a name elsewhere. -/
def entry? (w : Workspace) (path : String) : Except HostError (Option Place) := do
  checkPath path
  let steps := (Path.parts path).filter (· ≠ "")
  match steps.getLast? with
  | none => .ok none
  | some last =>
    let directory ← w.enter (← w.walk (origin path) steps.dropLast)
    if last = "." || last = ".." then .ok none
    else (w.step directory last).map some

def read (w : Workspace) (path : String) : Except HostError String := do
  let place ← w.locate path
  match w.files.get? place with
  | some text => .ok text
  | none => .error (if w.isDirectory place then .isDirectory else .missing)

def writable (w : Workspace) (path : String) : Except HostError Place := do
  match ← w.entry? path with
  | none => .error .isDirectory
  | some place =>
    if Path.endsWithSlash path || w.isDirectory place then .error .isDirectory else .ok place

def write (w : Workspace) (path text : String) : Except HostError Workspace := do
  let place ← w.writable path
  .ok { w with files := w.files.insert place text }

def rename (w : Workspace) (source target : String) : Except HostError Workspace := do
  let text ← w.read source
  let old ← w.locate source
  let new ← w.writable target
  .ok { w with files := (w.files.erase old).insert new text }

def createDirectory (w : Workspace) (path : String) : Except HostError Workspace := do
  match ← w.entry? path with
  | none => .error .occupied
  | some place =>
    if w.holds place || w.isDirectory place then .error .occupied
    else .ok { w with directories := place :: w.directories }

def addFile (w : Workspace) (path text : String) : Workspace :=
  let place := (Path.parts path).foldl move (origin path)
  let above := (List.range place.length).map place.take
  { w with
    files := w.files.insert place text
    directories := above.filter (fun p => !w.isDirectory p) ++ w.directories }

def ofFiles (files : List (String × String)) : Workspace :=
  files.foldl (fun w entry => w.addFile entry.1 entry.2) {}

/-- A change that may fail; a workspace that cannot be changed stays as it is. -/
def change (f : Workspace → Except HostError Workspace) :
    StateM Workspace (Except HostError Unit) :=
  fun w =>
    match f w with
    | .ok w => (.ok (), w)
    | .error e => (.error e, w)

instance : Host (StateM Workspace) where
  read path := fun w => (w.read path, w)
  write path text := change fun w => w.write path text
  rename source target := change fun w => w.rename source target
  createDirectory path := change fun w => w.createDirectory path
  isFile path := fun w => ((w.locate path).toOption.any w.holds, w)
  isDirectory path := fun w => ((w.locate path).toOption.any w.isDirectory, w)
  environment name := fun w => (w.environment.get? name, w)

end Workspace

end Teal
