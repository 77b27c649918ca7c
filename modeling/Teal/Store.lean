import Teal.Host
import Teal.Json.Printer
import Teal.Json.Reader

/-!
# Session stores

A store keeps documents under session ids. Both stores here keep the text of a document, so
what is loaded went through the written form.

## Main definitions

* `Store`: saving and loading.
* `TableStore`: a store for any ids.
* `DirectoryStore`: a directory of files, one for each id that can be a file name.
-/

namespace Teal

inductive StoreError
  | notFound (id : String)
  | invalidId (id : String)
  /-- The system refused a file or a directory. -/
  | host (cause : HostError)
  /-- The stored text is no document. -/
  | malformed
deriving DecidableEq, Repr

def StoreError.message : StoreError → String
  | .notFound id => "no saved state for session `" ++ id ++ "`"
  | .invalidId id => "invalid session id `" ++ id ++ "`"
  | .host cause => "io error: " ++ cause.message
  | .malformed => "json error: malformed document"

class Store (σ : Type) where
  save : σ → String → Json → Except StoreError σ
  load : σ → String → Except StoreError Json

def StoreError.parsed (text : String) : Except StoreError Json :=
  match Json.parse text with
  | some j => .ok j
  | none => .error .malformed

structure TableStore where
  entries : Table String String := []

namespace TableStore

def save (store : TableStore) (id : String) (j : Json) : TableStore :=
  { entries := store.entries.insert id j.compact }

def load (store : TableStore) (id : String) : Except StoreError Json :=
  match store.entries.get? id with
  | none => .error (.notFound id)
  | some text => StoreError.parsed text

def size (store : TableStore) : Nat :=
  store.entries.length

instance : Store TableStore where
  save store id j := .ok (store.save id j)
  load := TableStore.load

end TableStore

structure DirectoryStore where
  /-- The texts of the files by their names. -/
  files : Table String String := []

namespace DirectoryStore

def isIdPart (c : Char) : Bool :=
  c.isAlphanum || c = '-' || c = '_'

def fileName (id : String) : Except StoreError String :=
  if id ≠ "" && id.toList.all isIdPart then .ok (id ++ ".json") else .error (.invalidId id)

def save (store : DirectoryStore) (id : String) (j : Json) : Except StoreError DirectoryStore := do
  let name ← fileName id
  .ok { files := store.files.insert name j.pretty }

def load (store : DirectoryStore) (id : String) : Except StoreError Json := do
  let name ← fileName id
  match store.files.get? name with
  | none => .error (.notFound id)
  | some text => StoreError.parsed text

instance : Store DirectoryStore where
  save := DirectoryStore.save
  load := DirectoryStore.load

end DirectoryStore

end Teal
