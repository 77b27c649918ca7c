import Teal.World
import Teal.Value.Document

/-!
# Worlds as documents

Stacks and activations are written from the bottom up. Sessions and tasks are written under
their numbers.

## Main definitions

* `World.toJson`: the document of a world, or the first double that has none.
* `World.ofJson?`: the world of a document.
-/

namespace Teal

def Json.ofOption (toJson : α → Json) : Option α → Json
  | none => .null
  | some a => toJson a

namespace Activation

def toJson (f : Activation) : Except NonFinite Json := do
  let bindings ← Value.entriesToJson f.bindings
  .ok (.obj [("bindings", .obj bindings), ("function", .str f.function),
    ("return_ip", .ofOption .nat f.returnIp)])

def ofJson? (j : Json) : Option Activation := do
  let fields ← j.record? ["function", "bindings", "return_ip"] 3
  let function ← Json.required fields "function" Json.string?
  let bindings ← Json.required fields "bindings" Value.bindingsOfJson?
  let returnIp ← Json.optional fields "return_ip" Json.nat?
  some { function, bindings, returnIp }

end Activation

namespace Session.Status

def toJson : Session.Status → Json
  | .running => .obj [("state", .str "running")]
  | .suspended on => .obj [("on", .nat on), ("state", .str "suspended")]
  | .halted => .obj [("state", .str "halted")]
  | .failed message => .obj [("message", .str message), ("state", .str "failed")]

def ofJson? (j : Json) : Option Session.Status :=
  (j.tagged? "state").bind fun (state, content) =>
    match state with
    | "running" => (content.record? [] 0).map fun _ => .running
    | "suspended" => (content.record? ["on"] 1).bind fun fields =>
      (Json.required fields "on" Json.nat?).map .suspended
    | "halted" => (content.record? [] 0).map fun _ => .halted
    | "failed" => (content.record? ["message"] 1).bind fun fields =>
      (Json.required fields "message" Json.string?).map .failed
    | _ => none

end Session.Status

namespace TaskState

def toJson : TaskState → Except NonFinite Json
  | .pending waiters =>
    .ok (.obj [("state", .str "pending"), ("waiters", .arr (waiters.map .nat))])
  | .resolved value =>
    value.toJson.map fun j => .obj [("state", .str "resolved"), ("value", j)]
  | .failed message => .ok (.obj [("message", .str message), ("state", .str "failed")])

def ofJson? (j : Json) : Option TaskState :=
  (j.tagged? "state").bind fun (state, content) =>
    match state with
    | "pending" => (content.record? ["waiters"] 1).bind fun fields =>
      (Json.required fields "waiters" Json.nats?).map .pending
    | "resolved" => (content.record? ["value"] 1).bind fun fields =>
      (Json.required fields "value" Value.ofJson?).map .resolved
    | "failed" => (content.record? ["message"] 1).bind fun fields =>
      (Json.required fields "message" Json.string?).map .failed
    | _ => none

end TaskState

namespace Session

def resultToJson : Option Value → Except NonFinite Json
  | none => .ok .null
  | some v => v.toJson

def toJson (s : Session) : Except NonFinite Json := do
  let stack ← Value.itemsToJson s.stack.reverse
  let activations ← s.activations.reverse.mapM Activation.toJson
  let result ← resultToJson s.result
  .ok (.obj [("call_frames", .arr activations), ("id", .nat s.id),
    ("instruction_pointer", .nat s.ip), ("operand_stack", .arr stack),
    ("output", .strings s.output), ("result", result), ("status", s.status.toJson)])

def fieldNames : List String :=
  ["id", "instruction_pointer", "operand_stack", "call_frames", "status", "result", "output"]

def valuesOfJson? (j : Json) : Option (List Value) :=
  j.array?.bind Value.itemsOfJson?

def activationsOfJson? (j : Json) : Option (List Activation) :=
  j.array?.bind fun items => items.mapM Activation.ofJson?

def ofJson? (j : Json) : Option Session := do
  let fields ← j.record? fieldNames 6
  let id ← Json.required fields "id" Json.nat?
  let ip ← Json.required fields "instruction_pointer" Json.nat?
  let stack ← Json.required fields "operand_stack" valuesOfJson?
  let activations ← Json.required fields "call_frames" activationsOfJson?
  let status ← Json.required fields "status" Session.Status.ofJson?
  let result ← Json.optional fields "result" Value.ofJson?
  let output ← Json.defaulted fields "output" [] Json.strings?
  some
    { id, ip, stack := stack.reverse, activations := activations.reverse, status, result, output }

end Session

/-- The number a name spells: decimal digits without leading zeros. -/
def TaskId.ofName? (name : String) : Option TaskId :=
  let digits := name.toList
  if digits.isEmpty || !digits.all Char.isDigit || (digits.length > 1 && digits.head? = some '0')
  then none
  else
    let n := Numeral.natOfDigits digits
    if n < UInt64.size then some n else none

def Json.numbered (entries : Table TaskId Json) : Json :=
  .object (entries.map fun (id, j) => (Nat.repr id, j))

def Json.numbered? (read : Json → Option α) (j : Json) : Option (Table TaskId α) :=
  j.object?.bind fun fields =>
    (fields.mapM fun (name, j) => (TaskId.ofName? name).bind fun id =>
      (read j).map fun a => (id, a)).map Table.ofEntries

namespace World

def entriesToJson (toJson : α → Except NonFinite Json) (table : Table TaskId α) :
    Except NonFinite (Table TaskId Json) :=
  table.mapM fun (id, a) => (toJson a).map fun j => (id, j)

def toJson (w : World) : Except NonFinite Json := do
  let sessions ← entriesToJson Session.toJson w.sessions
  let tasks ← entriesToJson TaskState.toJson w.tasks
  .ok (.obj [("next_id", .nat w.nextId), ("pending_tasks", .numbered tasks),
    ("run_queue", .arr (w.queue.map .nat)), ("sessions", .numbered sessions),
    ("top_level", .ofOption .nat w.topLevel)])

def fieldNames : List String :=
  ["sessions", "pending_tasks", "run_queue", "top_level", "next_id"]

def ofJson? (j : Json) : Option World := do
  let fields ← j.record? fieldNames 5
  let sessions ← Json.required fields "sessions" (Json.numbered? Session.ofJson?)
  let tasks ← Json.required fields "pending_tasks" (Json.numbered? TaskState.ofJson?)
  let queue ← Json.required fields "run_queue" Json.nats?
  let topLevel ← Json.optional fields "top_level" Json.nat?
  let nextId ← Json.required fields "next_id" Json.nat?
  some { sessions, tasks, queue, topLevel, nextId }

end World

end Teal
