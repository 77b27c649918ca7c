import Teal.Value

/-!
# Worlds

A world is the complete state of a program: its sessions, the tasks they settle and the queue
of sessions that can run. A session runs one activation of a function with everything it calls;
a task is the handle by which others wait for its result.

## Main definitions

* `Activation`, `Session`, `TaskState`, `World`: the parts of the state.
* `World.spawn`, `World.addSettled`: new tasks.
* `World.settle`, `World.enlist`: a task ends, and a session waits for one.
-/

namespace Teal

structure Activation where
  function : String
  bindings : Bindings
  /-- Where the caller goes on; none at the bottom of a session. -/
  returnIp : Option Nat := none

inductive Session.Status
  | running
  | suspended (on : TaskId)
  | halted
  | failed (message : String)
deriving DecidableEq, Repr

/-- A run of one call. The last value pushed and the latest activation come first. -/
structure Session where
  id : TaskId
  ip : Nat
  stack : List Value := []
  activations : List Activation
  status : Session.Status := .running
  result : Option Value := none
  output : List String := []

def Session.isOver (s : Session) : Bool :=
  match s.status with
  | .halted | .failed _ => true
  | _ => false

inductive TaskState
  | pending (waiters : List TaskId)
  | resolved (value : Value)
  | failed (message : String)

def TaskState.isSettled : TaskState → Bool
  | .pending _ => false
  | _ => true

/-- The complete state of a program. -/
structure World where
  sessions : Table TaskId Session := []
  tasks : Table TaskId TaskState := []
  queue : List TaskId := []
  topLevel : Option TaskId := none
  nextId : TaskId := 0

namespace World

def session? (w : World) (id : TaskId) : Option Session :=
  w.sessions.get? id

def task? (w : World) (id : TaskId) : Option TaskState :=
  w.tasks.get? id

def spawn (w : World) (ip : Nat) (first : Activation) : TaskId × World :=
  let id := w.nextId
  (id, { w with
    sessions := w.sessions.insert id { id, ip, activations := [first] }
    tasks := w.tasks.insert id (.pending [])
    queue := w.queue ++ [id]
    nextId := id + 1 })

/-- A new task without a session, settled from the start. -/
def addSettled (w : World) (outcome : TaskState) : TaskId × World :=
  let id := w.nextId
  (id, { w with tasks := w.tasks.insert id outcome, nextId := id + 1 })

def waiters (w : World) (id : TaskId) : List TaskId :=
  match w.task? id with
  | some (.pending waiters) => waiters
  | _ => []

def settle (w : World) (id : TaskId) (outcome : TaskState) : List TaskId × World :=
  (w.waiters id, { w with tasks := w.tasks.insert id outcome })

/-- Lets a session wait for a task, at most once. A settled task takes no waiters. -/
def enlist (w : World) (task waiter : TaskId) : Bool × World :=
  match w.task? task with
  | some (.pending waiters) =>
    let waiters := if waiters.contains waiter then waiters else waiters ++ [waiter]
    (true, { w with tasks := w.tasks.insert task (.pending waiters) })
  | _ => (false, w)

def enqueue (w : World) (ids : List TaskId) : World :=
  { w with queue := w.queue ++ ids }

def setSession (w : World) (id : TaskId) (s : Session) : World :=
  { w with sessions := w.sessions.insert id s }

end World

end Teal
