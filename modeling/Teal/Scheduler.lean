import Teal.Machine.Run

/-!
# Scheduling

A scheduler runs the sessions of a world in turn. A quantum takes the first session of the
queue and runs it for a slice; when its task ends, the sessions that waited for it join the
queue.

## Main definitions

* `Scheduler`: a world being run.
* `Scheduler.quantum`, `Scheduler.quanta`: one turn, and several.
* `Scheduler.drain`: turns until the queue is empty.
* `Scheduler.progress`, `Scheduler.report`: where the program stands.
-/

namespace Teal

structure Scheduler where
  executable : Executable
  settings : MachineSettings
  world : World := {}
  /-- How sessions failed since the scheduler was made. -/
  failures : Table TaskId MachineError := []
  suspensions : Nat := 0
  preemptions : Nat := 0

inductive Progress
  | finished (result : Value)
  | failed (message : String)
  /-- Some session can run. -/
  | pending
  /-- No session can run; these wait. -/
  | blocked (waiting : List TaskId)

structure Report where
  result : Value
  /-- The lines each session printed. -/
  output : Table TaskId (List String)
  suspensions : Nat
  preemptions : Nat

def Report.allOutput (r : Report) : List String :=
  r.output.flatMap Prod.snd

namespace Scheduler

def start (c : Scheduler) (entry : String) (args : List Value) :
    Except MachineError (TaskId × Scheduler) :=
  match c.world.topLevel with
  | some id => .error (.notRunnable id)
  | none => do
    let (id, world) ← c.world.spawnCall c.executable entry args
    .ok (id, { c with world := { world with topLevel := some id } })

/-- What follows from what a session did: its task ends and wakes its waiters, or it is counted. -/
def conclude (c : Scheduler) (id : TaskId) : Outcome → Scheduler
  | .halted v =>
    let (waiters, world) := c.world.settle id (.resolved v)
    { c with world := world.enqueue waiters }
  | .failed e =>
    let (waiters, world) := c.world.settle id (.failed e.message)
    { c with world := world.enqueue waiters, failures := c.failures.insert id e }
  | .suspended _ => { c with suspensions := c.suspensions + 1 }
  | .preempted => { c with
    world := c.world.enqueue [id], preemptions := c.preemptions + 1 }

/-- One turn of the first session of the queue. -/
def quantum (c : Scheduler) : Option ((TaskId × Outcome) × Scheduler) :=
  match c.world.queue with
  | [] => none
  | id :: queue =>
    let (outcome, world) := { c.world with queue }.runTurn c.executable c.settings id
    some ((id, outcome), { c with world }.conclude id outcome)

def quanta : (n : Nat) → Scheduler → List (TaskId × Outcome) × Scheduler
  | 0, c => ([], c)
  | n + 1, c =>
    match c.quantum with
    | none => ([], c)
    | some (done, c) =>
      let (others, c) := quanta n c
      (done :: others, c)

def run : (n : Nat) → Scheduler → Scheduler
  | 0, c => c
  | n + 1, c =>
    match c.quantum with
    | none => c
    | some (_, c) => run n c

def topSession? (c : Scheduler) : Option Session :=
  c.world.topLevel.bind c.world.session?

def waiting (c : Scheduler) : List TaskId :=
  (c.world.sessions.filter fun entry => entry.2.status matches .suspended _).map fun entry =>
    entry.2.id

def progress (c : Scheduler) : Progress :=
  match c.topSession? with
  | none => .blocked []
  | some s =>
    match s.status with
    | .halted => .finished (s.result.getD .null)
    | .failed message => .failed message
    | _ => if c.world.queue.isEmpty then .blocked c.waiting else .pending

def output (c : Scheduler) : Table TaskId (List String) :=
  c.world.sessions.map fun (id, s) => (id, s.output)

def report (c : Scheduler) : Except MachineError Report :=
  match c.world.topLevel with
  | none => .error (.deadlock [])
  | some top =>
    match c.progress with
    | .finished result =>
      .ok { result, output := c.output, suspensions := c.suspensions, preemptions := c.preemptions }
    | .failed message => .error ((c.failures.get? top).getD (.taskFailed top message))
    | .pending => .error (.notRunnable top)
    | .blocked waiting => .error (.deadlock waiting)

/-- Turns until the queue is empty, and the report then; nothing if `bound` turns are not enough. -/
def drain (bound : Nat) (c : Scheduler) :
    Option (Except MachineError Report × Scheduler) :=
  let c := c.run bound
  if c.world.queue.isEmpty then some (c.report, c) else none

end Scheduler

/-- Calls `entry` and runs the program to its end; nothing if `bound` turns are not enough. -/
def Executable.evaluate (bound : Nat) (executable : Executable) (settings : MachineSettings)
    (entry : String) (args : List Value) : Option (Except MachineError Report) :=
  match Scheduler.start { executable, settings } entry args with
  | .error e => some (.error e)
  | .ok (_, c) => (c.drain bound).map Prod.fst

end Teal
