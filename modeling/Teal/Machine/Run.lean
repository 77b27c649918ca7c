import Teal.Machine.Step

/-!
# Running sessions

A session runs until it halts, suspends, fails or has used up its slice of steps.

## Main definitions

* `MachineSettings`: how long a slice is.
* `slice`: some steps of a session.
* `World.runTurn`: one slice of the session with an id.
* `World.spawnCall`: a session that calls a function.
-/

namespace Teal

structure MachineSettings where
  /-- The steps of a session before the next one has its turn; at least one is made. -/
  stepLimit : Nat := 10000
  /-- Whether every step is to be logged. -/
  trace : Bool := false
deriving DecidableEq, Repr

inductive Outcome
  | halted (value : Value)
  | suspended (on : TaskId)
  /-- The slice is used up; the session can go on. -/
  | preempted
  | failed (error : MachineError)

def slice (exe : Executable) : (budget : Nat) → World → Session → World × Session × Outcome
  | 0, w, s => (w, s, .preempted)
  | budget + 1, w, s =>
    let turn := step exe w s
    match turn.signal with
    | .next => slice exe budget turn.world turn.session
    | .halted v => (turn.world, turn.session, .halted v)
    | .suspended on => (turn.world, turn.session, .suspended on)
    | .failed e => (turn.world, turn.session, .failed e)

def Session.marked (s : Session) : Outcome → Session
  | .halted v => { s with status := .halted, result := some v }
  | .suspended on => { s with status := .suspended on }
  | .preempted => s
  | .failed e => { s with status := .failed e.message }

namespace World

/-- Runs a slice of a session that is not over, outside of the table while it runs. -/
def runSlice (exe : Executable) (settings : MachineSettings) (w : World) (id : TaskId)
    (s : Session) : Outcome × World :=
  let outside := { w with sessions := w.sessions.erase id }
  let (w, s, outcome) :=
    slice exe (max settings.stepLimit 1) outside { s with status := .running }
  (outcome, w.setSession id (s.marked outcome))

def runTurn (exe : Executable) (settings : MachineSettings) (w : World) (id : TaskId) :
    Outcome × World :=
  match w.session? id with
  | none => (.failed (.unknownSession id), w)
  | some s =>
    if s.isOver then (.failed (.notRunnable id), w)
    else w.runSlice exe settings id s

def spawnCall (exe : Executable) (w : World) (function : String) (args : List Value) :
    Except MachineError (TaskId × World) :=
  match exe.function? function with
  | none => .error (.unknownFunction function)
  | some info => do
    let keywords := args.map fun _ => Value.null
    let bindings ← argumentBindings function info.params [] args keywords
    .ok (w.spawn info.location { function, bindings })

end World

end Teal
