import Teal.Scheduler
import Teal.Store
import Teal.World.Document

/-!
# Invocations

An invocation is one bounded run of a world that lives in a store: load, run some quanta, save.
Nothing outlives it but what the store holds.

## Main definitions

* `Invocation`: a program and its settings.
* `Invocation.start`: saves a new world.
* `Invocation.advance`: runs a saved world further without saving it.
* `Invocation.resume`: runs a saved world further and saves it again.
-/

namespace Teal

inductive InvocationError
  | store (error : StoreError)
  | machine (error : MachineError)
  /-- The saved document is no world. -/
  | state
  /-- The world has no document. -/
  | checkpoint (cause : NonFinite)

inductive Standing
  | finished (result : Value) (output : List String)
  | failed (message : String)
  | pending

structure Invocation where
  executable : Executable
  settings : MachineSettings

namespace Invocation

variable {σ : Type} [Store σ]

def checkpoint (store : σ) (id : String) (w : World) : Except InvocationError σ :=
  match w.toJson with
  | .error cause => .error (.checkpoint cause)
  | .ok j => (Store.save store id j).mapError .store

def restore (store : σ) (id : String) : Except InvocationError World :=
  match Store.load store id with
  | .error e => .error (.store e)
  | .ok j =>
    match World.ofJson? j with
    | some w => .ok w
    | none => .error .state

def start (inv : Invocation) (store : σ) (id entry : String) (args : List Value) :
    Except InvocationError σ :=
  match Scheduler.start { executable := inv.executable, settings := inv.settings } entry args with
  | .error e => .error (.machine e)
  | .ok (_, c) => checkpoint store id c.world

def statusOf (c : Scheduler) : Except InvocationError Standing :=
  match c.progress with
  | .finished result => .ok (.finished result (c.output.flatMap Prod.snd))
  | .failed message => .ok (.failed message)
  | .pending => .ok .pending
  | .blocked waiting => .error (.machine (.deadlock waiting))

def advance (inv : Invocation) (store : σ) (id : String) (quanta : Nat) :
    Except InvocationError Scheduler := do
  let world ← restore store id
  .ok (Scheduler.run quanta { executable := inv.executable, settings := inv.settings, world })

/-- Runs a saved world for at most `quanta` quanta and saves it again. -/
def resume (inv : Invocation) (store : σ) (id : String) (quanta : Nat) :
    Except InvocationError Standing × σ :=
  match inv.advance store id quanta with
  | .error e => (.error e, store)
  | .ok c =>
    match checkpoint store id c.world with
    | .error e => (.error e, store)
    | .ok store => (statusOf c, store)

end Invocation

end Teal
