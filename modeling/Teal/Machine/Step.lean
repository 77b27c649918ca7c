import Teal.Machine.Call
import Teal.Machine.Operate
import Teal.World

/-!
# Steps of a session

One step executes the instruction at a session's pointer. What it took off the stack before it
failed stays off, so a failed session shows how far it came.

## Main definitions

* `Signal`, `Turn`: whether a session goes on, and the state after a step.
* `step`: one instruction.
-/

namespace Teal

inductive Signal
  | next
  | halted (value : Value)
  | suspended (on : TaskId)
  | failed (error : MachineError)

structure Turn where
  world : World
  session : Session
  signal : Signal

namespace Session

def withStack (s : Session) (stack : List Value) : Session :=
  { s with stack }

def advance (s : Session) : Session :=
  { s with ip := s.ip + 1 }

def bindings? (s : Session) : Option Bindings :=
  s.activations.head?.map Activation.bindings

def bindName (s : Session) (name : String) (value : Value) : Option Session :=
  match s.activations with
  | [] => none
  | latest :: rest =>
    let latest := { latest with bindings := latest.bindings.insert name value }
    some { s with activations := latest :: rest }

end Session

/-- What a name stands for: a binding, or else a function. -/
def lookup (exe : Executable) (s : Session) (name : String) : Except MachineError Value :=
  match s.bindings?.bind (·.get? name) with
  | some v => .ok v
  | none =>
    if (exe.function? name).isSome || (Builtin.ofName? name).isSome then .ok (.function name)
    else .error (.unboundName name)

/-- The target of a jump, if it is inside the code. -/
def jumpTarget (exe : Executable) (ip : Nat) (offset : Int) : Except MachineError Nat :=
  let target := ip + offset
  if 0 ≤ target ∧ target < exe.code.length then .ok target.toNat
  else .error (.badJump ip offset)

namespace Turn

def goOn (w : World) (s : Session) : Turn :=
  ⟨w, s, .next⟩

def fail (w : World) (s : Session) (e : MachineError) : Turn :=
  ⟨w, s, .failed e⟩

end Turn

/-- Enters a function, or calls a builtin at once. -/
def enter (exe : Executable) (w : World) (s : Session) (call : TakenCall)
    (keywords : List Value) : Turn :=
  let s := s.withStack call.stack
  match Callee.resolve exe call.callee with
  | .error e => .fail w s e
  | .ok (.compiled name info captured) =>
    match argumentBindings name info.params captured call.args keywords with
    | .error e => .fail w s e
    | .ok bindings =>
      .goOn w { s with
        activations := ⟨name, bindings, some (s.ip + 1)⟩ :: s.activations, ip := info.location }
  | .ok (.builtin name b) =>
    match b.call name call.args keywords with
    | .error e => .fail w s e
    | .ok (v, lines) =>
      .goOn w { s.advance with stack := v :: s.stack, output := s.output ++ lines }

/-- Starts a task for a call and pushes its future. A builtin is called at once. -/
def spawnTask (exe : Executable) (w : World) (s : Session) (call : TakenCall)
    (keywords : List Value) : Turn :=
  let s := s.withStack call.stack
  match Callee.resolve exe call.callee with
  | .error e => .fail w s e
  | .ok (.compiled name info captured) =>
    match argumentBindings name info.params captured call.args keywords with
    | .error e => .fail w s e
    | .ok bindings =>
      let (id, w) := w.spawn info.location { function := name, bindings }
      .goOn w (s.advance.withStack (.future id :: s.stack))
  | .ok (.builtin name b) =>
    match b.call name call.args keywords with
    | .error e => .fail w s e
    | .ok (v, lines) =>
      let (id, w) := w.addSettled (.resolved v)
      .goOn w { s.advance with stack := .future id :: s.stack, output := s.output ++ lines }

/-- Waits for a value. Only a future is waited for; while its task is pending the session keeps
its place, so that the same instruction finds the task settled later. -/
def await (w : World) (s : Session) (value : Value) (rest : List Value) : Turn :=
  match value with
  | .future task =>
    match w.task? task with
    | some (.resolved v) => .goOn w (s.advance.withStack (v :: rest))
    | some (.failed message) => .fail w (s.withStack rest) (.taskFailed task message)
    | some (.pending _) => ⟨(w.enlist task s.id).2, s, .suspended task⟩
    | none => .fail w (s.withStack rest) (.unknownTask task)
  | v => .goOn w (s.advance.withStack (v :: rest))

def returnValue (w : World) (s : Session) (value : Value) (rest : List Value) : Turn :=
  match s.activations with
  | [] => .fail w (s.withStack rest) .stackUnderflow
  | latest :: activations =>
    match latest.returnIp with
    | some ip => .goOn w { s with stack := value :: rest, activations, ip }
    | none => ⟨w, { s with stack := rest, activations }, .halted value⟩

def execute (exe : Executable) (w : World) (s : Session) : Op → Turn
  | .pushValue value => .goOn w (s.advance.withStack (value :: s.stack))
  | .pushBinding name =>
    match lookup exe s name with
    | .ok v => .goOn w (s.advance.withStack (v :: s.stack))
    | .error e => .fail w s e
  | .bind name =>
    match s.stack.head?.bind (s.bindName name) with
    | some s => .goOn w s.advance
    | none => .fail w s .stackUnderflow
  | .pop =>
    match s.stack with
    | _ :: rest => .goOn w (s.advance.withStack rest)
    | [] => .fail w s .stackUnderflow
  | .jump offset =>
    match jumpTarget exe s.ip offset with
    | .ok ip => .goOn w { s with ip }
    | .error e => .fail w s e
  | .jumpIf offset =>
    match s.stack with
    | [] => .fail w s .stackUnderflow
    | condition :: rest =>
      let s := s.withStack rest
      if condition.isTruthy then
        match jumpTarget exe s.ip offset with
        | .ok ip => .goOn w { s with ip }
        | .error e => .fail w s e
      else .goOn w s.advance
  | .call count keywords =>
    match takeCall count s.stack with
    | .ok call => enter exe w s call keywords
    | .error (e, stack) => .fail w (s.withStack stack) e
  | .asyncCall count keywords =>
    match takeCall count s.stack with
    | .ok call => spawnTask exe w s call keywords
    | .error (e, stack) => .fail w (s.withStack stack) e
  | .wait =>
    match s.stack with
    | [] => .fail w s .stackUnderflow
    | value :: rest => await w s value rest
  | .ret =>
    match s.stack with
    | [] => .fail w s .stackUnderflow
    | value :: rest => returnValue w s value rest
  | .makeClosure function =>
    match exe.function? function, s.bindings? with
    | none, _ => .fail w s (.unknownFunction function)
    | some _, none => .fail w s .stackUnderflow
    | some _, some captured =>
      .goOn w (s.advance.withStack (.closure function captured :: s.stack))
  | .operate op =>
    match s.stack with
    | right :: left :: rest =>
      match op.apply left right with
      | .ok v => .goOn w (s.advance.withStack (v :: rest))
      | .error e => .fail w (s.withStack rest) e
    | _ => .fail w (s.withStack []) .stackUnderflow

def step (exe : Executable) (w : World) (s : Session) : Turn :=
  match exe.instruction? s.ip with
  | some i => execute exe w s i.op
  | none => .fail w s (.invalidPointer s.ip)

end Teal
