import Mathlib.Logic.Function.Basic
import Mathlib.Tactic.Convert
import Teal.Proofs.Request
import Teal.Scheduler

/-!
# Quanta, step by step

A view of a world is what its tables say, their layout aside. While a session runs it stands
outside of its world; in the view it stays where it was, at the front of the queue. A quantum is
then a sequence of steps of one session followed by a conclusion, and each of them changes the
view at one or two places.

## Main definitions

* `View`, `World.view`: what a world says.
* `View.Step`, `View.Steps`: one step, and a number of steps, of a session that goes on.
* `View.Concludes`: how a quantum ends.
* `Scheduler.prints`: the argument lists that `print` is called with.

## Main statements

* `Scheduler.quantum_spec`: what a quantum does.
-/

namespace Teal

/-- What a world says, the layout of its tables aside. -/
@[ext]
structure View where
  session : TaskId → Option Session
  task : TaskId → Option TaskState
  queue : List TaskId
  nextId : TaskId
  topLevel : Option TaskId

def World.view (w : World) : View :=
  ⟨w.session?, w.task?, w.queue, w.nextId, w.topLevel⟩

/-- A world with a session that runs outside of it. -/
def World.viewWith (w : World) (s : Session) : View :=
  ⟨Function.update w.session? s.id (some s), w.task?, s.id :: w.queue, w.nextId, w.topLevel⟩

namespace View

def put (V : View) (id : TaskId) (s : Session) : View :=
  { V with session := Function.update V.session id (some s) }

def spawn (V : View) (ip : Nat) (first : Activation) : View where
  session := Function.update V.session V.nextId
    (some { id := V.nextId, ip, activations := [first] })
  task := Function.update V.task V.nextId (some (.pending []))
  queue := V.queue ++ [V.nextId]
  nextId := V.nextId + 1
  topLevel := V.topLevel

def addSettled (V : View) (v : Value) : View :=
  { V with
    task := Function.update V.task V.nextId (some (.resolved v)), nextId := V.nextId + 1 }

def waiters (V : View) (id : TaskId) : List TaskId :=
  match V.task id with
  | some (.pending waiters) => waiters
  | _ => []

/-- A session is over, and with it its task; those that waited join the queue `queue`. -/
def finish (V : View) (id : TaskId) (s : Session) (outcome : TaskState) (queue : List TaskId) :
    View where
  session := Function.update V.session id (some s)
  task := Function.update V.task id (some outcome)
  queue := queue ++ V.waiters id
  nextId := V.nextId
  topLevel := V.topLevel

/-- A session waits for a task, and leaves the queue as `queue`. -/
def suspend (V : View) (id : TaskId) (s : Session) (task : TaskId) (queue : List TaskId) :
    View where
  session := Function.update V.session id (some { s with status := .suspended task })
  task := Function.update V.task task
    (some (.pending (if (V.waiters task).contains id then V.waiters task
      else V.waiters task ++ [id])))
  queue := queue
  nextId := V.nextId
  topLevel := V.topLevel

section Fields

variable (V : View) (id x : TaskId) (s : Session)

@[simp, grind =] theorem put_session :
    (V.put id s).session x = if x = id then some s else V.session x := by
  simp [put, Function.update_apply]

@[simp, grind =] theorem put_task : (V.put id s).task = V.task := rfl

@[simp, grind =] theorem put_queue : (V.put id s).queue = V.queue := rfl

@[simp, grind =] theorem put_nextId : (V.put id s).nextId = V.nextId := rfl

@[simp, grind =] theorem put_waiters : (V.put id s).waiters x = V.waiters x := rfl

@[simp, grind =] theorem spawn_session (ip : Nat) (first : Activation) :
    (V.spawn ip first).session x = if x = V.nextId
      then some { id := V.nextId, ip, activations := [first] } else V.session x := by
  simp [spawn, Function.update_apply]

@[simp, grind =] theorem spawn_task (ip : Nat) (first : Activation) :
    (V.spawn ip first).task x = if x = V.nextId then some (.pending []) else V.task x := by
  simp [spawn, Function.update_apply]

@[simp, grind =] theorem spawn_queue (ip : Nat) (first : Activation) :
    (V.spawn ip first).queue = V.queue ++ [V.nextId] := rfl

@[simp, grind =] theorem spawn_nextId (ip : Nat) (first : Activation) :
    (V.spawn ip first).nextId = V.nextId + 1 := rfl

@[simp, grind =] theorem addSettled_session (v : Value) :
    (V.addSettled v).session = V.session := rfl

@[simp, grind =] theorem addSettled_task (v : Value) :
    (V.addSettled v).task x = if x = V.nextId then some (.resolved v) else V.task x := by
  simp [addSettled, Function.update_apply]

@[simp, grind =] theorem addSettled_queue (v : Value) : (V.addSettled v).queue = V.queue := rfl

@[simp, grind =] theorem addSettled_nextId (v : Value) :
    (V.addSettled v).nextId = V.nextId + 1 := rfl

variable (outcome : TaskState) (task : TaskId) (queue : List TaskId)

@[simp, grind =] theorem finish_session :
    (V.finish id s outcome queue).session x = if x = id then some s else V.session x := by
  simp [finish, Function.update_apply]

@[simp, grind =] theorem finish_task :
    (V.finish id s outcome queue).task x = if x = id then some outcome else V.task x := by
  simp [finish, Function.update_apply]

@[simp, grind =] theorem finish_queue :
    (V.finish id s outcome queue).queue = queue ++ V.waiters id := rfl

@[simp, grind =] theorem finish_nextId : (V.finish id s outcome queue).nextId = V.nextId := rfl

@[simp, grind =] theorem suspend_session :
    (V.suspend id s task queue).session x =
      if x = id then some { s with status := .suspended task } else V.session x := by
  simp [suspend, Function.update_apply]

@[simp, grind =] theorem suspend_queue : (V.suspend id s task queue).queue = queue := rfl

@[simp, grind =] theorem suspend_nextId : (V.suspend id s task queue).nextId = V.nextId := rfl

end Fields

inductive Step (exe : Executable) (id : TaskId) (V : View) : View → Prop
  | goOn {s t : Session} {prints : List (List Value)} (hs : V.session id = some s)
      (hr : request exe s = .goOn t prints) : Step exe id V (V.put id (t.print prints))
  | spawn {s t : Session} {ip : Nat} {first : Activation} (hs : V.session id = some s)
      (hr : request exe s = .spawn t ip first) :
      Step exe id V ((V.spawn ip first).put id (t.push (.future V.nextId)))
  | settle {s t : Session} {v : Value} {prints : List (List Value)} (hs : V.session id = some s)
      (hr : request exe s = .settle t v prints) :
      Step exe id V ((V.addSettled v).put id ((t.push (.future V.nextId)).print prints))
  | resume {s : Session} {task : TaskId} {rest : List Value} {v : Value}
      (hs : V.session id = some s) (hr : request exe s = .await s task rest)
      (ht : V.task task = some (.resolved v)) :
      Step exe id V (V.put id (s.advance.withStack (v :: rest)))

inductive Steps (exe : Executable) (id : TaskId) : Nat → List (List Value) → View → View → Prop
  | refl (V : View) : Steps exe id 0 [] V V
  | head {n : Nat} {prints : List (List Value)} {V V' V'' : View} {s : Session}
      (hs : V.session id = some s) :
      Step exe id V V' → Steps exe id n prints V' V'' →
        Steps exe id (n + 1) ((request exe s).prints ++ prints) V V''

/-- What each step keeps, any number of them keeps. -/
theorem Steps.preserves {exe : Executable} {id : TaskId} {n : Nat} {prints : List (List Value)}
    {V V' : View} {P : View → Prop} (hsteps : Steps exe id n prints V V')
    (step : ∀ {V V'}, P V → Step exe id V V' → P V') (h : P V) : P V' := by
  induction hsteps with
  | refl V => exact h
  | head _ hstep _ ih => exact ih (step h hstep)

/-- The next step of a session fails and leaves it as `t`: by itself, or because it waits for a
task that failed or that there is not. -/
inductive Fails (exe : Executable) (V : View) (s : Session) : Session → MachineError → Prop
  | itself {t : Session} {e : MachineError} (hr : request exe s = .fail t e) : Fails exe V s t e
  | awaited {task : TaskId} {rest : List Value} {message : String}
      (hr : request exe s = .await s task rest) (ht : V.task task = some (.failed message)) :
      Fails exe V s (s.withStack rest) (.taskFailed task message)
  | unknown {task : TaskId} {rest : List Value}
      (hr : request exe s = .await s task rest) (ht : V.task task = none) :
      Fails exe V s (s.withStack rest) (.unknownTask task)

/-- How the quantum of a session ends, and the view after it. -/
inductive Concludes (exe : Executable) (id : TaskId) (V : View) : Outcome → View → Prop
  | preempted {queue : List TaskId} (hq : V.queue = id :: queue) :
      Concludes exe id V .preempted { V with queue := queue ++ [id] }
  | halted {queue : List TaskId} {s t : Session} {v : Value} (hq : V.queue = id :: queue)
      (hs : V.session id = some s) (hr : request exe s = .halt t v) :
      Concludes exe id V (.halted v)
        (V.finish id { t with status := .halted, result := some v } (.resolved v) queue)
  | failed {queue : List TaskId} {s t : Session} {e : MachineError} (hq : V.queue = id :: queue)
      (hs : V.session id = some s) (hf : Fails exe V s t e) :
      Concludes exe id V (.failed e)
        (V.finish id { t with status := .failed e.message } (.failed e.message) queue)
  | suspended {queue : List TaskId} {s : Session} {task : TaskId} {rest : List Value}
      {waiters : List TaskId} (hq : V.queue = id :: queue) (hs : V.session id = some s)
      (hr : request exe s = .await s task rest) (ht : V.task task = some (.pending waiters)) :
      Concludes exe id V (.suspended task) (V.suspend id s task queue)

end View

/-! ## Views of operations on worlds -/

namespace World

variable (w : World)

@[simp] theorem view_session : w.view.session = w.session? := rfl

@[simp] theorem view_task : w.view.task = w.task? := rfl

@[simp] theorem view_queue : w.view.queue = w.queue := rfl

@[simp] theorem view_nextId : w.view.nextId = w.nextId := rfl

@[simp] theorem view_topLevel : w.view.topLevel = w.topLevel := rfl

theorem session?_setSession (id : TaskId) (s : Session) :
    (w.setSession id s).session? = Function.update w.session? id (some s) := by
  funext x
  simp only [session?, setSession, Table.get?_insert, Function.update_apply]
  grind

/-- A session that runs outside of its world stays in the view at the front of the queue. -/
theorem viewWith_erase {w : World} {s : Session} {queue : List TaskId}
    (h : w.queue = s.id :: queue) :
    ({ w with queue, sessions := w.sessions.erase s.id } : World).viewWith s =
      w.view.put s.id s := by
  ext1
  · funext x
    simp only [viewWith, view, View.put, session?, Table.get?_erase, Function.update_apply]
    grind
  · rfl
  · exact h.symm
  · rfl
  · rfl

theorem session?_spawn (ip : Nat) (first : Activation) :
    (w.spawn ip first).2.session? = Function.update w.session? w.nextId
      (some { id := w.nextId, ip, activations := [first] }) := by
  funext x
  simp only [session?, spawn, Table.get?_insert, Function.update_apply]
  grind

theorem task?_spawn (ip : Nat) (first : Activation) :
    (w.spawn ip first).2.task? = Function.update w.task? w.nextId (some (.pending [])) := by
  funext x
  simp only [task?, spawn, Table.get?_insert, Function.update_apply]
  grind

theorem task?_addSettled (outcome : TaskState) :
    (w.addSettled outcome).2.task? = Function.update w.task? w.nextId (some outcome) := by
  funext x
  simp only [task?, addSettled, Table.get?_insert, Function.update_apply]
  grind

theorem task?_enlist {task waiter : TaskId} {waiters : List TaskId}
    (h : w.task? task = some (.pending waiters)) :
    (w.enlist task waiter).2.task? = Function.update w.task? task
      (some (.pending (if waiters.contains waiter then waiters else waiters ++ [waiter]))) := by
  funext x
  simp only [enlist, h]
  simp only [task?, Table.get?_insert, Function.update_apply]
  grind

end World

/-! ## What is printed -/

def slicePrints (exe : Executable) : (budget : Nat) → World → Session → List (List Value)
  | 0, _, _ => []
  | budget + 1, w, s =>
    let turn := step exe w s
    (request exe s).prints ++
      match turn.signal with
      | .next => slicePrints exe budget turn.world turn.session
      | _ => []

def Scheduler.quantumPrints (c : Scheduler) : List (List Value) :=
  match c.world.queue with
  | [] => []
  | id :: queue =>
    match c.world.session? id with
    | none => []
    | some s =>
      if s.isOver then []
      else slicePrints c.executable (max c.settings.stepLimit 1)
        { c.world with queue, sessions := c.world.sessions.erase id }
        { s with status := .running }

def Scheduler.prints : (n : Nat) → Scheduler → List (List Value)
  | 0, _ => []
  | n + 1, c =>
    match c.quantum with
    | none => []
    | some (_, d) => c.quantumPrints ++ d.prints n

/-! ## Slices as steps -/

section Slice

variable {exe : Executable} {w : World} {s : Session}

def Signal.outcome? : Signal → Option Outcome
  | .next => none
  | .halted v => some (.halted v)
  | .suspended on => some (.suspended on)
  | .failed e => some (.failed e)

/-- A step leaves of its session what its request does, but for the output. -/
theorem step_keeps : s.Keeps { (step exe w s).session with output := s.output } := by
  rw [step_eq_perform]
  cases hr : request exe s with
  | await t task rest =>
    obtain ⟨rfl, -⟩ := request_await hr
    simp only [Request.perform, await]
    split <;> exact ⟨rfl, rfl, rfl, rfl⟩
  | _ =>
    have keeps := Session.keeps_of_request hr
    exact ⟨keeps.id, keeps.status, keeps.result, rfl⟩

/-- A step after which a session goes on. -/
theorem viewWith_step (h : (step exe w s).signal = .next) :
    View.Step exe s.id (w.viewWith s) ((step exe w s).world.viewWith (step exe w s).session) := by
  have hid : (step exe w s).session.id = s.id := step_keeps.id
  have hs : (w.viewWith s).session s.id = some s := by simp [World.viewWith]
  rw [step_eq_perform] at h hid ⊢
  cases hr : request exe s with
  | goOn t prints =>
    rw [hr] at hid
    convert View.Step.goOn hs hr using 1
    simp only [Request.perform, Turn.goOn] at hid ⊢
    simp [World.viewWith, View.put, hid]
  | spawn t ip first =>
    rw [hr] at hid
    convert View.Step.spawn hs hr using 1
    simp only [Request.perform, Turn.goOn] at hid ⊢
    ext1
    · funext x
      simp only [World.viewWith, View.put, View.spawn, World.session?_spawn, hid,
        Function.update_apply]
      grind
    · simp [World.viewWith, View.put, View.spawn, World.task?_spawn]
    · simp [World.viewWith, View.put, View.spawn, World.spawn, hid]
    · simp [World.viewWith, View.put, View.spawn, World.spawn]
    · rfl
  | settle t v prints =>
    rw [hr] at hid
    convert View.Step.settle hs hr using 1
    simp only [Request.perform, Turn.goOn] at hid ⊢
    ext1
    · simp only [World.viewWith, View.put, View.addSettled, hid]
      funext x
      simp only [World.session?, World.addSettled, Function.update_apply]
      grind
    · simp [World.viewWith, View.put, View.addSettled, World.task?_addSettled]
    · simp [World.viewWith, View.put, View.addSettled, World.addSettled, hid]
    · simp [World.viewWith, View.put, View.addSettled, World.addSettled]
    · rfl
  | await t task rest =>
    obtain ⟨rfl, -⟩ := request_await hr
    simp only [hr, Request.perform, await] at h ⊢
    rcases ht : w.task? task with _ | waiters | v | message
    · simp [ht, Turn.fail] at h
    · simp [ht] at h
    · convert View.Step.resume hs hr ht using 1
      simp only [Turn.goOn, World.viewWith, View.put, Session.advance, Session.withStack]
      simp
    · simp [ht, Turn.fail] at h
  | halt t v => simp [hr, Request.perform] at h
  | fail t e => simp [hr, Request.perform, Turn.fail] at h

theorem prints_of_step (h : (step exe w s).signal ≠ .next) : (request exe s).prints = [] := by
  rw [step_eq_perform] at h
  cases hr : request exe s with
  | goOn | settle => simp [hr, Request.perform, Turn.goOn] at h
  | _ => rfl

/-- A slice is a number of steps, and one that ends it unless it is used up. -/
theorem slice_spec (exe : Executable) (budget : Nat) (w : World) (s : Session) :
    ∃ n w₁ s₁, View.Steps exe s.id n (slicePrints exe budget w s) (w.viewWith s)
        (w₁.viewWith s₁) ∧ s₁.id = s.id ∧
      ((n = budget ∧ slice exe budget w s = (w₁, s₁, .preempted)) ∨
        ∃ o, (step exe w₁ s₁).signal.outcome? = some o ∧
          slice exe budget w s = ((step exe w₁ s₁).world, (step exe w₁ s₁).session, o)) := by
  induction budget generalizing w s with
  | zero => exact ⟨0, w, s, .refl _, rfl, .inl ⟨rfl, rfl⟩⟩
  | succ budget ih =>
    have hs : (w.viewWith s).session s.id = some s := by simp [World.viewWith]
    -- the step that ends a slice prints nothing
    have last {o : Outcome} (ho : (step exe w s).signal.outcome? = some o) :
        slicePrints exe (budget + 1) w s = [] := by
      have hnext : (step exe w s).signal ≠ .next := fun h => by simp [h, Signal.outcome?] at ho
      have hprints := prints_of_step hnext
      simp only [slicePrints, hprints, List.nil_append]
    cases hsig : (step exe w s).signal with
    | next =>
      have first := viewWith_step hsig
      have hid : (step exe w s).session.id = s.id := step_keeps.id
      obtain ⟨n, w₁, s₁, hsteps, hid₁, hend⟩ := ih (step exe w s).world (step exe w s).session
      have unroll : slice exe (budget + 1) w s =
          slice exe budget (step exe w s).world (step exe w s).session := by
        simp [slice, hsig]
      have unrollPrints : slicePrints exe (budget + 1) w s = (request exe s).prints ++
          slicePrints exe budget (step exe w s).world (step exe w s).session := by
        simp [slicePrints, hsig]
      rw [hid] at hsteps hid₁
      refine ⟨n + 1, w₁, s₁, unrollPrints ▸ .head hs first hsteps, hid₁, ?_⟩
      rw [unroll]
      exact hend.imp_left (And.imp_left fun h => by omega)
    | halted v =>
      have ho : (step exe w s).signal.outcome? = some (.halted v) := by rw [hsig]; rfl
      exact ⟨0, w, s, last ho ▸ .refl _, rfl, .inr ⟨_, ho, by simp [slice, hsig]⟩⟩
    | suspended on =>
      have ho : (step exe w s).signal.outcome? = some (.suspended on) := by rw [hsig]; rfl
      exact ⟨0, w, s, last ho ▸ .refl _, rfl, .inr ⟨_, ho, by simp [slice, hsig]⟩⟩
    | failed e =>
      have ho : (step exe w s).signal.outcome? = some (.failed e) := by rw [hsig]; rfl
      exact ⟨0, w, s, last ho ▸ .refl _, rfl, .inr ⟨_, ho, by simp [slice, hsig]⟩⟩

/-- A session that ran outside of its world is over. -/
theorem view_settle (w : World) (s t : Session) (outcome : TaskState) :
    (((w.setSession s.id t).settle s.id outcome).2.enqueue (w.waiters s.id)).view =
      (w.viewWith s).finish s.id t outcome w.queue := by
  ext1
  · funext x
    simp [World.view, View.finish, World.viewWith, World.settle, World.enqueue, World.session?,
      World.setSession, Table.get?_insert, Function.update_apply, eq_comm]
  · funext x
    simp only [World.view, View.finish, World.viewWith, World.settle, World.enqueue, World.task?,
      World.setSession, Table.get?_insert, Function.update_apply, eq_comm]
  · rfl
  · rfl
  · rfl

/-- A session that ran outside of its world waits for a task. -/
theorem view_enlist {task : TaskId} {waiters : List TaskId}
    (ht : w.task? task = some (.pending waiters)) :
    ((w.enlist task s.id).2.setSession s.id { s with status := .suspended task }).view =
      (w.viewWith s).suspend s.id s task w.queue := by
  have hw : (w.viewWith s).waiters task = waiters := by simp [View.waiters, World.viewWith, ht]
  ext1
  · funext x
    simp [World.view, View.suspend, World.viewWith, World.enlist, ht, World.session?,
      World.setSession, Table.get?_insert, Function.update_apply, eq_comm]
  · simp only [View.suspend, hw]
    exact World.task?_enlist w ht
  · simp [World.view, View.suspend, World.setSession, World.enlist, ht]
  · simp [World.view, View.suspend, World.viewWith, World.setSession, World.enlist, ht]
  · simp [World.view, View.suspend, World.viewWith, World.setSession, World.enlist, ht]

/-- The view of a scheduler after a session made its last step in a quantum. -/
theorem concludes_of_step {c : Scheduler} {o : Outcome}
    (ho : (step exe w s).signal.outcome? = some o)
    (hw : c.world = (step exe w s).world.setSession s.id ((step exe w s).session.marked o)) :
    View.Concludes exe s.id (w.viewWith s) o (c.conclude s.id o).world.view := by
  have hs : (w.viewWith s).session s.id = some s := by simp [World.viewWith]
  have hq : (w.viewWith s).queue = s.id :: w.queue := rfl
  -- every session that fails is concluded alike
  have fails {t : Session} {e : MachineError} (hf : View.Fails exe (w.viewWith s) s t e)
      (hw : c.world = w.setSession s.id (t.marked (.failed e))) :
      View.Concludes exe s.id (w.viewWith s) (.failed e)
        (c.conclude s.id (.failed e)).world.view := by
    convert View.Concludes.failed hq hs hf using 1
    simp only [Scheduler.conclude, hw]
    exact view_settle w s _ _
  rw [step_eq_perform] at ho hw
  cases hr : request exe s with
  | goOn t prints => simp [hr, Request.perform, Turn.goOn, Signal.outcome?] at ho
  | spawn t ip first => simp [hr, Request.perform, Turn.goOn, Signal.outcome?] at ho
  | settle t v prints => simp [hr, Request.perform, Turn.goOn, Signal.outcome?] at ho
  | halt t v =>
    obtain rfl : Outcome.halted v = o := by simpa [hr, Request.perform, Signal.outcome?] using ho
    simp only [hr, Request.perform] at hw
    convert View.Concludes.halted hq hs hr using 1
    simp only [Scheduler.conclude, hw]
    exact view_settle w s _ _
  | fail t e =>
    obtain rfl : Outcome.failed e = o := by
      simpa [hr, Request.perform, Turn.fail, Signal.outcome?] using ho
    simp only [hr, Request.perform, Turn.fail] at hw
    exact fails (.itself hr) hw
  | await t task rest =>
    obtain ⟨rfl, -⟩ := request_await hr
    simp only [hr, Request.perform, await] at ho hw
    rcases ht : w.task? task with _ | waiters | v | message
    · obtain rfl : Outcome.failed (.unknownTask task) = o := by
        simpa [ht, Turn.fail, Signal.outcome?] using ho
      simp only [ht, Turn.fail] at hw
      exact fails (.unknown hr ht) hw
    · obtain rfl : Outcome.suspended task = o := by simpa [ht, Signal.outcome?] using ho
      simp only [ht] at hw
      convert View.Concludes.suspended hq hs hr ht using 1
      simp only [Scheduler.conclude, hw, Session.marked]
      exact view_enlist ht
    · simp [ht, Turn.goOn, Signal.outcome?] at ho
    · obtain rfl : Outcome.failed (.taskFailed task message) = o := by
        simpa [ht, Turn.fail, Signal.outcome?] using ho
      simp only [ht, Turn.fail] at hw
      exact fails (.awaited hr ht) hw

end Slice

/-! ## Quanta -/

namespace Scheduler

variable {c d : Scheduler} {id : TaskId} {o : Outcome}

/-- A quantum is a turn of the first session of the queue, and its conclusion. -/
theorem quantum_eq_some (h : c.quantum = some ((id, o), d)) :
    ∃ queue, c.world.queue = id :: queue ∧
      (o, d) = (let (o, world) := { c.world with queue }.runTurn c.executable c.settings id
        (o, { c with world }.conclude id o)) := by
  unfold quantum at h
  split at h
  · cases h
  · next queue hqueue =>
    cases h
    exact ⟨queue, hqueue, rfl⟩

/-- The program and the settings stay, and failures are recorded. -/
theorem quantum_fields (h : c.quantum = some ((id, o), d)) :
    d.executable = c.executable ∧ d.settings = c.settings ∧
      ∀ x e, d.failures.get? x = some e →
        c.failures.get? x = some e ∨ (x = id ∧ o = .failed e) := by
  obtain ⟨queue, -, h⟩ := quantum_eq_some h
  generalize ({ c.world with queue } : World).runTurn c.executable c.settings id = turn at h
  obtain ⟨outcome, world⟩ := turn
  obtain ⟨rfl, rfl⟩ := Prod.mk.inj h
  cases o with
  | failed e' =>
    refine ⟨rfl, rfl, fun x e he => ?_⟩
    simp only [conclude, Table.get?_insert] at he
    grind
  | _ => exact ⟨rfl, rfl, fun x e he => .inl he⟩

/-- A quantum of a session that is there and not over: some steps, and a conclusion. A slice is
never used up without a step. -/
theorem quantum_spec {s : Session} (h : c.quantum = some ((id, o), d))
    (hs : c.world.session? id = some s) (hid : s.id = id) (hover : s.isOver = false) :
    ∃ n V, View.Steps c.executable id n c.quantumPrints
        (c.world.view.put id { s with status := .running }) V ∧
      V.Concludes c.executable id o d.world.view ∧ (o = .preempted → 0 < n) := by
  subst hid
  obtain ⟨queue, hqueue, h⟩ := quantum_eq_some h
  have hprints : c.quantumPrints = slicePrints c.executable (max c.settings.stepLimit 1)
      { c.world with queue, sessions := c.world.sessions.erase s.id }
      { s with status := .running } := by
    simp [quantumPrints, hqueue, hs, hover]
  have hs' : ({ c.world with queue } : World).session? s.id = some s := hs
  simp only [World.runTurn, hs', hover, Bool.false_eq_true, if_false, World.runSlice] at h
  generalize hout :
    ({ c.world with queue, sessions := c.world.sessions.erase s.id } : World) = w at h hprints
  have hview : w.viewWith { s with status := .running } =
      c.world.view.put s.id { s with status := .running } :=
    hout ▸ World.viewWith_erase (s := { s with status := .running }) hqueue
  obtain ⟨n, w₁, s₁, hsteps, hid₁, hend⟩ :=
    slice_spec c.executable (max c.settings.stepLimit 1) w { s with status := .running }
  rw [hview, ← hprints] at hsteps
  refine ⟨n, w₁.viewWith s₁, hsteps, ?_⟩
  rcases hend with ⟨rfl, hslice⟩ | ⟨o', ho', hslice⟩
  · simp only [hslice, Prod.mk.injEq] at h
    obtain ⟨rfl, rfl⟩ := h
    refine ⟨?_, fun _ => by omega⟩
    have hq : (w₁.viewWith s₁).queue = s.id :: w₁.queue := by simp [World.viewWith, hid₁]
    convert View.Concludes.preempted hq using 1
    ext1
    · simp only [World.viewWith, hid₁]
      exact World.session?_setSession w₁ s.id s₁
    · rfl
    · rfl
    · rfl
    · rfl
  · simp only [hslice, Prod.mk.injEq] at h
    obtain ⟨rfl, rfl⟩ := h
    refine ⟨?_, ?_⟩
    · have hid₁ : s.id = s₁.id := hid₁.symm
      rw [hid₁]
      exact concludes_of_step ho' rfl
    · rintro rfl
      cases hsig : (step c.executable w₁ s₁).signal <;> simp [hsig, Signal.outcome?] at ho'

end Scheduler

end Teal
