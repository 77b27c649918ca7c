import Mathlib.Data.List.Nodup
import Teal.Proofs.History

/-!
# Settled once, woken once

A task is settled by the quantum that ends its own session and never changes afterwards. The same
quantum puts those who wait for it into the queue, each of them once and in the order in which they
suspended. A session that is woken stands where it suspended, and its next quantum begins by
completing its wait.

## Main definitions

* `suspensionsOn`: who suspended on a task, in the order of a log of quanta.
* `View.Recorded`: the waiters of a task are those whom a log names.
* `Session.AtWait`: a suspended session stands at the instruction by which it waits.

## Main statements

* `Scheduler.quantum_settles`: what the quantum does that settles a task.
* `Scheduler.quantum_completes`: how the next quantum of a suspended session begins.
* `Scheduler.run_wakes`: every run of a started program.
-/

namespace Teal

def suspensionsOn (t : TaskId) (log : List (TaskId × Outcome)) : List TaskId :=
  log.filterMap fun (x, o) =>
    match o with
    | .suspended on => if on = t then some x else none
    | _ => none

section Suspensions

variable {t : TaskId} {log : List (TaskId × Outcome)} {x : TaskId} {o : Outcome}

theorem suspensionsOn_suspended (t : TaskId) (log : List (TaskId × Outcome)) (x on : TaskId) :
    suspensionsOn t (log ++ [(x, .suspended on)]) =
      if on = t then suspensionsOn t log ++ [x] else suspensionsOn t log := by
  by_cases h : on = t <;> simp [suspensionsOn, h]

/-- Other outcomes suspend no one. -/
theorem suspensionsOn_of_ne (h : ∀ on, o ≠ .suspended on) :
    suspensionsOn t (log ++ [(x, o)]) = suspensionsOn t log := by
  cases o with
  | suspended on => exact absurd rfl (h on)
  | _ => simp [suspensionsOn]

end Suspensions

namespace View

/-- The waiters of a pending task are those who suspended on it according to a log, in this order;
on a task that there is not, no one suspended. -/
structure Recorded (log : List (TaskId × Outcome)) (V : View) : Prop where
  pending {t : TaskId} {waiters : List TaskId} :
    V.task t = some (.pending waiters) → waiters = suspensionsOn t log
  unknown {t : TaskId} : V.task t = none → suspensionsOn t log = []

namespace Recorded

variable {exe : Executable} {id : TaskId} {V V' : View} {log log' : List (TaskId × Outcome)}

theorem put (h : V.Recorded log) (s : Session) : (V.put id s).Recorded log :=
  ⟨h.pending, h.unknown⟩

theorem spawn (h : V.Recorded log) (sound : V.Sound) (ip : Nat) (first : Activation) :
    (V.spawn ip first).Recorded log := by
  obtain ⟨-, hfresh, -⟩ := sound.fresh
  refine ⟨fun {t waiters} ht => ?_, fun {t} ht => ?_⟩
  · rw [spawn_task] at ht
    split at ht
    · next e =>
      cases ht
      exact (h.unknown (e ▸ hfresh)).symm
    · exact h.pending ht
  · rw [spawn_task] at ht
    split at ht
    · cases ht
    · exact h.unknown ht

/-- A task that is settled has no waiters to record. -/
theorem of_settled (h : V.Recorded log) (htask : ∀ t, V'.task t = V.task t ∨
    ∃ state, V'.task t = some state ∧ state.isSettled) : V'.Recorded log := by
  refine ⟨fun {t waiters} ht => ?_, fun {t} ht => ?_⟩ <;>
    obtain hsame | ⟨state, hstate, hset⟩ := htask t
  · exact h.pending (hsame ▸ ht)
  · cases hstate.symm.trans ht
    cases hset
  · exact h.unknown (hsame ▸ ht)
  · cases hstate.symm.trans ht

theorem addSettled (h : V.Recorded log) (v : Value) : (V.addSettled v).Recorded log := by
  refine h.of_settled fun t => ?_
  rw [addSettled_task]
  split
  · exact .inr ⟨_, rfl, rfl⟩
  · exact .inl rfl

theorem step (h : V.Recorded log) (sound : V.Sound) (hstep : V.Step exe id V') :
    V'.Recorded log := by
  cases hstep with
  | goOn | resume => exact h.put _
  | spawn => exact (h.spawn sound _ _).put _
  | settle => exact (h.addSettled _).put _

theorem steps {n : Nat} {prints : List (List Value)} (h : V.Recorded log) (sound : V.Sound)
    (hrun : V.Running id) (hsteps : View.Steps exe id n prints V V') : V'.Recorded log :=
  (sound.steps_preserve hrun hsteps (fun sound _ h hstep => h.step sound hstep) h).2.2

theorem finish (h : V.Recorded log) {s : Session} {outcome : TaskState} {queue : List TaskId}
    (hset : outcome.isSettled) : (V.finish id s outcome queue).Recorded log := by
  refine h.of_settled fun t => ?_
  rw [finish_task]
  split
  · exact .inr ⟨outcome, rfl, hset⟩
  · exact .inl rfl

/-- A session that suspends joins the waiters at their end. -/
theorem suspend (h : V.Recorded log) {s : Session} {task : TaskId} {waiters queue : List TaskId}
    (ht : V.task task = some (.pending waiters)) (hnew : id ∉ V.waiters task) :
    (V.suspend id s task queue).Recorded (log ++ [(id, .suspended task)]) := by
  refine ⟨fun {t ws} hx => ?_, fun {t} hx => ?_⟩ <;> rw [suspend_task hnew] at hx <;> split at hx
  · next e =>
    cases hx
    rw [e, suspensionsOn_suspended, if_pos rfl, waiters_eq ht, h.pending ht]
  · next e => rw [suspensionsOn_suspended, if_neg (Ne.symm e), h.pending hx]
  · cases hx
  · next e => rw [suspensionsOn_suspended, if_neg (Ne.symm e), h.unknown hx]

theorem concludes {o : Outcome} (h : V.Recorded log) (sound : V.Sound) (hrun : V.Running id)
    (hc : V.Concludes exe id o V') : V'.Recorded (log ++ [(id, o)]) := by
  obtain ⟨⟨s, hs, -⟩, queue, hq⟩ := hrun
  have hmem : id ∈ V.queue := by simp [hq]
  -- outcomes that suspend no one leave the log of suspensions
  have quiet {V' : View} (ho : ∀ on, o ≠ .suspended on) (h : V'.Recorded log) :
      V'.Recorded (log ++ [(id, o)]) :=
    ⟨fun ht => (suspensionsOn_of_ne ho).symm ▸ h.pending ht,
      fun ht => (suspensionsOn_of_ne ho).symm ▸ h.unknown ht⟩
  cases hc with
  | preempted => exact quiet nofun ⟨h.pending, h.unknown⟩
  | halted => exact quiet nofun (h.finish rfl)
  | failed => exact quiet nofun (h.finish rfl)
  | suspended hq hs' hr ht => exact h.suspend ht ((sound.runnable_of_mem hmem hs).2.1 _)

end Recorded

variable {exe : Executable} {id t : TaskId} {V V' : View} {o : Outcome} {state : TaskState}

/-- The end of a quantum leaves settled tasks as they are. -/
theorem Concludes.task_of_settled (sound : V.Sound) (hrun : V.Running id)
    (hc : V.Concludes exe id o V') (ht : V.task t = some state) (hset : state.isSettled) :
    V'.task t = some state ∧ o ≠ .suspended t := by
  have own : t ≠ id := by
    rintro rfl
    obtain ⟨s, hs, -⟩ := hrun.session
    obtain ⟨waiters, hpending⟩ := (sound.fits hs).pending.mpr (hrun.isOver hs)
    rw [ht] at hpending
    cases hpending
    cases hset
  cases hc with
  | preempted => exact ⟨ht, nofun⟩
  | halted | failed => exact ⟨by rw [finish_task, if_neg own, ht], nofun⟩
  | @suspended _ _ task _ waiters _ _ _ htask =>
    have other : t ≠ task := by
      rintro rfl
      rw [ht] at htask
      cases htask
      cases hset
    refine ⟨?_, fun h => other (by cases h; rfl)⟩
    simp [View.suspend, other, ht]

/-- The end of a quantum takes its session from the head of the queue. -/
theorem Concludes.queue (hc : V.Concludes exe id o V') :
    ∃ queue, V.queue = id :: queue ∧ ∃ added, V'.queue = queue ++ added := by
  cases hc with
  | preempted hq => exact ⟨_, hq, [id], rfl⟩
  | halted hq | failed hq => exact ⟨_, hq, V.waiters id, rfl⟩
  | suspended hq => exact ⟨_, hq, [], (List.append_nil _).symm⟩

/-- A pending task that is settled at the end of a quantum is the task of its session, and those
who wait for it go to the end of the queue. -/
theorem Concludes.task_of_pending {waiters : List TaskId} (hc : V.Concludes exe id o V')
    (ht : V.task t = some (.pending waiters)) (ht' : V'.task t = some state)
    (hset : state.isSettled) :
    t = id ∧ ∃ queue, V.queue = id :: queue ∧ V'.queue = queue ++ waiters := by
  cases hc with
  | preempted =>
    rw [show V.task t = some state from ht'] at ht
    cases ht
    cases hset
  | @halted queue _ _ _ hq | @failed queue _ _ _ hq =>
    rw [finish_task] at ht'
    split at ht'
    · next e => exact ⟨e, queue, hq, by rw [finish_queue, ← e, waiters_eq ht]⟩
    · rw [ht] at ht'
      cases ht'
      cases hset
  | suspended =>
    simp only [View.suspend, Function.update_apply] at ht'
    split at ht'
    · cases ht'
      cases hset
    · rw [ht] at ht'
      cases ht'
      cases hset

end View

/-- A session that is suspended stands at an instruction to wait, with the future of its task on
top of the stack. -/
def Session.AtWait (exe : Executable) (s : Session) : Prop :=
  ∀ t, s.status = .suspended t → ∃ i rest, exe.instruction? s.ip = some i ∧ i.op = .wait ∧
    s.stack = .future t :: rest

theorem Session.AtWait.invariant (exe : Executable) :
    Session.Invariant exe (Session.AtWait exe) := by
  constructor
  case mark => exact fun _ _ => nofun
  case follows =>
    intro s t _ hrun hf task hsus
    simp [hf.status, hrun] at hsus
  case new => exact fun _ _ _ _ => nofun
  case suspend =>
    intro s task rest _ _ hr t hsus
    cases hsus
    obtain ⟨i, hi, hop⟩ := wait_of_request_await hr
    exact ⟨i, rest, hi, hop, (request_await hr).2⟩
  case halt => exact fun _ _ _ => nofun
  case fail =>
    intro s message hfailed t hsus
    simp [hfailed] at hsus

namespace Scheduler

variable {exe : Executable} {settings : MachineSettings} {entry : String} {args : List Value}
  {c d : Scheduler} {id t x : TaskId} {o : Outcome} {s : Session} {state : TaskState}

/-! ## Settled tasks -/

/-- A quantum leaves settled tasks as they are, and no one suspends on them. -/
theorem task?_of_quantum (sound : c.world.view.Sound) (hq : c.quantum = some ((id, o), d))
    (ht : c.world.task? t = some state) (hset : state.isSettled) :
    d.world.task? t = some state ∧ o ≠ .suspended t := by
  obtain ⟨V, extends_, sound', hrun, hc⟩ := quantum_extends sound hq
  have hV : V.task t = some state := (extends_.task (sound.taskBelow ht)).trans ht
  exact hc.task_of_settled sound' hrun hV hset

/-- A settled task never changes, and no one suspends on it any more. -/
theorem task?_of_run (sound : c.world.view.Sound) (ht : c.world.task? t = some state)
    (hset : state.isSettled) (n : Nat) :
    (c.run n).world.task? t = some state ∧ ∀ x, (x, .suspended t) ∉ (c.quanta n).1 := by
  induction n generalizing c with
  | zero => exact ⟨ht, nofun⟩
  | succ n ih =>
    cases hq : c.quantum with
    | none => simpa [run, quanta, hq] using ht
    | some next =>
      obtain ⟨⟨id, o⟩, d⟩ := next
      obtain ⟨ht', ho⟩ := task?_of_quantum sound hq ht hset
      obtain ⟨hrun, hlater⟩ := ih (quantum_sound sound hq) ht'
      rw [run_of_quantum hq]
      refine ⟨hrun, fun x hmem => ?_⟩
      simp only [quanta, hq, List.mem_cons, Prod.mk.injEq] at hmem
      rcases hmem with ⟨-, hsus⟩ | hmem
      · exact ho hsus.symm
      · exact hlater x hmem

/-! ## Waiters -/

/-- In a started program the waiters of a pending task are those who suspended on it, in order. -/
theorem run_recorded (h : start { executable := exe, settings } entry args = .ok (id, c))
    (n : Nat) : (c.run n).world.view.Recorded (c.quanta n).1 := by
  induction n with
  | zero =>
    obtain ⟨info, bindings, -, -, -, -, -, -, hview⟩ := start_view h
    have empty : View.Sound (World.view { topLevel := some 0 }) := by
      constructor <;> simp [World.session?, World.task?, View.waiters]
    have nothing : View.Recorded [] (World.view { topLevel := some 0 }) :=
      ⟨fun ht => (by cases ht), fun _ => rfl⟩
    simp only [run, quanta, hview]
    exact nothing.spawn empty _ _
  | succ n ih =>
    have sound := sound_of_run h n
    rw [run_add, quanta_add]
    cases hq : (c.run n).quantum with
    | none => simpa [run, quanta, hq] using ih
    | some next =>
      obtain ⟨⟨x, o⟩, d⟩ := next
      obtain ⟨s, k, V, hs, hsteps, hc, -, sound', hrun'⟩ := quantum_sound_spec sound hq
      obtain ⟨queue, hqueue, -⟩ := quantum_eq_some hq
      obtain ⟨marked, hrun⟩ := sound_running sound hqueue (sound.fits hs).own
      simp only [run, quanta, hq]
      exact ((ih.put _).steps marked hrun hsteps).concludes sound' hrun' hc

/-- A session that is suspended on a task waits for it once, or the task is settled. -/
theorem suspended_cases {V : View} (sound : V.Sound) (hs : V.session x = some s)
    (hsus : s.status = .suspended t) :
    (∃ state, V.task t = some state ∧ state.isSettled) ∨
      ∃ waiters, V.task t = some (.pending waiters) ∧ x ∉ V.queue ∧ waiters.count x = 1 := by
  have hover : s.isOver = false := Session.isOver_eq_false_iff.mpr (.inr ⟨t, hsus⟩)
  rcases (sound.fits hs).placed hover with ⟨-, -, hrun⟩ | ⟨hq, t', ws, hsus', ht, hcount, -⟩
  · rcases hrun with hrun | ⟨t', state, hsus', ht, hset⟩
    · simp [hrun] at hsus
    · obtain rfl : t' = t := by simpa [hsus] using hsus'.symm
      exact .inl ⟨state, ht, hset⟩
  · obtain rfl : t' = t := by simpa [hsus] using hsus'.symm
    exact .inr ⟨ws, ht, hq, hcount⟩

/-- Those who wait for a pending task are the sessions that are suspended on it, each of them
once. -/
theorem mem_waiters_iff {V : View} (sound : V.Sound) {waiters : List TaskId}
    (ht : V.task t = some (.pending waiters)) (y : TaskId) :
    y ∈ waiters ↔ ∃ s, V.session y = some s ∧ s.status = .suspended t := by
  constructor
  · intro hy
    rw [← View.waiters_eq ht] at hy
    obtain ⟨s, hs, -⟩ := sound.waiting hy
    exact ⟨s, hs, (sound.waits_of_mem hy hs).2⟩
  · rintro ⟨s, hs, hsus⟩
    rcases suspended_cases sound hs hsus with ⟨state, ht', hset⟩ | ⟨ws, ht', -, hcount⟩
    · rw [ht] at ht'
      cases ht'
      cases hset
    · obtain rfl : ws = waiters := by simpa [ht] using ht'.symm
      exact List.count_pos_iff.mp (by omega)

/-- No one waits twice for a task. -/
theorem nodup_waiters {V : View} (sound : V.Sound) {waiters : List TaskId}
    (ht : V.task t = some (.pending waiters)) : waiters.Nodup := by
  refine List.nodup_iff_count_le_one.mpr fun y => ?_
  by_cases hy : y ∈ waiters
  · obtain ⟨s, hs, hsus⟩ := (mem_waiters_iff sound ht y).mp hy
    rcases suspended_cases sound hs hsus with ⟨state, ht', hset⟩ | ⟨ws, ht', -, hcount⟩
    · rw [ht] at ht'
      cases ht'
      cases hset
    · obtain rfl : ws = waiters := by simpa [ht] using ht'.symm
      omega
  · simp [List.count_eq_zero.mpr hy]

/-- The quantum that settles a pending task is that of its session. Behind the sessions that it
started, it puts those into the queue that wait for the task, and these are suspended still. -/
theorem quantum_settles (sound : c.world.view.Sound) (hq : c.quantum = some ((x, o), d))
    {waiters : List TaskId} (ht : c.world.task? t = some (.pending waiters))
    (ht' : d.world.task? t = some state) (hset : state.isSettled) :
    x = t ∧ (∃ rest added, c.world.queue = t :: rest ∧
      d.world.queue = rest ++ added ++ waiters ∧ ∀ y ∈ added, c.world.nextId ≤ y) ∧
      ∀ y, y ∈ waiters ↔ ∃ s, d.world.session? y = some s ∧ s.status = .suspended t := by
  obtain ⟨V, extends_, sound', hrun, hc⟩ := quantum_extends sound hq
  have hV : V.task t = some (.pending waiters) := (extends_.task (sound.taskBelow ht)).trans ht
  obtain ⟨rfl, queue, hqueue, hqueue'⟩ := hc.task_of_pending hV ht' hset
  obtain ⟨rest, hrest, -⟩ := quantum_eq_some hq
  obtain ⟨added, hadded, hnew⟩ := extends_.queue
  refine ⟨rfl, ⟨rest, added, hrest, ?_, hnew⟩, fun y => (mem_waiters_iff sound' hV y).trans ?_⟩
  · have : rest ++ added = queue := by
      have : t :: (rest ++ added) = t :: queue := by
        rw [← hqueue, hadded, World.view_queue, hrest, List.cons_append]
      exact (List.cons.inj this).2
    rw [this]
    exact hqueue'
  · -- of the sessions only that of the task changes, and it is over
    by_cases hy : y = t
    · subst hy
      constructor
      · rintro ⟨s, hs, hsus⟩
        obtain ⟨s', hs', hrunning⟩ := hrun.session
        obtain rfl : s = s' := by simpa [hs] using hs'
        simp [hrunning] at hsus
      · rintro ⟨s, hs, hsus⟩
        have hover : s.isOver = false := Session.isOver_eq_false_iff.mpr (.inr ⟨y, hsus⟩)
        obtain ⟨ws, hws⟩ := ((quantum_sound sound hq).fits hs).pending.mpr hover
        rw [show d.world.view.task y = some state from ht'] at hws
        cases hws
        cases hset
    · rw [show d.world.session? y = V.session y from hc.session.2 y hy]

/-- No one is suspended on a task that is settled from the start. -/
theorem quantum_adds_settled (sound : c.world.view.Sound) (hq : c.quantum = some ((x, o), d))
    (ht : c.world.task? t = none) (ht' : d.world.task? t = some state) (hset : state.isSettled)
    (hs : d.world.session? id = some s) : s.status ≠ .suspended t := by
  obtain ⟨V, extends_, sound', hrun, hc⟩ := quantum_extends sound hq
  intro hsus
  by_cases hid : id = x
  · subst hid
    generalize hV' : d.world.view = V' at hc
    have hs : V'.session id = some s := hV' ▸ hs
    have ht' : V'.task t = some state := hV' ▸ ht'
    obtain ⟨s', hs', hrunning⟩ := hrun.session
    cases hc with
    | preempted =>
      obtain rfl : s' = s := by simpa [hs'] using hs
      simp [hrunning] at hsus
    | halted | failed =>
      rw [View.finish_session, if_pos rfl] at hs
      cases hs
      cases hsus
    | suspended =>
      rw [View.suspend_session, if_pos rfl] at hs
      cases hs
      cases hsus
      simp [View.suspend] at ht'
      subst ht'
      cases hset
  · have hs' : V.session id = some s := (hc.session.2 id hid).symm.trans hs
    cases hold : c.world.session? id with
    | none => 
      obtain ⟨hrunning, -⟩ := extends_.new hid hold hs'
      simp [hrunning] at hsus
    | some s₀ =>
      obtain rfl : s₀ = s := by
        have := extends_.session hid (sound.fits hold).below
        simpa [hs', hold] using this.symm
      rcases suspended_cases sound hold hsus with ⟨state', hw, -⟩ | ⟨ws, hw, -⟩
      · simp [ht] at hw
      · simp [ht] at hw

/-! ## Sessions that wait -/

/-- A quantum takes the first session from the queue and adds others at its end. -/
theorem quantum_queue (sound : c.world.view.Sound) (hq : c.quantum = some ((x, o), d)) :
    ∃ rest, c.world.queue = x :: rest ∧ ∃ added, d.world.queue = rest ++ added := by
  obtain ⟨V, extends_, -, -, hc⟩ := quantum_extends sound hq
  obtain ⟨rest, hrest, -⟩ := quantum_eq_some hq
  obtain ⟨added, hadded, -⟩ := extends_.queue
  obtain ⟨queue, hqueue, more, hmore⟩ := hc.queue
  rw [hqueue, World.view_queue, hrest, List.cons_append, List.cons.injEq] at hadded
  refine ⟨rest, hrest, added ++ more, ?_⟩
  rw [← List.append_assoc, ← hadded.2]
  exact hmore

/-- A session stays as it is until its next quantum. -/
theorem session?_of_quanta (sound : c.world.view.Sound) (hs : c.world.session? x = some s)
    {n : Nat} (hidle : ∀ o, (x, o) ∉ (c.quanta n).1) : (c.run n).world.session? x = some s := by
  induction n generalizing c with
  | zero => exact hs
  | succ n ih =>
    cases hq : c.quantum with
    | none => simpa [run, hq] using hs
    | some next =>
      obtain ⟨⟨id, o⟩, d⟩ := next
      simp only [quanta, hq, List.mem_cons, not_or, Prod.mk.injEq, not_and] at hidle
      have hx : x ≠ id := fun h => (hidle o).1 h rfl
      rw [run_of_quantum hq]
      refine ih (quantum_sound sound hq) ?_ fun o => (hidle o).2
      rw [session?_of_quantum sound hq hx (sound.fits hs).below, hs]

/-- Sessions have their turns in the order of the queue. -/
theorem quanta_queue (sound : c.world.view.Sound) {first rest : List TaskId}
    (h : c.world.queue = first ++ rest) :
    (c.quanta first.length).1.map Prod.fst = first ∧
      ∃ added, (c.run first.length).world.queue = rest ++ added := by
  induction first generalizing c rest with
  | nil => exact ⟨rfl, [], by simpa [run] using h⟩
  | cons x first ih =>
    obtain ⟨⟨⟨y, o⟩, d⟩, hq⟩ : ∃ next, c.quantum = some next := by simp [quantum, h]
    obtain ⟨queue, hqueue, added, hqueue'⟩ := quantum_queue sound hq
    rw [h, List.cons_append, List.cons.injEq] at hqueue
    obtain ⟨rfl, rfl⟩ := hqueue
    rw [List.append_assoc] at hqueue'
    obtain ⟨hfirst, added', hrest⟩ := ih (quantum_sound sound hq) hqueue'
    rw [List.length_cons, run_of_quantum hq]
    refine ⟨by simp [quanta, hq, hfirst], added ++ added', ?_⟩
    rw [hrest, List.append_assoc]

/-- A session in the queue has a next quantum. -/
theorem exists_quantum_of_mem (sound : c.world.view.Sound) (hx : x ∈ c.world.queue) :
    ∃ m o d, (∀ o, (x, o) ∉ (c.quanta m).1) ∧ (c.run m).quantum = some ((x, o), d) := by
  obtain ⟨first, rest, hqueue, hnew⟩ := List.eq_append_cons_of_mem hx
  obtain ⟨hfirst, added, hqueue'⟩ := quanta_queue sound hqueue
  refine ⟨first.length, ?_⟩
  obtain ⟨⟨⟨y, o⟩, d⟩, hq⟩ : ∃ next, (c.run first.length).quantum = some next := by
    simp [quantum, hqueue']
  obtain ⟨queue, hy, -⟩ := quantum_eq_some hq
  obtain rfl : x = y := by
    rw [hqueue', List.cons_append] at hy
    exact (List.cons.inj hy).1
  refine ⟨o, d, fun o hmem => hnew ?_, hq⟩
  rw [← hfirst]
  exact List.mem_map.mpr ⟨(x, o), hmem, rfl⟩

/-- The next quantum begins with a session at its instruction to wait for a settled task, and its
first step completes the wait: with the value of the task, or by failing as the task did. -/
def CompletesWait (c : Scheduler) (o : Outcome) (s : Session) (t : TaskId) (state : TaskState) :
    Prop :=
  ∃ w i rest, c.turn? = some (w, { s with status := .running }) ∧
    c.executable.instruction? s.ip = some i ∧ i.op = .wait ∧ s.stack = .future t :: rest ∧
    let s : Session := { s with status := .running }
    match state with
    | .resolved v => step c.executable w s = .goOn w (s.advance.withStack (v :: rest))
    | .failed message =>
      step c.executable w s = .fail w (s.withStack rest) (.taskFailed t message) ∧
        o = .failed (.taskFailed t message)
    | .pending _ => False

theorem quantum_completes (uniform : c.Uniform (Session.AtWait c.executable))
    (hq : c.quantum = some ((x, o), d)) (hs : c.world.session? x = some s)
    (hsus : s.status = .suspended t) (ht : c.world.task? t = some state) (hset : state.isSettled) :
    c.CompletesWait o s t state := by
  have hover : s.isOver = false := Session.isOver_eq_false_iff.mpr (.inr ⟨t, hsus⟩)
  obtain ⟨w, w', s', hturn, hslice, -⟩ := quantum_turn hq hs hover
  obtain ⟨i, rest, hi, hop, hstack⟩ := uniform.all hs t hsus
  refine ⟨w, i, rest, hturn, hi, hop, hstack, ?_⟩
  have hw : w.task? t = c.world.task? t := by
    simp only [turn?] at hturn
    split at hturn
    · cases hturn
    · obtain ⟨_, -, hw⟩ := Option.map_eq_some_iff.mp hturn
      rw [← (Prod.mk.inj hw).1]
      rfl
  have hr : request c.executable { s with status := .running } =
      .await { s with status := .running } t rest := request_of_wait hi hop hstack
  have hstep : step c.executable w { s with status := .running } =
      await w { s with status := .running } (.future t) rest := by
    rw [step_eq_perform, hr]
    rfl
  cases state with
  | pending waiters => cases hset
  | resolved v => simp [hstep, await, hw, ht]
  | failed message =>
    have hfail : step c.executable w { s with status := .running } =
        .fail w (Session.withStack { s with status := .running } rest) (.taskFailed t message) := by
      simp [hstep, await, hw, ht]
    refine ⟨hfail, ?_⟩
    have hbudget : max c.settings.stepLimit 1 = (max c.settings.stepLimit 1 - 1) + 1 := by omega
    rw [hbudget] at hslice
    simp only [slice, hfail, Turn.fail, Prod.mk.injEq] at hslice
    exact hslice.2.2.symm

/-- A quantum settles a task, and with it adds those to the queue who are suspended on the task,
each of them once. The others that it adds do not wait for the task; if the task was pending, it
is that of the session that had its turn, and only new sessions are added besides. -/
structure Wakes (c : Scheduler) (x t : TaskId) (woken : List TaskId) (d : Scheduler) : Prop where
  nodup : woken.Nodup
  mem_iff (y : TaskId) :
    y ∈ woken ↔ ∃ s, d.world.session? y = some s ∧ s.status = .suspended t
  queue : ∃ rest added, c.world.queue = x :: rest ∧ d.world.queue = rest ++ added ++ woken ∧
    (∀ y ∈ added, y ∉ woken) ∧
    (c.world.task? t ≠ none → x = t ∧ ∀ y ∈ added, c.world.nextId ≤ y)

theorem quantum_wakes {log : List (TaskId × Outcome)} (sound : c.world.view.Sound)
    (recorded : c.world.view.Recorded log) (hq : c.quantum = some ((x, o), d))
    (hopen : ∀ old, c.world.task? t = some old → old.isSettled = false)
    (ht' : d.world.task? t = some state) (hset : state.isSettled) :
    c.Wakes x t (suspensionsOn t log) d := by
  rcases ht : c.world.task? t with _ | waiters | v | message
  · -- the task was made in this quantum, so no one can wait for it
    have hnone : suspensionsOn t log = [] := recorded.unknown ht
    obtain ⟨rest, hrest, added, hadded⟩ := quantum_queue sound hq
    refine ⟨by simp [hnone], fun y => ?_, rest, added, hrest, by simpa [hnone] using hadded,
      by simp [hnone], fun h => absurd ht h⟩
    simp only [hnone, List.not_mem_nil, false_iff]
    rintro ⟨s, hs, hsus⟩
    exact quantum_adds_settled sound hq ht ht' hset hs hsus
  · obtain rfl : waiters = suspensionsOn t log := recorded.pending ht
    obtain ⟨hx, ⟨rest, added, hrest, hadded, hnew⟩, hmem⟩ := quantum_settles sound hq ht ht' hset
    refine ⟨nodup_waiters sound ht, hmem, rest, added, hx ▸ hrest, hadded, fun y hy hwait => ?_,
      fun _ => ⟨hx, hnew⟩⟩
    obtain ⟨s, hs, -⟩ := (mem_waiters_iff sound ht y).mp hwait
    exact absurd (sound.fits hs).below (Nat.not_lt.mpr (hnew y hy))
  · exact nomatch hopen _ ht
  · exact nomatch hopen _ ht

/-- In every run of a started program a task is settled once: it never changes afterwards, and no
one suspends on it. The quantum that settles it wakes those who are suspended on it, in the order
in which they suspended. The next quantum of each of them completes its wait with the result of
the task. -/
theorem run_wakes (h : start { executable := exe, settings } entry args = .ok (id, c)) (n : Nat) :
    (∀ t state, (c.run n).world.task? t = some state → state.isSettled → ∀ m,
      (c.run (n + m)).world.task? t = some state ∧
        ∀ x, (x, .suspended t) ∉ ((c.run n).quanta m).1) ∧
    ∀ x o d t state, (c.run n).quantum = some ((x, o), d) →
      (∀ old, (c.run n).world.task? t = some old → old.isSettled = false) →
      d.world.task? t = some state → state.isSettled →
      (c.run n).Wakes x t (suspensionsOn t (c.quanta n).1) d ∧
      ∀ y s, d.world.session? y = some s → s.status = .suspended t →
        ∃ m o e, (∀ o, (y, o) ∉ (d.quanta m).1) ∧ (d.run m).quantum = some ((y, o), e) ∧
          (d.run m).CompletesWait o s t state := by
  have sound := sound_of_run h n
  refine ⟨fun t state ht hset m => ?_, fun x o d t state hq hopen ht' hset => ?_⟩
  · rw [run_add]
    exact task?_of_run sound ht hset m
  have wakes := quantum_wakes sound (run_recorded h n) hq hopen ht' hset
  refine ⟨wakes, fun y s hs hsus => ?_⟩
  have sound' := quantum_sound sound hq
  have hy : y ∈ d.world.queue := by
    obtain ⟨rest, added, -, hqueue, -⟩ := wakes.queue
    rw [hqueue]
    exact List.mem_append_right _ ((wakes.mem_iff y).mpr ⟨s, hs, hsus⟩)
  obtain ⟨m, o', e, hidle, hq'⟩ := exists_quantum_of_mem sound' hy
  have hrun : (c.run (n + 1 + m)) = d.run m := by
    rw [run_add, run_add]
    simp [run, hq]
  obtain ⟨hexe, uniform⟩ := run_all (Session.AtWait.invariant exe) h
    (fun _ _ _ _ hsus => by cases hsus) (n + 1 + m)
  rw [hrun] at hexe uniform
  exact ⟨m, o', e, hidle, hq', quantum_completes (hexe ▸ uniform) hq'
    (session?_of_quanta sound' hs hidle) hsus (task?_of_run sound' ht' hset m).1 hset⟩

/-- The second quantum of `awaitOnce` gives the result of its task to the session that waits. -/
theorem run_wakes_awaitOnce : ∃ c d s,
    start { executable := awaitOnce, settings := {} } "main" [] = .ok (0, c) ∧
    (c.run 1).quantum = some ((1, .halted (.integer 7)), d) ∧ (c.run 1).Wakes 1 1 [0] d ∧
    d.world.session? 0 = some s ∧
    ∃ m o e, (∀ o, (0, o) ∉ (d.quanta m).1) ∧ (d.run m).quantum = some ((0, o), e) ∧
      (d.run m).CompletesWait o s 1 (.resolved (.integer 7)) := by
  obtain ⟨c, h, ht, hlog, d, hq, s, hs, hsus, ht'⟩ : ∃ c,
      start { executable := awaitOnce, settings := {} } "main" [] = .ok (0, c) ∧
      (c.run 1).world.task? 1 = some (.pending [0]) ∧ suspensionsOn 1 (c.quanta 1).1 = [0] ∧
      ∃ d, (c.run 1).quantum = some ((1, .halted (.integer 7)), d) ∧
      ∃ s, d.world.session? 0 = some s ∧ s.status = .suspended 1 ∧
        d.world.task? 1 = some (.resolved (.integer 7)) :=
    ⟨_, rfl, rfl, rfl, _, rfl, _, rfl, rfl, rfl⟩
  obtain ⟨wakes, completes⟩ := (run_wakes h 1).2 1 _ d 1 _ hq
    (fun old hold => by cases ht.symm.trans hold; rfl) ht' rfl
  exact ⟨c, d, s, h, hq, hlog ▸ wakes, hs, completes 0 s hs hsus⟩

end Scheduler

end Teal
