import Teal.Proofs.Wakeups

/-!
# Sessions are isolated

A quantum concerns its own session, the tasks that it makes and, if it suspends, the waiters of one
task. Whatever it makes has the next free ids, and no session that it makes has run. When the
session fails, its failure is its own: those who waited for it can run, and nothing else has failed.

## Main definitions

* `Session.Unstarted`: a session that has not run yet.
* `View.Creates`: what steps of a session make.
* `View.Isolates`: what a quantum does to a world, and what it leaves alone.
* `View.FailsAlone`: what a quantum does in which its session fails.

## Main statements

* `View.Creates.steps`: any number of steps.
* `Scheduler.run_isolates`: every quantum of every run of a started program.
-/

namespace Teal

/-- A session begins with one activation, which has no caller. -/
theorem returnIp_of_request_spawn {exe : Executable} {s t : Session} {ip : Nat} {first : Activation}
    (h : request exe s = .spawn t ip first) : first.returnIp = none := by
  rcases request_rule exe s with ⟨i, -, -, rule⟩ | hr
  · rw [h] at rule
    generalize i.op = op at rule
    cases rule
    rfl
  · rw [h] at hr
    cases hr

/-- A session that has not run yet: it can run, its stack is empty, it has printed nothing, and its
only activation has no caller. -/
def Session.Unstarted (id : TaskId) (s : Session) : Prop :=
  ∃ ip first, s = { id, ip, activations := [first] } ∧ first.returnIp = none

theorem Session.Unstarted.status {id : TaskId} {s : Session} (h : s.Unstarted id) :
    s.status = .running := by
  obtain ⟨ip, first, rfl, -⟩ := h
  rfl

namespace View

variable {exe : Executable} {id x t : TaskId} {V V' V'' : View} {o : Outcome}

/-- A task that is new: its session has not run yet, or it has its result and no session. -/
def Made (V : View) (x : TaskId) : Prop :=
  (V.task x = some (.pending []) ∧ ∃ s, V.session x = some s ∧ s.Unstarted x) ∨
    ∃ v, V.task x = some (.resolved v) ∧ V.session x = none

/-- What steps of a session make: tasks that are new, one for each id that they use up. -/
structure Creates (V V' : View) : Prop where
  topLevel : V'.topLevel = V.topLevel
  made {x : TaskId} : V.nextId ≤ x → x < V'.nextId → V'.Made x

namespace Creates

theorem put (s : Session) : Creates V (V.put id s) :=
  ⟨rfl, fun hle hlt => absurd hlt (Nat.not_lt.mpr hle)⟩

/-- What was made stays new while another session makes steps. -/
theorem trans (h : Creates V V') (h' : Creates V' V'') (own : id < V.nextId)
    (extends_ : Extends id V' V'') : Creates V V'' := by
  refine ⟨h'.topLevel.trans h.topLevel, fun {x} hle hlt => ?_⟩
  by_cases hx : x < V'.nextId
  · have hne : x ≠ id := Nat.ne_of_gt (Nat.lt_of_lt_of_le own hle)
    have made := h.made hle hx
    unfold Made at made ⊢
    rwa [extends_.session hne hx, extends_.task hx]
  · exact h'.made (Nat.not_lt.mp hx) hlt

theorem step (sound : V.Sound) (hrun : V.Running id) (hstep : V.Step exe id V') :
    Creates V V' := by
  obtain ⟨s, hs, -⟩ := hrun.session
  have own : id < V.nextId := (sound.fits hs).below
  -- the only id that a step can use up is the next one, and it is not that of the session
  have only {n x : Nat} (hle : n ≤ x) (hlt : x < n + 1) : x = n :=
    Nat.le_antisymm (Nat.le_of_lt_succ hlt) hle
  have other : V.nextId ≠ id := Nat.ne_of_gt own
  cases hstep with
  | goOn | resume => exact put _
  | @spawn _ _ ip first _ hr =>
    refine ⟨rfl, fun hle hlt => ?_⟩
    obtain rfl := only hle hlt
    refine .inl ⟨by simp, { id := V.nextId, ip, activations := [first] }, by simp [other], ?_⟩
    exact ⟨ip, first, rfl, returnIp_of_request_spawn hr⟩
  | @settle _ _ v =>
    refine ⟨rfl, fun hle hlt => ?_⟩
    obtain rfl := only hle hlt
    exact .inr ⟨v, by simp, by simp [other, sound.fresh.1]⟩

theorem steps {n : Nat} {prints : List (List Value)} (sound : V.Sound) (hrun : V.Running id)
    (hsteps : View.Steps exe id n prints V V') : Creates V V' := by
  induction hsteps with
  | refl V => exact ⟨rfl, fun hle hlt => absurd hlt (Nat.not_lt.mpr hle)⟩
  | head hs hstep hsteps ih =>
    obtain ⟨sound', hrun'⟩ := sound.step hrun hstep
    exact (step sound hrun hstep).trans (ih sound' hrun') (sound.fits hs).below (.steps hsteps)

end Creates

/-! ## The end of a quantum -/

/-- The end of a quantum changes the task of its session and that on which it suspends, and no
other. -/
theorem Concludes.task (hc : V.Concludes exe id o V') (hx : x ≠ id) (ho : o ≠ .suspended x) :
    V'.task x = V.task x := by
  cases hc with
  | preempted => rfl
  | halted | failed => rw [finish_task, if_neg hx]
  | suspended =>
    have other : x ≠ _ := fun e => ho (by rw [e])
    simp [View.suspend, other]

theorem Concludes.topLevel (hc : V.Concludes exe id o V') : V'.topLevel = V.topLevel := by
  cases hc <;> rfl

/-- A session that suspends becomes the last of those who wait for a pending task. -/
theorem Concludes.suspended_task (sound : V.Sound) (hrun : V.Running id)
    (hc : V.Concludes exe id (.suspended t) V') :
    V.task t = some (.pending (V.waiters t)) ∧ id ∉ V.waiters t ∧
      V'.task t = some (.pending (V.waiters t ++ [id])) := by
  obtain ⟨s, hs, -⟩ := hrun.session
  obtain ⟨queue, hqueue⟩ := hrun.queue
  cases hc with
  | suspended _ _ _ ht =>
    have hnew : id ∉ V.waiters t := (sound.runnable_of_mem (by simp [hqueue]) hs).2.1 t
    exact ⟨by rw [waiters_eq ht, ht], hnew, by rw [suspend_task hnew, if_pos rfl]⟩

theorem Concludes.failed_task {e : MachineError} (hc : V.Concludes exe id (.failed e) V') :
    (∃ s, V'.session id = some s ∧ s.status = .failed e.message) ∧
      V'.task id = some (.failed e.message) := by
  cases hc with
  | failed => exact ⟨⟨_, by rw [finish_session, if_pos rfl], rfl⟩, by simp⟩

/-- Ids that are not used up have neither a session nor a task. -/
theorem Sound.absent (sound : V.Sound) (hx : V.nextId ≤ x) :
    V.session x = none ∧ V.task x = none := by
  constructor
  · refine Option.eq_none_iff_forall_ne_some.mpr fun s hs => ?_
    exact Nat.not_lt.mpr hx (sound.fits hs).below
  · refine Option.eq_none_iff_forall_ne_some.mpr fun state ht => ?_
    exact Nat.not_lt.mpr hx (sound.taskBelow ht)

/-! ## What a quantum leaves alone -/

/-- What a quantum of the session `id` with the outcome `o` does to a world. -/
structure Isolates (id : TaskId) (o : Outcome) (V V' : View) : Prop where
  /-- Other sessions that there were are the same, and there are no others with ids in use. -/
  session {x : TaskId} : x ≠ id → x < V.nextId → V'.session x = V.session x
  /-- Other tasks that there were are the same, apart from the one suspended on. -/
  task {x : TaskId} : x ≠ id → x < V.nextId → o ≠ .suspended x → V'.task x = V.task x
  /-- Who suspends becomes the last waiter of a task that was pending or is made in the quantum. -/
  suspended {t : TaskId} : o = .suspended t →
    (V.task t = some (.pending (V.waiters t)) ∨ V.nextId ≤ t ∧ V.waiters t = []) ∧
      id ∉ V.waiters t ∧ V'.task t = some (.pending (V.waiters t ++ [id]))
  nextId : V.nextId ≤ V'.nextId
  /-- Every id that is used up is that of a task with an unstarted session, for which no one waits
  but a session that suspends on it, or of a task that has its result and no session. -/
  created {x : TaskId} : V.nextId ≤ x → x < V'.nextId →
    ((∃ waiters, V'.task x = some (.pending waiters) ∧ (o ≠ .suspended x → waiters = [])) ∧
      ∃ s, V'.session x = some s ∧ s.Unstarted x) ∨
    ∃ v, V'.task x = some (.resolved v) ∧ V'.session x = none
  absent {x : TaskId} : V'.nextId ≤ x → V'.session x = none ∧ V'.task x = none
  topLevel : V'.topLevel = V.topLevel

/-- What a quantum does in which the session `id` fails: with it and its task nothing else fails,
and who waited for it is the same and can run. -/
structure FailsAlone (id : TaskId) (e : MachineError) (V V' : View) : Prop where
  session : ∃ s, V'.session id = some s ∧ s.status = .failed e.message
  task : V'.task id = some (.failed e.message)
  otherSession {x : TaskId} {s : Session} {message : String} : x ≠ id → V'.session x = some s →
    s.status = .failed message → V.session x = some s
  otherTask {x : TaskId} {message : String} : x ≠ id → V'.task x = some (.failed message) →
    V.task x = some (.failed message)
  woken {y : TaskId} : y ∈ V.waiters id →
    ∃ s, V.session y = some s ∧ V'.session y = some s ∧ V'.Runnable y s

namespace Isolates

/-- An id was in use, is used up in the quantum, or is not used up. -/
theorem id_cases (V V' : View) (x : TaskId) :
    x < V.nextId ∨ (V.nextId ≤ x ∧ x < V'.nextId) ∨ V'.nextId ≤ x := by
  rcases Nat.lt_or_ge x V.nextId with hlt | hle
  · exact .inl hlt
  · exact .inr ((Nat.lt_or_ge x V'.nextId).imp_left fun hlt => ⟨hle, hlt⟩)

/-- What fails in a quantum is its own session. -/
theorem session_of_failed {s : Session} {message : String} (h : Isolates id o V V') (hx : x ≠ id)
    (hs : V'.session x = some s) (hfailed : s.status = .failed message) : V.session x = some s := by
  rcases id_cases V V' x with hlt | ⟨hle, hlt⟩ | hle
  · rw [← h.session hx hlt, hs]
  · rcases h.created hle hlt with ⟨-, s', hs', hnew⟩ | ⟨v, -, hnone⟩
    · obtain rfl : s' = s := by simpa [hs'] using hs
      simp [hnew.status] at hfailed
    · simp [hnone] at hs
  · simp [(h.absent hle).1] at hs

theorem task_of_failed {message : String} (h : Isolates id o V V') (hx : x ≠ id)
    (ht : V'.task x = some (.failed message)) : V.task x = some (.failed message) := by
  rcases id_cases V V' x with hlt | ⟨hle, hlt⟩ | hle
  · by_cases ho : o = .suspended x
    · simp [(h.suspended ho).2.2] at ht
    · rw [← h.task hx hlt ho, ht]
  · rcases h.created hle hlt with ⟨⟨waiters, ht', -⟩, -⟩ | ⟨v, ht', -⟩ <;> simp [ht'] at ht
  · simp [(h.absent hle).2] at ht

end Isolates

end View

namespace Scheduler

variable {exe : Executable} {settings : MachineSettings} {entry : String} {args : List Value}
  {c d : Scheduler} {id y : TaskId} {o : Outcome}

/-- A quantum of a sound world leaves alone what is not its own. -/
theorem quantum_isolates (sound : c.world.view.Sound) (hq : c.quantum = some ((id, o), d)) :
    View.Isolates id o c.world.view d.world.view := by
  obtain ⟨s, n, V, hs, hsteps, hc, -, sound', hrun'⟩ := quantum_sound_spec sound hq
  obtain ⟨queue, hqueue, -⟩ := quantum_eq_some hq
  obtain ⟨marked, hrun⟩ := sound_running sound hqueue (sound.fits hs).own
  have own : id < c.world.view.nextId := (sound.fits hs).below
  have extends_ : View.Extends id c.world.view V := (View.Extends.put _).trans (.steps hsteps)
  have creates : View.Creates c.world.view V :=
    (View.Creates.put _).trans (.steps marked hrun hsteps) own (.steps hsteps)
  obtain ⟨hnext, hsession⟩ := hc.session
  constructor
  case session => exact fun hx hlt => (hsession _ hx).trans (extends_.session hx hlt)
  case task => exact fun hx hlt ho => (hc.task hx ho).trans (extends_.task hlt)
  case suspended =>
    rintro t rfl
    obtain ⟨ht, hnew, ht'⟩ := hc.suspended_task sound' hrun'
    rcases Nat.lt_or_ge t c.world.view.nextId with hlt | hle
    · have hwaiters : V.waiters t = c.world.view.waiters t := by
        simp only [View.waiters, extends_.task hlt]
      rw [extends_.task hlt] at ht
      rw [hwaiters] at ht hnew ht'
      exact ⟨.inl ht, hnew, ht'⟩
    · -- the task was made in this quantum, so no one waited for it
      have hnone : c.world.view.waiters t = [] := View.waiters_of_none (sound.absent hle).2
      have hwaiters : V.waiters t = [] := by
        rcases creates.made hle (sound'.taskBelow ht) with ⟨hmade, -⟩ | ⟨v, hmade, -⟩
        · exact View.waiters_eq hmade
        · simp [hmade] at ht
      rw [hwaiters] at hnew ht'
      rw [hnone]
      exact ⟨.inr ⟨hle, rfl⟩, hnew, ht'⟩
  case nextId => exact hnext ▸ extends_.nextId
  case created =>
    intro x hle hlt
    have hx : x ≠ id := Nat.ne_of_gt (Nat.lt_of_lt_of_le own hle)
    rw [hsession x hx]
    rcases creates.made hle (hnext ▸ hlt) with ⟨ht, hnew⟩ | ⟨v, ht, hnone⟩
    · refine .inl ⟨?_, hnew⟩
      by_cases ho : o = .suspended x
      · subst ho
        exact ⟨_, (hc.suspended_task sound' hrun').2.2, fun h => absurd rfl h⟩
      · exact ⟨[], (hc.task hx ho).trans ht, fun _ => rfl⟩
    · exact .inr ⟨v, (hc.task_of_settled sound' hrun' ht rfl).1, hnone⟩
  case absent => exact (quantum_sound sound hq).absent
  case topLevel => exact hc.topLevel.trans creates.topLevel

/-- A session that waits for another is the same when that has failed, and can run. -/
theorem runnable_of_failed {e : MachineError} (sound : c.world.view.Sound)
    (hq : c.quantum = some ((id, .failed e), d)) (hy : y ∈ c.world.view.waiters id) :
    ∃ s, c.world.view.session y = some s ∧ d.world.view.session y = some s ∧
      d.world.view.Runnable y s := by
  obtain ⟨V, -, -, -, hc⟩ := quantum_extends sound hq
  obtain ⟨-, ⟨rest, added, -, hqueue, -⟩, -⟩ :=
    quantum_settles sound hq (View.pending_of_mem_waiters hy) hc.failed_task.2 rfl
  obtain ⟨s, hs, hover⟩ := sound.waiting hy
  have hne : y ≠ id := by
    rintro rfl
    obtain ⟨s', hs', -, -, hmem⟩ := quantum_runs sound hq
    exact (sound.runnable_of_mem hmem hs').2.1 y hy
  have hs' : d.world.view.session y = some s :=
    (session?_of_quantum sound hq hne (sound.fits hs).below).trans hs
  refine ⟨s, hs, hs', (quantum_sound sound hq).runnable_of_mem ?_ hs'⟩
  rw [World.view_queue, hqueue]
  exact List.mem_append_right _ hy

theorem quantum_failsAlone {e : MachineError} (sound : c.world.view.Sound)
    (hq : c.quantum = some ((id, .failed e), d)) :
    View.FailsAlone id e c.world.view d.world.view := by
  obtain ⟨V, -, -, -, hc⟩ := quantum_extends sound hq
  have isolates := quantum_isolates sound hq
  exact ⟨hc.failed_task.1, hc.failed_task.2, isolates.session_of_failed, isolates.task_of_failed,
    runnable_of_failed sound hq⟩

/-- In every run of a started program a quantum leaves alone what is not its own, and a session
that fails in it fails alone. -/
theorem run_isolates {first : TaskId}
    (h : start { executable := exe, settings } entry args = .ok (first, c)) (n : Nat)
    (hq : (c.run n).quantum = some ((id, o), d)) :
    View.Isolates id o (c.run n).world.view d.world.view ∧
      ∀ e, o = .failed e → View.FailsAlone id e (c.run n).world.view d.world.view := by
  have sound := sound_of_run h n
  refine ⟨quantum_isolates sound hq, ?_⟩
  rintro e rfl
  exact quantum_failsAlone sound hq

/-- A program that waits for a task that fails. -/
def awaitFailing : Executable where
  functions := [("main", { location := 0, params := [] }), ("fail", { location := 4, params := [] })]
  code := [⟨.pushBinding "fail", []⟩, ⟨.asyncCall 0 [], []⟩, ⟨.wait, []⟩, ⟨.ret, []⟩, ⟨.pop, []⟩]

/-- In the second quantum of `awaitFailing` its task fails, and the session that waits for it can
run. -/
theorem run_isolates_awaitFailing : ∃ c d,
    start { executable := awaitFailing, settings := {} } "main" [] = .ok (0, c) ∧
    (c.run 1).quantum = some ((1, .failed .stackUnderflow), d) ∧
    (c.run 1).world.task? 1 = some (.pending [0]) ∧
    View.Isolates 1 (.failed .stackUnderflow) (c.run 1).world.view d.world.view ∧
    View.FailsAlone 1 .stackUnderflow (c.run 1).world.view d.world.view := by
  obtain ⟨c, h, ht, d, hq⟩ : ∃ c,
      start { executable := awaitFailing, settings := {} } "main" [] = .ok (0, c) ∧
      (c.run 1).world.task? 1 = some (.pending [0]) ∧
      ∃ d, (c.run 1).quantum = some ((1, .failed .stackUnderflow), d) :=
    ⟨_, rfl, rfl, _, rfl⟩
  obtain ⟨isolates, alone⟩ := run_isolates h 1 hq
  exact ⟨c, d, h, hq, ht, isolates, alone _ rfl⟩

end Scheduler

end Teal
