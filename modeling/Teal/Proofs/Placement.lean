import Teal.Proofs.View

/-!
# Every session in its place

In a world that a scheduler has made out of nothing, a session that is not over is either once
in the queue or waits once for exactly one pending task, and a task stands where the session
stands that settles it. Steps and conclusions of quanta keep this so, whatever the program, its
arguments and the length of a slice are.

## Main definitions

* `View.Runnable`, `View.Waits`: the two places of a session that is not over.
* `View.Sound`: every session is in its place and agrees with its task.

## Main statements

* `View.Sound.step`, `View.Sound.concludes`: one step, and the end of a quantum.
* `Scheduler.run_sound`: every run of a started program.
-/

namespace Teal

namespace View

/-- A session is in the queue once and among no waiters, and it runs or waited for a task that
is settled by now. -/
def Runnable (V : View) (id : TaskId) (s : Session) : Prop :=
  V.queue.count id = 1 ∧ (∀ t, id ∉ V.waiters t) ∧
    (s.status = .running ∨
      ∃ t state, s.status = .suspended t ∧ V.task t = some state ∧ state.isSettled)

/-- A session waits once for one pending task, and is not in the queue. -/
def Waits (V : View) (id : TaskId) (s : Session) : Prop :=
  id ∉ V.queue ∧ ∃ t waiters, s.status = .suspended t ∧ V.task t = some (.pending waiters) ∧
    waiters.count id = 1 ∧ ∀ t', id ∈ V.waiters t' → t' = t

structure Fits (V : View) (id : TaskId) (s : Session) : Prop where
  /-- The session is stored under its own id. -/
  own : s.id = id
  below : id < V.nextId
  /-- The session has a task. -/
  handled : ∃ state, V.task id = some state
  /-- A session that is not over is in one of two places. -/
  placed : s.isOver = false → V.Runnable id s ∨ V.Waits id s
  pending : (∃ waiters, V.task id = some (.pending waiters)) ↔ s.isOver = false
  resolved (v : Value) :
    V.task id = some (.resolved v) ↔ s.status = .halted ∧ s.result = some v
  failed (message : String) : V.task id = some (.failed message) ↔ s.status = .failed message

/-- Every session is in its place and agrees with its task. -/
structure Sound (V : View) : Prop where
  fits {id : TaskId} {s : Session} : V.session id = some s → V.Fits id s
  taskBelow {id : TaskId} {state : TaskState} : V.task id = some state → id < V.nextId
  /-- The queue mentions only sessions that are there and not over. -/
  queued {id : TaskId} : id ∈ V.queue → ∃ s, V.session id = some s ∧ s.isOver = false
  /-- Waiters are sessions that are there and not over. -/
  waiting {id t : TaskId} : id ∈ V.waiters t → ∃ s, V.session id = some s ∧ s.isOver = false

/-- The session with an id is running and has its turn. -/
structure Running (V : View) (id : TaskId) : Prop where
  session : ∃ s, V.session id = some s ∧ s.status = .running
  queue : ∃ queue, V.queue = id :: queue

/-- A session written back while it has its turn. -/
theorem Running.put {V : View} {id : TaskId} {s : Session} {queue : List TaskId}
    (hq : V.queue = id :: queue) (hs : s.status = .running) : (V.put id s).Running id :=
  ⟨⟨s, by simp, hs⟩, queue, hq⟩

theorem waiters_eq {V : View} {t : TaskId} {waiters : List TaskId}
    (h : V.task t = some (.pending waiters)) : V.waiters t = waiters := by
  simp [View.waiters, h]

theorem waiters_of_none {V : View} {t : TaskId} (ht : V.task t = none) : V.waiters t = [] := by
  simp [View.waiters, ht]

theorem pending_of_mem_waiters {V : View} {id t : TaskId} (h : id ∈ V.waiters t) :
    V.task t = some (.pending (V.waiters t)) := by
  unfold View.waiters at h ⊢
  split at h
  · next hw => simp [hw]
  · simp at h

section Waiters

variable {V : View} {id x task : TaskId} {s : Session} {outcome : TaskState} {queue : List TaskId}

theorem spawn_waiters (ht : V.task V.nextId = none) (ip : Nat) (first : Activation) (x : TaskId) :
    (V.spawn ip first).waiters x = V.waiters x := by
  simp only [View.waiters, spawn_task]
  by_cases e : x = V.nextId <;> simp [e, ht]

theorem addSettled_waiters (ht : V.task V.nextId = none) (v : Value) (x : TaskId) :
    (V.addSettled v).waiters x = V.waiters x := by
  simp only [View.waiters, addSettled_task]
  by_cases e : x = V.nextId <;> simp [e, ht]

/-- Nobody waits for a task that is settled. -/
theorem finish_waiters (hset : outcome.isSettled) :
    (V.finish id s outcome queue).waiters x = if x = id then [] else V.waiters x := by
  simp only [View.waiters, finish_task]
  by_cases e : x = id
  · cases outcome <;> simp_all [TaskState.isSettled]
  · simp [e]

/-- A session that does not wait yet joins the waiters of a task at their end. -/
theorem suspend_task (hnew : id ∉ V.waiters task) :
    (V.suspend id s task queue).task x =
      if x = task then some (.pending (V.waiters task ++ [id])) else V.task x := by
  simp [View.suspend, Function.update_apply, hnew]

theorem suspend_waiters (hnew : id ∉ V.waiters task) :
    (V.suspend id s task queue).waiters x =
      if x = task then V.waiters task ++ [id] else V.waiters x := by
  simp only [View.waiters, suspend_task hnew]
  by_cases e : x = task <;> simp [e]

end Waiters

end View

/-- A session is over when it has halted or failed. -/
theorem Session.isOver_eq_false_iff {s : Session} :
    s.isOver = false ↔ s.status = .running ∨ ∃ t, s.status = .suspended t := by
  unfold Session.isOver
  cases s.status <;> simp

theorem Session.isOver_of_running {s : Session} (h : s.status = .running) : s.isOver = false :=
  Session.isOver_eq_false_iff.mpr (.inl h)

namespace View

variable {V V' : View} {id : TaskId} {s : Session}

theorem Running.status (h : V.Running id) (hs : V.session id = some s) : s.status = .running := by
  obtain ⟨s', hs', hstatus⟩ := h.session
  obtain rfl : s = s' := by simpa [hs] using hs'
  exact hstatus

theorem Running.isOver (h : V.Running id) (hs : V.session id = some s) : s.isOver = false :=
  Session.isOver_of_running (h.status hs)

/-- A session that is neither touched nor moved still fits. -/
theorem Fits.frame (h : V.Fits id s) (hn : V.nextId ≤ V'.nextId) (ht : V'.task id = V.task id)
    (hp : V.Runnable id s ∨ V.Waits id s → V'.Runnable id s ∨ V'.Waits id s) :
    V'.Fits id s where
  own := h.own
  below := Nat.lt_of_lt_of_le h.below hn
  handled := ht ▸ h.handled
  placed hover := hp (h.placed hover)
  pending := ht ▸ h.pending
  resolved v := ht ▸ h.resolved v
  failed message := ht ▸ h.failed message

/-- A session that is not over fits if its task is pending. -/
theorem Fits.of_pending {waiters : List TaskId} (own : s.id = id) (below : id < V.nextId)
    (ht : V.task id = some (.pending waiters)) (hover : s.isOver = false)
    (placed : V.Runnable id s ∨ V.Waits id s) : V.Fits id s where
  own := own
  below := below
  handled := ⟨_, ht⟩
  placed _ := placed
  pending := by simp [ht, hover]
  resolved v := by
    rcases Session.isOver_eq_false_iff.mp hover with hs | ⟨t, hs⟩ <;> simp [ht, hs]
  failed message := by
    rcases Session.isOver_eq_false_iff.mp hover with hs | ⟨t, hs⟩ <;> simp [ht, hs]

/-- A session in the queue stays runnable while it keeps its place and settled tasks stay so. -/
theorem Runnable.frame (h : V.Runnable id s) (hq : V'.queue.count id = V.queue.count id)
    (hw : ∀ t, (V'.waiters t).count id = (V.waiters t).count id)
    (ht : ∀ t state, V.task t = some state → state.isSettled →
      ∃ state', V'.task t = some state' ∧ state'.isSettled) : V'.Runnable id s := by
  obtain ⟨hcount, hno, hstatus⟩ := h
  refine ⟨hq.trans hcount, fun t hm => hno t ?_, hstatus.imp_right ?_⟩
  · rwa [← List.count_pos_iff, ← hw, List.count_pos_iff]
  · rintro ⟨t, state, hsus, htask, hset⟩
    obtain ⟨state', htask', hset'⟩ := ht t state htask hset
    exact ⟨t, state', hsus, htask', hset'⟩

/-- A waiter stays one while it keeps its place among the waiters. -/
theorem Waits.frame (h : V.Waits id s) (hq : id ∈ V'.queue → id ∈ V.queue)
    (hw : ∀ t, (V'.waiters t).count id = (V.waiters t).count id) : V'.Waits id s := by
  obtain ⟨hno, t, waiters, hsus, htask, hcount, hunique⟩ := h
  have hmem : (V'.waiters t).count id = 1 := by rw [hw, waiters_eq htask, hcount]
  have hpos : id ∈ V'.waiters t := List.count_pos_iff.mp (by omega)
  refine ⟨fun hm => hno (hq hm), t, _, hsus, pending_of_mem_waiters hpos, hmem, fun t' ht' => ?_⟩
  refine hunique t' ?_
  rwa [← List.count_pos_iff, ← hw, List.count_pos_iff]

end View

namespace View.Sound

variable {V : View} {id : TaskId} {s : Session}

/-- A session in the queue is there once and waits for nothing. -/
theorem runnable_of_mem (h : Sound V) (hid : id ∈ V.queue) (hs : V.session id = some s) :
    V.Runnable id s := by
  obtain ⟨s', hs', hover⟩ := h.queued hid
  obtain rfl : s = s' := by simpa [hs] using hs'
  exact ((h.fits hs).placed hover).resolve_right fun hw => hw.1 hid

/-- The session that has its turn is nowhere else. -/
theorem alone (h : Sound V) {queue : List TaskId} (hq : V.queue = id :: queue) :
    ∃ s, V.session id = some s ∧ s.isOver = false ∧ id ∉ queue ∧ ∀ t, id ∉ V.waiters t := by
  have hmem : id ∈ V.queue := by simp [hq]
  obtain ⟨s, hs, hover⟩ := h.queued hmem
  obtain ⟨hone, hno, -⟩ := h.runnable_of_mem hmem hs
  have hzero : queue.count id = 0 := by simpa [hq] using hone
  exact ⟨s, hs, hover, List.count_eq_zero.mp hzero, hno⟩

/-- Who waits for a task is nowhere else. -/
theorem waits_of_mem (h : Sound V) {t : TaskId} (hid : id ∈ V.waiters t)
    (hs : V.session id = some s) : V.Waits id s ∧ s.status = .suspended t := by
  obtain ⟨s', hs', hover⟩ := h.waiting hid
  obtain rfl : s = s' := by simpa [hs] using hs'
  have hw := ((h.fits hs).placed hover).resolve_left fun hr => hr.2.1 t hid
  refine ⟨hw, ?_⟩
  obtain ⟨-, t', _, hstatus, -, -, hunique⟩ := hw
  exact hunique t hid ▸ hstatus

/-- The next id is not in use. -/
theorem fresh (h : Sound V) :
    V.session V.nextId = none ∧ V.task V.nextId = none ∧ V.nextId ∉ V.queue ∧
      ∀ t, V.nextId ∉ V.waiters t := by
  have hs : V.session V.nextId = none := by
    cases hs : V.session V.nextId with
    | none => rfl
    | some s => exact absurd (h.fits hs).below (Nat.lt_irrefl _)
  have ht : V.task V.nextId = none := by
    cases ht : V.task V.nextId with
    | none => rfl
    | some state => exact absurd (h.taskBelow ht) (Nat.lt_irrefl _)
  refine ⟨hs, ht, fun hq => ?_, fun t hw => ?_⟩
  · obtain ⟨s, hs', -⟩ := h.queued hq
    simp [hs] at hs'
  · obtain ⟨s, hs', -⟩ := h.waiting hw
    simp [hs] at hs'

/-- The session that has its turn can be written back, as long as it runs. -/
theorem put (h : Sound V) (hid : id ∈ V.queue) (hs : s.id = id) (hrun : s.status = .running) :
    Sound (V.put id s) := by
  obtain ⟨old, hold, hover⟩ := h.queued hid
  have hover' : s.isOver = false := Session.isOver_of_running hrun
  -- what is there and not over before the write is so after it
  have present {x : TaskId} (hx : ∃ t, V.session x = some t ∧ t.isOver = false) :
      ∃ t, (V.put id s).session x = some t ∧ t.isOver = false := by
    rw [put_session]
    split
    · exact ⟨s, rfl, hover'⟩
    · exact hx
  refine ⟨?_, h.taskBelow, fun hx => present (h.queued hx), fun hx => present (h.waiting hx)⟩
  intro x t ht
  rw [put_session] at ht
  split at ht
  · next e =>
    subst e
    cases ht
    obtain ⟨hcount, hno, -⟩ := h.runnable_of_mem hid hold
    obtain ⟨waiters, hw⟩ := (h.fits hold).pending.mpr hover
    exact .of_pending hs (h.fits hold).below hw hover' (.inl ⟨hcount, hno, .inl hrun⟩)
  · exact (h.fits ht).frame (Nat.le_refl _) rfl fun hp => hp

/-- A new session is in the queue, and its task is pending. -/
theorem spawn (h : Sound V) (ip : Nat) (first : Activation) : Sound (V.spawn ip first) := by
  obtain ⟨hs, ht, hq, hw⟩ := h.fresh
  have waiters := spawn_waiters ht ip first
  have known {x : TaskId} {t : Session} (hx : V.session x = some t) : x ≠ V.nextId :=
    Nat.ne_of_lt (h.fits hx).below
  have task {t : TaskId} {state : TaskState} (hx : V.task t = some state) :
      (V.spawn ip first).task t = some state := by
    rw [spawn_task, if_neg (Nat.ne_of_lt (h.taskBelow hx)), hx]
  constructor
  case fits =>
    intro x t hx
    rw [spawn_session] at hx
    split at hx
    · next e =>
      subst e
      cases hx
      have hnew : (V.spawn ip first).task V.nextId = some (.pending []) := by simp
      refine .of_pending rfl (Nat.lt_succ_self _) hnew rfl (.inl ⟨?_, ?_, .inl rfl⟩)
      · simp [List.count_eq_zero_of_not_mem hq]
      · simpa only [waiters] using hw
    · next e =>
      refine (h.fits hx).frame (Nat.le_succ _) (by simp [e]) (Or.imp ?_ ?_)
      · exact fun hr => hr.frame (by simp [Ne.symm e]) (fun t => by rw [waiters])
          fun t state hx hset => ⟨state, task hx, hset⟩
      · exact fun hr => hr.frame (by simp [e]) fun t => by rw [waiters]
  case taskBelow =>
    intro x state hx
    rw [spawn_task] at hx
    split at hx
    · next e => exact e ▸ Nat.lt_succ_self _
    · exact Nat.lt_succ_of_lt (h.taskBelow hx)
  case queued =>
    intro x hx
    rw [spawn_session]
    split
    · exact ⟨_, rfl, rfl⟩
    · next e => exact h.queued (by simpa [e] using hx)
  case waiting =>
    intro x t hx
    rw [waiters] at hx
    obtain ⟨s, hs', hover⟩ := h.waiting hx
    exact ⟨s, by rw [spawn_session, if_neg (known hs'), hs'], hover⟩

/-- A task that is settled from the start changes no session's place. -/
theorem addSettled (h : Sound V) (v : Value) : Sound (V.addSettled v) := by
  obtain ⟨hs, ht, hq, hw⟩ := h.fresh
  have waiters := addSettled_waiters ht v
  have task {t : TaskId} {state : TaskState} (hx : V.task t = some state) :
      (V.addSettled v).task t = some state := by
    rw [addSettled_task, if_neg (Nat.ne_of_lt (h.taskBelow hx)), hx]
  constructor
  case fits =>
    intro x t hx
    have e : x ≠ V.nextId := Nat.ne_of_lt (h.fits hx).below
    refine (h.fits hx).frame (Nat.le_succ _) (by simp [e]) (Or.imp ?_ ?_)
    · exact fun hr => hr.frame rfl (fun t => by rw [waiters])
        fun t state hx hset => ⟨state, task hx, hset⟩
    · exact fun hr => hr.frame (fun hq => hq) fun t => by rw [waiters]
  case taskBelow =>
    intro x state hx
    rw [addSettled_task] at hx
    split at hx
    · next e => exact e ▸ Nat.lt_succ_self _
    · exact Nat.lt_succ_of_lt (h.taskBelow hx)
  case queued => exact h.queued
  case waiting =>
    intro x t hx
    exact h.waiting (waiters t ▸ hx)

/-- The session that has its turn goes to the end of the queue. -/
theorem rotate (h : Sound V) {queue : List TaskId} (hq : V.queue = id :: queue) :
    Sound { V with queue := queue ++ [id] } := by
  have perm : (queue ++ [id]).Perm V.queue := hq ▸ List.perm_append_singleton id queue
  refine ⟨fun hx => ?_, h.taskBelow, fun hx => h.queued (perm.mem_iff.mp hx), h.waiting⟩
  refine (h.fits hx).frame (Nat.le_refl _) rfl (Or.imp ?_ ?_)
  · exact fun hr => hr.frame (perm.count_eq _) (fun t => rfl)
      fun t state ht hset => ⟨state, ht, hset⟩
  · exact fun hr => hr.frame perm.mem_iff.mp fun t => rfl

/-- Those who waited for a task that is settled are in the queue then, all others are where they
were. -/
theorem placed_finish (h : Sound V) {queue : List TaskId} (hq : V.queue = id :: queue)
    {t : Session} {outcome : TaskState} (hset : outcome.isSettled) {x : TaskId}
    (hx : V.session x = some s) (e : x ≠ id) (placed : V.Runnable x s ∨ V.Waits x s) :
    (V.finish id t outcome queue).Runnable x s ∨ (V.finish id t outcome queue).Waits x s := by
  by_cases hwait : x ∈ V.waiters id
  · obtain ⟨⟨hnoq, t', ws, hsus, htask, hcount, hunique⟩, hsus'⟩ := h.waits_of_mem hwait hx
    obtain rfl : t' = id := (hunique id hwait).symm
    refine .inl ⟨?_, fun y hy => ?_, .inr ⟨t', outcome, hsus, by simp, hset⟩⟩
    · have hzero : queue.count x = 0 :=
        List.count_eq_zero.mpr fun hm => hnoq (by simp [hq, hm])
      simp [hzero, waiters_eq htask, hcount]
    · rw [finish_waiters hset] at hy
      split at hy
      · simp at hy
      · next hne => exact hne (hunique y hy)
  · have hw (y : TaskId) : ((V.finish id t outcome queue).waiters y).count x =
        (V.waiters y).count x := by
      rw [finish_waiters hset]
      split
      · next hy => rw [hy, List.count_eq_zero.mpr hwait, List.count_nil]
      · rfl
    have task {y : TaskId} {state : TaskState} (hy : V.task y = some state)
        (hs : state.isSettled) : ∃ state',
          (V.finish id t outcome queue).task y = some state' ∧ state'.isSettled := by
      rw [finish_task]
      split
      · exact ⟨outcome, rfl, hset⟩
      · exact ⟨state, hy, hs⟩
    refine placed.imp (fun hr => hr.frame ?_ hw fun y state => task) fun hr => hr.frame ?_ hw
    · simp [hq, List.count_eq_zero.mpr hwait, Ne.symm e]
    · intro hm
      have : x ∈ queue := by simpa [hwait] using hm
      simp [hq, this]

/-- A session that has its turn is over: its task is settled, and who waited for it can run. -/
theorem finish (h : Sound V) {queue : List TaskId} (hq : V.queue = id :: queue)
    {t : Session} {outcome : TaskState} (hid : t.id = id) (hover : t.isOver)
    (hset : outcome.isSettled)
    (hres : ∀ v, outcome = .resolved v ↔ t.status = .halted ∧ t.result = some v)
    (hfail : ∀ message, outcome = .failed message ↔ t.status = .failed message) :
    Sound (V.finish id t outcome queue) := by
  obtain ⟨old, hold, -, hnot, hno⟩ := h.alone hq
  have present {x : TaskId} (e : x ≠ id) (hx : ∃ s, V.session x = some s ∧ s.isOver = false) :
      ∃ s, (V.finish id t outcome queue).session x = some s ∧ s.isOver = false := by
    rw [finish_session, if_neg e]
    exact hx
  constructor
  case fits =>
    intro x s hx
    rw [finish_session] at hx
    split at hx
    · next e =>
      subst e
      cases hx
      refine ⟨hid, (h.fits hold).below, ⟨outcome, by simp⟩, by simp [hover], ?_, ?_, ?_⟩
      · cases outcome <;> simp_all [TaskState.isSettled]
      · simpa using hres
      · simpa using hfail
    · next e =>
      exact (h.fits hx).frame (Nat.le_refl _) (by simp [e]) (h.placed_finish hq hset hx e)
  case taskBelow =>
    intro x state hx
    rw [finish_task] at hx
    split at hx
    · next e => exact e ▸ (h.fits hold).below
    · exact h.taskBelow hx
  case queued =>
    intro x hx
    rcases List.mem_append.mp hx with hx | hx
    · exact present (fun e => hnot (e ▸ hx)) (h.queued (by simp [hq, hx]))
    · exact present (fun e => hno id (e ▸ hx)) (h.waiting hx)
  case waiting =>
    intro x y hx
    rw [finish_waiters hset] at hx
    split at hx
    · simp at hx
    · exact present (fun e => hno y (e ▸ hx)) (h.waiting hx)

/-- When a session suspends on a pending task, all others are where they were. -/
theorem placed_suspend (h : Sound V) {queue : List TaskId} (hq : V.queue = id :: queue)
    {t : Session} {task : TaskId} {waiters : List TaskId}
    (ht : V.task task = some (.pending waiters)) {x : TaskId} (e : x ≠ id)
    (placed : V.Runnable x s ∨ V.Waits x s) :
    (V.suspend id t task queue).Runnable x s ∨ (V.suspend id t task queue).Waits x s := by
  obtain ⟨-, -, -, -, hno⟩ := h.alone hq
  have hcount (y : TaskId) :
      ((V.suspend id t task queue).waiters y).count x = (V.waiters y).count x := by
    rw [suspend_waiters (hno task)]
    split
    · next hy => simp [hy, Ne.symm e]
    · rfl
  refine placed.imp (fun hr => hr.frame (by simp [hq, Ne.symm e]) hcount fun y state hy hset => ?_)
    fun hr => hr.frame (fun hm => by simp [hq, show x ∈ queue from hm]) hcount
  refine ⟨state, ?_, hset⟩
  rw [suspend_task (hno task), if_neg, hy]
  rintro rfl
  rw [ht] at hy
  cases hy
  cases hset

/-- A session that has its turn leaves the queue to wait for a pending task. -/
theorem suspend (h : Sound V) {queue : List TaskId} (hq : V.queue = id :: queue)
    {task : TaskId} {waiters : List TaskId} (hid : s.id = id)
    (ht : V.task task = some (.pending waiters)) : Sound (V.suspend id s task queue) := by
  obtain ⟨old, hold, hold', hnot, hno⟩ := h.alone hq
  have hnew : id ∉ V.waiters task := hno task
  have present {x : TaskId} (hx : ∃ s, V.session x = some s ∧ s.isOver = false) :
      ∃ t, (V.suspend id s task queue).session x = some t ∧ t.isOver = false := by
    rw [suspend_session]
    split
    · exact ⟨_, rfl, rfl⟩
    · exact hx
  -- whether a task is pending, resolved or failed does not change
  obtain ⟨own, howner⟩ := (h.fits hold).pending.mpr hold'
  constructor
  case fits =>
    intro x t hx
    rw [suspend_session] at hx
    split at hx
    · next e =>
      subst e
      cases hx
      have hpending : ∃ ws, (V.suspend x s task queue).task x = some (.pending ws) := by
        rw [suspend_task hnew]
        split
        · exact ⟨_, rfl⟩
        · exact ⟨_, howner⟩
      obtain ⟨ws, hws⟩ := hpending
      refine .of_pending hid (h.fits hold).below hws rfl (.inr ⟨hnot, task, V.waiters task ++ [x],
        rfl, by simp [suspend_task hnew], by simp [List.count_eq_zero.mpr hnew], fun y hy => ?_⟩)
      rw [suspend_waiters hnew] at hy
      split at hy
      · next e => exact e
      · exact absurd hy (hno y)
    · next e =>
      have fit := h.fits hx
      by_cases hxt : x = task
      · subst hxt
        have hover : t.isOver = false := fit.pending.mp ⟨_, ht⟩
        exact .of_pending fit.own fit.below (by rw [suspend_task hnew, if_pos rfl]) hover
          (h.placed_suspend hq ht e (fit.placed hover))
      · exact fit.frame (Nat.le_refl _) (by simp [suspend_task hnew, hxt])
          (h.placed_suspend hq ht e)
  case taskBelow =>
    intro x state hx
    rw [suspend_task hnew] at hx
    split at hx
    · next e =>
      subst e
      exact h.taskBelow ht
    · exact h.taskBelow hx
  case queued => exact fun hx => present (h.queued (by simp [hq, show _ ∈ queue from hx]))
  case waiting =>
    intro x y hx
    rw [suspend_waiters hnew] at hx
    split at hx
    · rcases List.mem_append.mp hx with hx | hx
      · exact present (h.waiting hx)
      · exact present (List.mem_singleton.mp hx ▸ ⟨old, hold, hold'⟩)
    · exact present (h.waiting hx)

/-- A step of the session that has its turn. -/
theorem step {exe : Executable} {V' : View} (h : Sound V) (hrun : V.Running id)
    (hstep : V.Step exe id V') : Sound V' ∧ V'.Running id := by
  obtain ⟨queue, hq⟩ := hrun.queue
  have hmem : id ∈ V.queue := by simp [hq]
  have own {s t : Session} (hs : V.session id = some s) (keeps : s.Keeps t) :
      t.id = id ∧ t.status = .running :=
    ⟨keeps.id.trans (h.fits hs).own, keeps.status.trans (hrun.status hs)⟩
  cases hstep with
  | goOn hs hr =>
    obtain ⟨hid, hstatus⟩ := own hs (Session.keeps_of_request hr)
    exact ⟨h.put hmem hid hstatus, .put hq hstatus⟩
  | @spawn _ _ ip first hs hr =>
    obtain ⟨hid, hstatus⟩ := own hs (Session.keeps_of_request hr)
    have hq' : (V.spawn ip first).queue = id :: (queue ++ [V.nextId]) := by simp [hq]
    exact ⟨(h.spawn ip first).put (by simp [hmem]) hid hstatus, .put hq' hstatus⟩
  | settle hs hr =>
    obtain ⟨hid, hstatus⟩ := own hs (Session.keeps_of_request hr)
    exact ⟨(h.addSettled _).put hmem hid hstatus, .put hq hstatus⟩
  | resume hs hr =>
    obtain ⟨hid, hstatus⟩ := own hs (Session.keeps_of_request hr)
    exact ⟨h.put hmem hid hstatus, .put hq hstatus⟩

/-- What each step of the session that has its turn keeps of a sound view, any number of them
keeps. -/
theorem steps_preserve {exe : Executable} {n : Nat} {prints : List (List Value)} {V V' : View}
    {P : View → Prop} (h : Sound V) (hrun : V.Running id)
    (hsteps : View.Steps exe id n prints V V')
    (step : ∀ {V V'}, Sound V → V.Running id → P V → View.Step exe id V V' → P V') (hP : P V) :
    Sound V' ∧ V'.Running id ∧ P V' := by
  refine hsteps.preserves (P := fun V => Sound V ∧ V.Running id ∧ P V) ?_ ⟨h, hrun, hP⟩
  rintro V V' ⟨h, hrun, hP⟩ hstep
  obtain ⟨h', hrun'⟩ := h.step hrun hstep
  exact ⟨h', hrun', step h hrun hP hstep⟩

theorem steps {exe : Executable} {n : Nat} {prints : List (List Value)} {V V' : View}
    (h : Sound V) (hrun : V.Running id) (hsteps : View.Steps exe id n prints V V') :
    Sound V' ∧ V'.Running id :=
  hsteps.preserves (P := fun V => Sound V ∧ V.Running id) (fun h hstep => h.1.step h.2 hstep)
    ⟨h, hrun⟩

/-- The session that a failing step leaves is the one that made it. -/
theorem fails_keeps {exe : Executable} {t : Session} {e : MachineError}
    (hf : V.Fails exe s t e) : s.Keeps t := by
  cases hf with
  | itself hr => exact Session.keeps_of_request hr
  | awaited | unknown => exact Session.keeps_withStack s _

/-- The end of a quantum. -/
theorem concludes {exe : Executable} {V' : View} {o : Outcome} (h : Sound V)
    (hc : V.Concludes exe id o V') : Sound V' := by
  cases hc with
  | preempted hq => exact h.rotate hq
  | halted hq hs hr =>
    have keeps := Session.keeps_of_request hr
    exact h.finish hq (keeps.id.trans (h.fits hs).own) rfl rfl (by simp) (by simp)
  | failed hq hs hf =>
    exact h.finish hq ((fails_keeps hf).id.trans (h.fits hs).own) rfl rfl (by simp) (by simp)
  | suspended hq hs hr ht => exact h.suspend hq (h.fits hs).own ht

end View.Sound

namespace Scheduler

variable {c d : Scheduler} {id : TaskId} {o : Outcome}

/-- A quantum of a sound world runs a session that is there and not over. -/
theorem quantum_runs (h : c.world.view.Sound) (hq : c.quantum = some ((id, o), d)) :
    ∃ s, c.world.session? id = some s ∧ s.id = id ∧ s.isOver = false ∧ id ∈ c.world.queue := by
  obtain ⟨queue, hqueue, -⟩ := quantum_eq_some hq
  have hmem : id ∈ c.world.queue := by simp [hqueue]
  obtain ⟨s, hs, hover⟩ := h.queued hmem
  exact ⟨s, hs, (h.fits hs).own, hover, hmem⟩

/-- The first session of the queue of a sound world, marked as running. -/
theorem sound_running {s : Session} {queue : List TaskId} (h : c.world.view.Sound)
    (hq : c.world.queue = id :: queue) (hid : s.id = id) :
    (c.world.view.put id { s with status := .running }).Sound ∧
      (c.world.view.put id { s with status := .running }).Running id :=
  ⟨h.put (by simp [hq]) hid rfl, .put hq rfl⟩

/-- What a quantum of a sound world does, and that the world is sound at its last step. -/
theorem quantum_sound_spec (h : c.world.view.Sound) (hq : c.quantum = some ((id, o), d)) :
    ∃ s n V, c.world.session? id = some s ∧
      View.Steps c.executable id n c.quantumPrints
        (c.world.view.put id { s with status := .running }) V ∧
      V.Concludes c.executable id o d.world.view ∧ (o = .preempted → 0 < n) ∧
      V.Sound ∧ V.Running id := by
  obtain ⟨s, hs, hid, hover, -⟩ := quantum_runs h hq
  obtain ⟨queue, hqueue, -⟩ := quantum_eq_some hq
  obtain ⟨n, V, hsteps, hc, hpos⟩ := quantum_spec hq hs hid hover
  obtain ⟨h, hrun⟩ := sound_running h hqueue hid
  exact ⟨s, n, V, hs, hsteps, hc, hpos, h.steps hrun hsteps⟩

theorem quantum_sound (h : c.world.view.Sound) (hq : c.quantum = some ((id, o), d)) :
    d.world.view.Sound := by
  obtain ⟨s, n, V, -, -, hc, -, h, -⟩ := quantum_sound_spec h hq
  exact h.concludes hc

/-- What every quantum keeps, every run keeps. -/
theorem run_induction {P : Scheduler → Prop}
    (step : ∀ {c d : Scheduler} {id : TaskId} {o : Outcome}, P c →
      c.quantum = some ((id, o), d) → P d) (n : Nat) (h : P c) : P (c.run n) := by
  induction n generalizing c with
  | zero => exact h
  | succ n ih =>
    simp only [run]
    split
    · exact h
    · next hq => exact ih (step h hq)

theorem run_of_quantum {done : TaskId × Outcome} (h : c.quantum = some (done, d)) (n : Nat) :
    c.run (n + 1) = d.run n := by
  simp [run, h]

theorem run_of_stuck (h : c.quantum = none) (n : Nat) : c.run n = c := by
  cases n <;> simp [run, h]

theorem run_add (c : Scheduler) (m n : Nat) : c.run (m + n) = (c.run m).run n := by
  induction m generalizing c with
  | zero => rw [Nat.zero_add, run]
  | succ m ih =>
    cases hq : c.quantum with
    | none => rw [run_of_stuck hq, run_of_stuck hq, run_of_stuck hq]
    | some next =>
      obtain ⟨done, d⟩ := next
      rw [Nat.succ_add, run_of_quantum hq, run_of_quantum hq, ih]

/-- However many turns it is given, a program has one end. -/
theorem run_eq_of_idle {m n : Nat} (hm : (c.run m).world.queue = [])
    (hn : (c.run n).world.queue = []) : c.run m = c.run n := by
  have stuck (k : Nat) (hk : (c.run k).world.queue = []) : (c.run k).quantum = none := by
    simp [quantum, hk]
  calc c.run m
      = (c.run m).run n := (run_of_stuck (stuck m hm) n).symm
    _ = (c.run n).run m := by rw [← run_add, ← run_add, Nat.add_comm]
    _ = c.run n := run_of_stuck (stuck n hn) m

theorem drain_eq_some {n : Nat} {r : Except MachineError Report} (h : c.drain n = some (r, d)) :
    (c.run n).world.queue = [] ∧ d = c.run n ∧ r = (c.run n).report := by
  simp only [drain] at h
  split at h
  · next hidle =>
    cases h
    exact ⟨List.isEmpty_iff.mp hidle, rfl, rfl⟩
  · cases h

theorem drain_of_idle {n : Nat} (h : (c.run n).world.queue = []) :
    c.drain n = some ((c.run n).report, c.run n) := by
  simp [drain, h]

/-- A started program has one session, which calls its entry. -/
theorem start_eq {exe : Executable} {settings : MachineSettings} {entry : String}
    {args : List Value} (h : start { executable := exe, settings } entry args = .ok (id, c)) :
    ∃ info bindings, exe.function? entry = some info ∧
      argumentBindings entry info.params [] args (args.map fun _ => .null) = .ok bindings ∧
      id = 0 ∧ c = { executable := exe, settings, world :=
        { (World.spawn {} info.location { function := entry, bindings }).2 with
          topLevel := some 0 } } := by
  simp only [start, World.spawnCall, bind, Except.bind] at h
  rcases hf : exe.function? entry with _ | info
  · simp [hf] at h
  · simp only [hf] at h
    rcases hb : argumentBindings entry info.params [] args (args.map fun _ => .null) with e | b
    · simp only [hb] at h
      cases h
    · simp only [hb, Except.ok.injEq, Prod.mk.injEq] at h
      exact ⟨info, b, rfl, hb, h.1.symm, h.2.symm⟩

/-- What a started program says: its first session was spawned out of nothing. -/
theorem start_view {exe : Executable} {settings : MachineSettings} {entry : String}
    {args : List Value} (h : start { executable := exe, settings } entry args = .ok (id, c)) :
    ∃ info bindings, exe.function? entry = some info ∧
      argumentBindings entry info.params [] args (args.map fun _ => .null) = .ok bindings ∧
      id = 0 ∧ c.executable = exe ∧ c.settings = settings ∧ c.failures = [] ∧
      c.world.view = (World.view { topLevel := some 0 }).spawn info.location
        { function := entry, bindings } := by
  obtain ⟨info, bindings, hf, hb, rfl, rfl⟩ := start_eq h
  refine ⟨info, bindings, hf, hb, rfl, rfl, rfl, rfl, ?_⟩
  ext1
  · exact World.session?_spawn {} info.location { function := entry, bindings }
  · exact World.task?_spawn {} info.location { function := entry, bindings }
  · rfl
  · rfl
  · rfl

theorem start_sound {exe : Executable} {settings : MachineSettings} {entry : String}
    {args : List Value} (h : start { executable := exe, settings } entry args = .ok (id, c)) :
    c.world.view.Sound := by
  obtain ⟨info, bindings, -, -, -, -, -, -, hview⟩ := start_view h
  have empty : View.Sound (World.view { topLevel := some 0 }) := by
    constructor <;> simp [World.session?, World.task?, View.waiters]
  rw [hview]
  exact empty.spawn info.location { function := entry, bindings }

/-- Every session is in its place along a run of a started program. -/
theorem sound_of_run {exe : Executable} {settings : MachineSettings} {entry : String}
    {args : List Value} (h : start { executable := exe, settings } entry args = .ok (id, c))
    (n : Nat) : (c.run n).world.view.Sound :=
  run_induction (P := fun c => c.world.view.Sound) (fun h hq => quantum_sound h hq) n
    (start_sound h)

/-- No quantum of a sound world fails for want of a session to run. -/
theorem quantum_error (h : c.world.view.Sound) (hq : c.quantum = some ((id, o), d))
    (x : TaskId) : o ≠ .failed (.unknownSession x) ∧ o ≠ .failed (.notRunnable x) := by
  obtain ⟨s, n, V, -, -, hc, -, -⟩ := quantum_sound_spec h hq
  generalize d.world.view = V' at hc
  cases hc with
  | failed _ _ hf =>
    cases hf with
    | itself hr =>
      have hlocal := request_error_local hr
      constructor <;> rintro ⟨⟩ <;> cases hlocal
    | awaited | unknown => simp
  | _ => simp

def awaitOnce : Executable where
  functions := [("main", { location := 0, params := [] }), ("seven", { location := 4, params := [] })]
  code := [⟨.pushBinding "seven", []⟩, ⟨.asyncCall 0 [], []⟩, ⟨.wait, []⟩, ⟨.ret, []⟩,
    ⟨.pushValue (.integer 7), []⟩, ⟨.ret, []⟩]

/-- In every run of a started program each session is in its place: once in the queue, or once
among the waiters of one pending task, or over, and then its task has its result. So there is
always a session to run. -/
theorem run_sound {exe : Executable} {settings : MachineSettings} {entry : String}
    {args : List Value} (h : start { executable := exe, settings } entry args = .ok (id, c))
    (n : Nat) :
    (c.run n).world.view.Sound ∧
      ∀ x o d, (c.run n).quantum = some ((x, o), d) →
        ∀ y, o ≠ .failed (.unknownSession y) ∧ o ≠ .failed (.notRunnable y) := by
  have sound : (c.run n).world.view.Sound :=
    run_induction (P := fun c => c.world.view.Sound) (fun h hq => quantum_sound h hq) n
      (start_sound h)
  exact ⟨sound, fun x o d hq y => quantum_error sound hq y⟩

/-- After one quantum of `awaitOnce` its first session waits for the second. -/
theorem run_sound_awaitOnce : ∃ c, start { executable := awaitOnce, settings := {} } "main" [] =
    .ok (0, c) ∧ (c.run 1).world.view.Sound ∧
      ∀ x o d, (c.run 1).quantum = some ((x, o), d) →
        ∀ y, o ≠ .failed (.unknownSession y) ∧ o ≠ .failed (.notRunnable y) := by
  obtain ⟨c, h⟩ : ∃ c, start { executable := awaitOnce, settings := {} } "main" [] = .ok (0, c) :=
    ⟨_, rfl⟩
  exact ⟨c, h, run_sound h 1⟩

end Scheduler

end Teal
