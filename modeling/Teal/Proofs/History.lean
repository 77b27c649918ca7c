import Mathlib.Data.List.Chain
import Teal.Proofs.Placement

/-!
# Histories of sessions

A quantum concerns one session: it leaves the others as they are, and the tasks that are settled.
So what a session does in a run can be told by itself, as the list of its states at the
instructions it executes. One state follows from another by a step in some world; a state that
waits in vain is met again.

## Main definitions

* `View.Extends`: what steps of a session leave alone.
* `Session.Invariant`, `View.All`: properties that sessions keep whatever the others do.
* `Scheduler.turn?`: the world and the session with which a quantum begins.
* `Session.Follows`, `Scheduler.history`: states of a session, one after the other.

## Main statements

* `Scheduler.session?_of_quantum`: a quantum leaves other sessions as they are.
* `Scheduler.run_all`: what a step keeps of each session, every run keeps.
* `Scheduler.history_chain`: in a history each state follows from the one before it.
-/

namespace Teal

/-! ## What a quantum leaves alone -/

namespace View

variable {exe : Executable} {id : TaskId} {V V' V'' : View}

/-- What steps of a session leave alone: other sessions, the tasks there were and the queue, to
which only new sessions are added. -/
structure Extends (id : TaskId) (V V' : View) : Prop where
  nextId : V.nextId ≤ V'.nextId
  session {x : TaskId} : x ≠ id → x < V.nextId → V'.session x = V.session x
  /-- New sessions have not run yet. -/
  new {x : TaskId} {s : Session} : x ≠ id → V.session x = none → V'.session x = some s →
    s.status = .running ∧ x < V'.nextId
  task {x : TaskId} : x < V.nextId → V'.task x = V.task x
  queue : ∃ added, V'.queue = V.queue ++ added ∧ ∀ x ∈ added, V.nextId ≤ x

namespace Extends

theorem refl : Extends id V V :=
  ⟨Nat.le_refl _, fun _ _ => rfl, fun _ hnone hs => by simp [hnone] at hs, fun _ => rfl, [],
    by simp, by simp⟩

theorem trans (h : Extends id V V') (h' : Extends id V' V'') : Extends id V V'' := by
  obtain ⟨added, hqueue, hnew⟩ := h.queue
  obtain ⟨added', hqueue', hnew'⟩ := h'.queue
  refine ⟨Nat.le_trans h.nextId h'.nextId, fun hx hlt => ?_, fun {x s} hx hnone hs => ?_,
    fun hlt => ?_, added ++ added', ?_, ?_⟩
  · rw [h'.session hx (Nat.lt_of_lt_of_le hlt h.nextId), h.session hx hlt]
  · cases hs' : V'.session x with
    | none => exact h'.new hx hs' hs
    | some s' =>
      obtain ⟨hrun, hlt⟩ := h.new hx hnone hs'
      obtain rfl : s' = s := by simpa [h'.session hx hlt, hs'] using hs
      exact ⟨hrun, Nat.lt_of_lt_of_le hlt h'.nextId⟩
  · rw [h'.task (Nat.lt_of_lt_of_le hlt h.nextId), h.task hlt]
  · rw [hqueue', hqueue, List.append_assoc]
  · intro x hx
    rcases List.mem_append.mp hx with hx | hx
    · exact hnew x hx
    · exact Nat.le_trans h.nextId (hnew' x hx)

theorem put (t : Session) : Extends id V (V.put id t) :=
  ⟨Nat.le_refl _, fun hx _ => by simp [hx], fun hx hnone hs => by simp [hx, hnone] at hs,
    fun _ => rfl, [], by simp, by simp⟩

theorem spawn (ip : Nat) (first : Activation) : Extends id V (V.spawn ip first) where
  nextId := Nat.le_succ _
  session _ hlt := by simp [Nat.ne_of_lt hlt]
  new {x s} _ hnone hs := by
    rw [spawn_session] at hs
    split at hs
    · next e =>
      cases hs
      exact ⟨rfl, e ▸ Nat.lt_succ_self _⟩
    · simp [hnone] at hs
  task hlt := by simp [Nat.ne_of_lt hlt]
  queue := ⟨[V.nextId], rfl, by simp⟩

theorem addSettled (v : Value) : Extends id V (V.addSettled v) where
  nextId := Nat.le_succ _
  session _ _ := rfl
  new _ hnone hs := by simp [hnone] at hs
  task hlt := by simp [Nat.ne_of_lt hlt]
  queue := ⟨[], by simp, by simp⟩

theorem step (hstep : V.Step exe id V') : Extends id V V' := by
  cases hstep with
  | goOn => exact put _
  | spawn => exact (spawn _ _).trans (put _)
  | settle => exact (addSettled _).trans (put _)
  | resume => exact put _

theorem steps {n : Nat} {prints : List (List Value)} (hsteps : View.Steps exe id n prints V V') :
    Extends id V V' := by
  induction hsteps with
  | refl V => exact refl
  | head _ hstep _ ih => exact (step hstep).trans ih

end Extends

/-- The end of a quantum leaves other sessions and the ids in use. -/
theorem Concludes.session {o : Outcome} (hc : V.Concludes exe id o V') :
    V'.nextId = V.nextId ∧ ∀ x, x ≠ id → V'.session x = V.session x := by
  cases hc <;> simp_all

end View

/-! ## Steps of a session, whatever the world -/

/-- A session executes an instruction in some world and stays able to run: it goes on as another,
or waits and stays as it is. -/
inductive Session.Follows (exe : Executable) (s : Session) : Session → Prop
  | goOn {t : Session} {prints : List (List Value)} (hr : request exe s = .goOn t prints) :
      Follows exe s (t.print prints)
  | spawn {t : Session} {ip : Nat} {first : Activation} (hr : request exe s = .spawn t ip first)
      (id : TaskId) : Follows exe s (t.push (.future id))
  | settle {t : Session} {v : Value} {prints : List (List Value)}
      (hr : request exe s = .settle t v prints) (id : TaskId) :
      Follows exe s ((t.push (.future id)).print prints)
  | resume {task : TaskId} {rest : List Value} (hr : request exe s = .await s task rest)
      (v : Value) : Follows exe s (s.advance.withStack (v :: rest))
  | wait {task : TaskId} {rest : List Value} (hr : request exe s = .await s task rest) :
      Follows exe s s

theorem Session.Follows.eq_of_goOn {exe : Executable} {s t u : Session}
    {prints : List (List Value)} (h : s.Follows exe t) (hr : request exe s = .goOn u prints) :
    t = u.print prints := by
  cases h with
  | goOn hr' =>
    rw [hr] at hr'
    cases hr'
    rfl
  | spawn hr' | settle hr' | resume hr' | wait hr' => exact nomatch hr.symm.trans hr'

theorem Session.Follows.ne_fail {exe : Executable} {s t u : Session} {e : MachineError}
    (h : s.Follows exe t) : request exe s ≠ .fail u e := by
  intro hr
  cases h with
  | goOn hr' | spawn hr' | settle hr' | resume hr' | wait hr' => exact nomatch hr.symm.trans hr'

/-- The states after steps of a session that stays able to run. -/
theorem follows_step {exe : Executable} {w : World} {s : Session}
    (h : (step exe w s).signal = .next ∨ ∃ task, (step exe w s).signal = .suspended task) :
    s.Follows exe (step exe w s).session := by
  rw [step_eq_perform] at h ⊢
  cases hr : request exe s with
  | goOn t prints => exact .goOn hr
  | spawn t ip first => exact .spawn hr w.nextId
  | settle t v prints => exact .settle hr w.nextId
  | await t task rest =>
    obtain ⟨rfl, -⟩ := request_await hr
    simp only [hr, Request.perform, await] at h ⊢
    rcases ht : w.task? task with _ | waiters | v | message
    · simp [ht, Turn.fail] at h
    · exact .wait hr
    · exact .resume hr v
    · simp [ht, Turn.fail] at h
  | halt t v => simp [hr, Request.perform] at h
  | fail t e => simp [hr, Request.perform, Turn.fail] at h

theorem Session.Follows.status {exe : Executable} {s t : Session} (h : s.Follows exe t) :
    t.status = s.status := by
  have keeps := request_keeps exe s
  cases h with
  | goOn hr | spawn hr | settle hr =>
    rw [hr] at keeps
    exact keeps.status
  | resume | wait => rfl

/-! ## What every session keeps -/

/-- A property of sessions that each of their steps keeps, and every mark that a quantum leaves. -/
structure Session.Invariant (exe : Executable) (P : Session → Prop) : Prop where
  mark {s : Session} : P s → s.isOver = false → P { s with status := .running }
  follows {s t : Session} : P s → s.status = .running → s.Follows exe t → P t
  new {s t : Session} {ip : Nat} {first : Activation} : P s → s.status = .running →
    request exe s = .spawn t ip first → ∀ id, P { id, ip, activations := [first] }
  suspend {s : Session} {task : TaskId} {rest : List Value} : P s → s.status = .running →
    request exe s = .await s task rest → P { s with status := .suspended task }
  halt {s t : Session} {v : Value} : P s → s.status = .running →
    request exe s = .halt t v → P { t with status := .halted, result := some v }
  fail {s : Session} {message : String} : s.status = .failed message → P s

namespace View

variable {exe : Executable} {id : TaskId} {V V' : View} {P : Session → Prop} {s : Session}

def All (P : Session → Prop) (V : View) : Prop :=
  ∀ ⦃x s⦄, V.session x = some s → P s

namespace All

theorem put (h : V.All P) (hs : P s) : (V.put id s).All P := by
  intro x t ht
  rw [put_session] at ht
  split at ht
  · cases ht
    exact hs
  · exact h ht

theorem spawn {ip : Nat} {first : Activation} (h : V.All P)
    (hs : P { id := V.nextId, ip, activations := [first] }) : (V.spawn ip first).All P := by
  intro x t ht
  rw [spawn_session] at ht
  split at ht
  · cases ht
    exact hs
  · exact h ht

theorem finish {outcome : TaskState} {queue : List TaskId} (h : V.All P) (hs : P s) :
    (V.finish id s outcome queue).All P := by
  intro x t ht
  rw [finish_session] at ht
  split at ht
  · cases ht
    exact hs
  · exact h ht

theorem suspend {task : TaskId} {queue : List TaskId} (h : V.All P)
    (hs : P { s with status := .suspended task }) : (V.suspend id s task queue).All P := by
  intro x t ht
  rw [suspend_session] at ht
  split at ht
  · cases ht
    exact hs
  · exact h ht

theorem step (inv : Session.Invariant exe P) (h : V.All P) (hrun : V.Running id)
    (hstep : V.Step exe id V') : V'.All P := by
  have follows {s t : Session} (hs : V.session id = some s) (hf : s.Follows exe t) : P t :=
    inv.follows (h hs) (hrun.status hs) hf
  cases hstep with
  | goOn hs hr => exact h.put (follows hs (.goOn hr))
  | spawn hs hr =>
    exact (h.spawn (inv.new (h hs) (hrun.status hs) hr _)).put (follows hs (.spawn hr _))
  | settle hs hr => exact put h (follows hs (.settle hr _))
  | resume hs hr => exact h.put (follows hs (.resume hr _))

theorem steps {n : Nat} {prints : List (List Value)} (inv : Session.Invariant exe P)
    (h : V.All P) (sound : V.Sound) (hrun : V.Running id)
    (hsteps : View.Steps exe id n prints V V') : V'.All P :=
  (sound.steps_preserve hrun hsteps (fun _ hrun h hstep => h.step inv hrun hstep) h).2.2

theorem concludes {o : Outcome} (inv : Session.Invariant exe P) (h : V.All P)
    (hrun : V.Running id) (hc : V.Concludes exe id o V') : V'.All P := by
  cases hc with
  | preempted => exact h
  | halted _ hs hr => exact h.finish (inv.halt (h hs) (hrun.status hs) hr)
  | failed => exact h.finish (inv.fail rfl)
  | suspended _ hs hr => exact h.suspend (inv.suspend (h hs) (hrun.status hs) hr)

end All

end View

/-! ## States of a session -/

/-- The states of a session at the instructions of a slice. -/
def sliceStates (exe : Executable) : (budget : Nat) → World → Session → List Session
  | 0, _, _ => []
  | budget + 1, w, s =>
    let turn := step exe w s
    s :: match turn.signal with
      | .next => sliceStates exe budget turn.world turn.session
      | _ => []

section Slice

variable {exe : Executable} {w : World} {s t : Session} {budget : Nat}

theorem Session.eq_of_running (h : s.status = .running) : { s with status := .running } = s := by
  rw [← h]

theorem head?_sliceStates (h : t ∈ (sliceStates exe budget w s).head?) : t = s := by
  cases budget with
  | zero => cases h
  | succ budget => simpa [sliceStates, eq_comm] using h

theorem chain_sliceStates (exe : Executable) (budget : Nat) (w : World) (s : Session) :
    (sliceStates exe budget w s).IsChain (Session.Follows exe) := by
  induction budget generalizing w s with
  | zero => exact .nil
  | succ budget ih =>
    simp only [sliceStates]
    split
    · next hsig =>
      refine List.isChain_cons.mpr ⟨fun t ht => ?_, ih _ _⟩
      exact head?_sliceStates ht ▸ follows_step (.inl hsig)
    · exact .singleton s

/-- What every step keeps holds of all states of a slice. -/
theorem Session.Invariant.sliceStates {P : Session → Prop} (inv : Session.Invariant exe P)
    (hs : P s) (hrun : s.status = .running) (ht : t ∈ sliceStates exe budget w s) :
    P t ∧ t.status = .running := by
  induction budget generalizing w s with
  | zero => cases ht
  | succ budget ih =>
    simp only [Teal.sliceStates, List.mem_cons] at ht
    rcases ht with rfl | ht
    · exact ⟨hs, hrun⟩
    · split at ht
      · next hsig =>
        have next := inv.follows hs hrun (follows_step (.inl hsig))
        exact ih next (step_keeps.status.trans hrun) ht
      · cases ht

/-- A session that can still run after its slice follows from its last state in it. -/
theorem follows_slice {w' : World} {s' : Session} {o : Outcome}
    (h : slice exe budget w s = (w', s', o)) (ho : o = .preempted ∨ ∃ task, o = .suspended task)
    (ht : t ∈ (sliceStates exe budget w s).getLast?) :
    Session.Follows exe t s' ∧ s'.status = s.status := by
  induction budget generalizing w s with
  | zero => cases ht
  | succ budget ih =>
    cases hsig : (step exe w s).signal with
    | next =>
      simp only [slice, hsig] at h
      simp only [sliceStates, hsig] at ht
      cases budget with
      | zero =>
        obtain rfl : s = t := by simpa [sliceStates] using ht
        simp only [slice, Prod.mk.injEq] at h
        obtain ⟨-, rfl, -⟩ := h
        exact ⟨follows_step (.inl hsig), step_keeps.status⟩
      | succ budget =>
        have hne :
            sliceStates exe (budget + 1) (step exe w s).world (step exe w s).session ≠ [] := by
          simp [sliceStates]
        rw [List.getLast?_cons_of_ne_nil hne] at ht
        obtain ⟨hfollows, hstatus⟩ := ih h ht
        exact ⟨hfollows, hstatus.trans step_keeps.status⟩
    | suspended task =>
      simp only [slice, hsig, Prod.mk.injEq] at h
      obtain ⟨-, rfl, -⟩ := h
      obtain rfl : s = t := by simpa [sliceStates, hsig] using ht
      exact ⟨follows_step (.inr ⟨task, hsig⟩), step_keeps.status⟩
    | halted v =>
      simp only [slice, hsig, Prod.mk.injEq] at h
      obtain ⟨-, -, rfl⟩ := h
      simp at ho
    | failed e =>
      simp only [slice, hsig, Prod.mk.injEq] at h
      obtain ⟨-, -, rfl⟩ := h
      simp at ho

end Slice

namespace Scheduler

variable {exe : Executable} {settings : MachineSettings} {entry : String} {args : List Value}
  {c d : Scheduler} {id x : TaskId} {o : Outcome} {s : Session} {P : Session → Prop}

/-! ## What was done in a run -/

theorem quanta_snd (c : Scheduler) (n : Nat) : (c.quanta n).2 = c.run n := by
  induction n generalizing c with
  | zero => rfl
  | succ n ih =>
    simp only [quanta, run]
    split
    · rfl
    · exact ih _

/-- Quanta one after the other. -/
theorem quanta_add (c : Scheduler) (m n : Nat) :
    (c.quanta (m + n)).1 = (c.quanta m).1 ++ ((c.run m).quanta n).1 := by
  induction m generalizing c with
  | zero => simp [quanta, run]
  | succ m ih =>
    cases hq : c.quantum with
    | none => cases n <;> simp [quanta, run, hq]
    | some next =>
      obtain ⟨done, d⟩ := next
      rw [Nat.succ_add]
      simp only [quanta, run, hq, List.cons_append, ih d]

/-- Everything done in a run was done in a quantum of it. -/
theorem mem_quanta {n : Nat} (h : (x, o) ∈ (c.quanta n).1) :
    ∃ m d, m < n ∧ (c.run m).quantum = some ((x, o), d) := by
  induction n generalizing c with
  | zero => cases h
  | succ n ih =>
    cases hq : c.quantum with
    | none => simp [quanta, hq] at h
    | some next =>
      obtain ⟨done, d⟩ := next
      simp only [quanta, hq, List.mem_cons] at h
      rcases h with rfl | h
      · exact ⟨0, d, Nat.succ_pos n, hq⟩
      · obtain ⟨m, e, hm, hqm⟩ := ih h
        exact ⟨m + 1, e, Nat.succ_lt_succ hm, by rw [run_of_quantum hq, hqm]⟩

/-! ## What a session does in a run -/

/-- The world and the session with which a quantum begins: the session runs outside of its
world. -/
def turn? (c : Scheduler) : Option (World × Session) :=
  match c.world.queue with
  | [] => none
  | id :: queue => (c.world.session? id).map fun s =>
    ({ c.world with queue, sessions := c.world.sessions.erase id }, { s with status := .running })

def states (c : Scheduler) : List Session :=
  match c.turn? with
  | none => []
  | some (w, s) => sliceStates c.executable (max c.settings.stepLimit 1) w s

/-- The states of a session at the instructions that it executes in at most `n` quanta. -/
def history (x : TaskId) : (n : Nat) → Scheduler → List Session
  | 0, _ => []
  | n + 1, c =>
    match c.quantum with
    | none => []
    | some ((id, _), d) => (if id = x then c.states else []) ++ history x n d

theorem session?_conclude (c : Scheduler) (id : TaskId) (o : Outcome) :
    (c.conclude id o).world.session? = c.world.session? := by
  cases o <;> rfl

theorem nextId_conclude (c : Scheduler) (id : TaskId) (o : Outcome) :
    (c.conclude id o).world.nextId = c.world.nextId := by
  cases o <;> rfl

/-- A quantum is a slice of the session with which it begins, and gives the session back to the
world of the slice. -/
theorem quantum_slice (h : c.quantum = some ((id, o), d)) (hs : c.world.session? id = some s)
    (hover : s.isOver = false) :
    ∃ w w' s', c.turn? = some (w, { s with status := .running }) ∧
      slice c.executable (max c.settings.stepLimit 1) w { s with status := .running } =
        (w', s', o) ∧
      w.nextId = c.world.nextId ∧ d.world.nextId = w'.nextId ∧
      d.world.session? = Function.update w'.session? id (some (s'.marked o)) := by
  obtain ⟨queue, hqueue, h⟩ := quantum_eq_some h
  have hs' : ({ c.world with queue } : World).session? id = some s := hs
  simp only [World.runTurn, hs', hover, Bool.false_eq_true, if_false, World.runSlice,
    Prod.mk.injEq] at h
  obtain ⟨rfl, rfl⟩ := h
  refine ⟨{ c.world with queue, sessions := c.world.sessions.erase id }, _, _, ?_, rfl, rfl, ?_, ?_⟩
  · simp [turn?, hqueue, hs]
  · rw [nextId_conclude]
    rfl
  · rw [session?_conclude, World.session?_setSession]

/-- The session of a quantum after its slice. -/
theorem quantum_turn (h : c.quantum = some ((id, o), d)) (hs : c.world.session? id = some s)
    (hover : s.isOver = false) :
    ∃ w w' s', c.turn? = some (w, { s with status := .running }) ∧
      slice c.executable (max c.settings.stepLimit 1) w { s with status := .running } =
        (w', s', o) ∧
      d.world.session? id = some (s'.marked o) := by
  obtain ⟨w, w', s', hturn, hslice, -, -, hsessions⟩ := quantum_slice h hs hover
  exact ⟨w, w', s', hturn, hslice, by rw [hsessions, Function.update_self]⟩

/-- What a quantum does to a sound world: steps that leave alone what is not theirs, and an end. -/
theorem quantum_extends (sound : c.world.view.Sound) (hq : c.quantum = some ((id, o), d)) :
    ∃ V : View, View.Extends id c.world.view V ∧ V.Sound ∧ V.Running id ∧
      V.Concludes c.executable id o d.world.view := by
  obtain ⟨s, n, V, hs, hsteps, hc, -, sound', hrun⟩ := quantum_sound_spec sound hq
  exact ⟨V, (View.Extends.put _).trans (.steps hsteps), sound', hrun, hc⟩

theorem quantum_nextId (sound : c.world.view.Sound) (hq : c.quantum = some ((id, o), d)) :
    c.world.nextId ≤ d.world.nextId := by
  obtain ⟨V, extends_, -, -, hc⟩ := quantum_extends sound hq
  calc c.world.nextId
      ≤ V.nextId := extends_.nextId
    _ = d.world.nextId := hc.session.1.symm

/-- A quantum leaves other sessions as they are. -/
theorem session?_of_quantum (sound : c.world.view.Sound) (hq : c.quantum = some ((id, o), d))
    (hx : x ≠ id) (hlt : x < c.world.nextId) : d.world.session? x = c.world.session? x := by
  obtain ⟨V, extends_, -, -, hc⟩ := quantum_extends sound hq
  calc d.world.session? x
      = V.session x := hc.session.2 x hx
    _ = c.world.session? x := extends_.session hx hlt

/-- What a quantum keeps of a sound world in which all sessions have a property. -/
structure Uniform (P : Session → Prop) (c : Scheduler) : Prop where
  sound : c.world.view.Sound
  all : c.world.view.All P

/-- All sessions have the property still at the last step of a quantum. -/
theorem Uniform.steps {n : Nat} {prints : List (List Value)} {V : View}
    (inv : Session.Invariant c.executable P) (h : c.Uniform P)
    (hq : c.quantum = some ((id, o), d)) (hs : c.world.session? id = some s)
    (hsteps : View.Steps c.executable id n prints
      (c.world.view.put id { s with status := .running }) V) : V.All P := by
  obtain ⟨queue, hqueue, -⟩ := quantum_eq_some hq
  obtain ⟨s', hs', hid, hover, -⟩ := quantum_runs h.sound hq
  obtain rfl : s = s' := by simpa [hs] using hs'
  obtain ⟨sound, hrun⟩ := sound_running h.sound hqueue hid
  exact (h.all.put (inv.mark (h.all hs) hover)).steps inv sound hrun hsteps

theorem Uniform.quantum (inv : Session.Invariant c.executable P) (h : c.Uniform P)
    (hq : c.quantum = some ((id, o), d)) : d.Uniform P := by
  obtain ⟨s, n, V, hs, hsteps, hc, -, -, hrun⟩ := quantum_sound_spec h.sound hq
  exact ⟨quantum_sound h.sound hq, (h.steps inv hq hs hsteps).concludes inv hrun hc⟩

theorem Uniform.start (h : start { executable := exe, settings } entry args = .ok (id, c))
    (hfirst : ∀ info bindings, exe.function? entry = some info →
      P { id := 0, ip := info.location, activations := [{ function := entry, bindings }] }) :
    c.Uniform P := by
  refine ⟨start_sound h, ?_⟩
  obtain ⟨info, bindings, hf, -, -, -, -, -, hview⟩ := start_view h
  rw [hview]
  refine View.All.spawn (fun x s hs => ?_) (hfirst info bindings hf)
  cases hs

/-- What every step keeps of each session, every run of a started program keeps. -/
theorem run_all (inv : Session.Invariant exe P)
    (h : Scheduler.start { executable := exe, settings } entry args = .ok (id, c))
    (hfirst : ∀ info bindings, exe.function? entry = some info →
      P { id := 0, ip := info.location, activations := [{ function := entry, bindings }] })
    (n : Nat) : (c.run n).executable = exe ∧ (c.run n).Uniform P := by
  refine run_induction (P := fun c => c.executable = exe ∧ c.Uniform P) ?_ n
    ⟨(start_view h).choose_spec.choose_spec.2.2.2.1, .start h hfirst⟩
  rintro c d id o ⟨rfl, uniform⟩ hq
  exact ⟨(quantum_fields hq).1, uniform.quantum inv hq⟩

/-- What every step keeps holds of all states of a history. -/
theorem history_all (inv : Session.Invariant c.executable P) (h : c.Uniform P) {n : Nat}
    (hs : s ∈ c.history x n) : P s ∧ s.status = .running := by
  induction n generalizing c with
  | zero => cases hs
  | succ n ih =>
    cases hq : c.quantum with
    | none => simp [history, hq] at hs
    | some next =>
      obtain ⟨⟨id, o⟩, d⟩ := next
      simp only [history, hq] at hs
      rcases List.mem_append.mp hs with hs | hs
      · split at hs
        · obtain ⟨s₀, hs₀, -, hover, -⟩ := quantum_runs h.sound hq
          obtain ⟨w, w', s', hturn, -⟩ := quantum_turn hq hs₀ hover
          simp only [states, hturn] at hs
          exact inv.sliceStates (inv.mark (h.all hs₀) hover) rfl hs
        · cases hs
      · exact ih ((quantum_fields hq).1 ▸ inv) (h.quantum inv hq) hs

/-- In a history each state follows from the one before it, and the first one is the session at
the beginning. -/
theorem history_chain (sound : c.world.view.Sound) (x : TaskId) (n : Nat) :
    (c.history x n).IsChain (Session.Follows c.executable) ∧
      ∀ s, c.world.session? x = some s → ∀ t ∈ (c.history x n).head?,
        t = { s with status := .running } ∧ s.isOver = false := by
  induction n generalizing c with
  | zero => exact ⟨.nil, nofun⟩
  | succ n ih =>
    cases hq : c.quantum with
    | none =>
      simp only [history, hq]
      exact ⟨.nil, nofun⟩
    | some next =>
      obtain ⟨⟨id, o⟩, d⟩ := next
      simp only [history, hq]
      obtain ⟨chain, head⟩ := ih (quantum_sound sound hq)
      rw [(quantum_fields hq).1] at chain
      by_cases hid : id = x
      · subst hid
        obtain ⟨s, hs, hown, hover, -⟩ := quantum_runs sound hq
        obtain ⟨w, w', s', hturn, hslice, hstored⟩ := quantum_turn hq hs hover
        have hstates : c.states = sliceStates c.executable (max c.settings.stepLimit 1) w
            { s with status := .running } := by
          simp [states, hturn]
        rw [if_pos rfl, hstates]
        refine ⟨List.isChain_append.mpr ⟨chain_sliceStates _ _ _ _, chain, fun t ht u hu => ?_⟩, ?_⟩
        · obtain ⟨rfl, hover'⟩ := head _ hstored u hu
          cases o with
          | preempted =>
            obtain ⟨hfollows, hstatus⟩ := follows_slice hslice (.inl rfl) ht
            rwa [← Session.eq_of_running hstatus] at hfollows
          | suspended task =>
            obtain ⟨hfollows, hstatus⟩ := follows_slice hslice (.inr ⟨task, rfl⟩) ht
            rwa [← Session.eq_of_running hstatus] at hfollows
          | halted v => simp [Session.marked, Session.isOver] at hover'
          | failed e => simp [Session.marked, Session.isOver] at hover'
        · intro s₀ hs₀ t ht
          obtain rfl : s = s₀ := by simpa [hs] using hs₀
          have hpos : sliceStates c.executable (max c.settings.stepLimit 1) w
              { s with status := .running } ≠ [] := by
            have : max c.settings.stepLimit 1 = (max c.settings.stepLimit 1 - 1) + 1 := by omega
            rw [this]
            simp [sliceStates]
          rw [List.head?_append_of_ne_nil _ hpos] at ht
          exact ⟨head?_sliceStates ht, hover⟩
      · rw [if_neg hid, List.nil_append]
        refine ⟨chain, fun s hs => head s ?_⟩
        rw [session?_of_quantum sound hq (Ne.symm hid) (sound.fits hs).below, hs]

end Scheduler

end Teal
