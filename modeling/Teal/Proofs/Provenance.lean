import Teal.Proofs.Placement

/-!
# Where values come from

Sessions make values of their own, but not all: a future is made with its task only, a function
or a closure is made of a name that the program knows, and arithmetic gives finite doubles. Any
other value that is met in a world came in with the arguments, is a constant of the program or
is the handle of a task that was started.

## Main definitions

* `Executable.CannotMake`: no session makes a value by itself.
* `View.Mentions`: a value occurs somewhere in a world.
* `View.Drawn`: such values of a world come from admitted ones, from constants or from tasks.

## Main statements

* `View.mentions_step`, `View.mentions_concludes`: what one step adds, and the end of a quantum.
* `Scheduler.run_drawn`: every run of a started program.
-/

namespace Teal

/-- No session makes a value by itself. -/
def Executable.CannotMake (exe : Executable) (u : Value) : Prop :=
  ∀ s, ¬ exe.Makes s u

namespace Executable.CannotMake

variable {exe : Executable}

theorem future (t : TaskId) : exe.CannotMake (.future t) :=
  fun _ => not_makes_future

theorem function {name : String} (hf : exe.function? name = none)
    (hb : Builtin.ofName? name = none) : exe.CannotMake (.function name) := by
  simp [CannotMake, Makes, hf, hb]

theorem closure {name : String} (hf : exe.function? name = none)
    (captured : List (String × Value)) : exe.CannotMake (.closure name captured) := by
  simp [CannotMake, Makes, hf]

theorem float {x : Float} (hx : x.isFinite = false) : exe.CannotMake (.float x) := by
  simp [CannotMake, Makes, hx]

end Executable.CannotMake

def Session.Shows (s : Session) (u : Value) : Prop :=
  s.Holds u ∨ ∃ v, s.result = some v ∧ u.Part v

/-- A session with the result of another shows what it holds and what the other shows. -/
theorem Session.Shows.of_result {s t : Session} {u : Value} (h : t.Shows u)
    (hresult : t.result = s.result) : t.Holds u ∨ s.Shows u := by
  rcases h with h | h
  · exact .inl h
  · exact .inr (.inr (hresult ▸ h))

namespace View

def Mentions (V : View) (u : Value) : Prop :=
  (∃ x s, V.session x = some s ∧ s.Shows u) ∨
    ∃ t v, V.task t = some (.resolved v) ∧ u.Part v

variable {V V' : View} {id : TaskId} {s t : Session} {u : Value}

theorem mentions_of_holds (hs : V.session id = some s) (h : s.Holds u) : V.Mentions u :=
  .inl ⟨id, s, hs, .inl h⟩

theorem mentions_put (h : (V.put id t).Mentions u) : t.Shows u ∨ V.Mentions u := by
  rcases h with ⟨x, s, hs, h⟩ | h
  · rw [put_session] at hs
    split at hs
    · cases hs
      exact .inl h
    · exact .inr (.inl ⟨x, s, hs, h⟩)
  · exact .inr (.inr h)

theorem mentions_spawn {ip : Nat} {first : Activation} (h : (V.spawn ip first).Mentions u) :
    u.Bound first.bindings ∨ V.Mentions u := by
  rcases h with ⟨x, s, hs, h⟩ | ⟨x, v, hv, h⟩
  · rw [spawn_session] at hs
    split at hs
    · cases hs
      rcases h with (h | ⟨a, ha, h⟩) | ⟨v, hv, -⟩
      · exact absurd h Value.within_nil
      · exact .inl (List.mem_singleton.mp ha ▸ h)
      · cases hv
    · exact .inr (.inl ⟨x, s, hs, h⟩)
  · rw [spawn_task] at hv
    split at hv
    · cases hv
    · exact .inr (.inr ⟨x, v, hv, h⟩)

theorem mentions_addSettled {v : Value} (h : (V.addSettled v).Mentions u) :
    u.Part v ∨ V.Mentions u := by
  rcases h with h | ⟨x, w, hw, h⟩
  · exact .inr (.inl h)
  · rw [addSettled_task] at hw
    split at hw
    · cases hw
      exact .inl h
    · exact .inr (.inr ⟨x, w, hw, h⟩)

theorem mentions_finish {outcome : TaskState} {queue : List TaskId}
    (h : (V.finish id t outcome queue).Mentions u) :
    t.Shows u ∨ (∃ v, outcome = .resolved v ∧ u.Part v) ∨ V.Mentions u := by
  rcases h with ⟨x, s, hs, h⟩ | ⟨x, v, hv, h⟩
  · rw [finish_session] at hs
    split at hs
    · cases hs
      exact .inl h
    · exact .inr (.inr (.inl ⟨x, s, hs, h⟩))
  · rw [finish_task] at hv
    split at hv
    · exact .inr (.inl ⟨v, Option.some.inj hv, h⟩)
    · exact .inr (.inr (.inr ⟨x, v, hv, h⟩))

theorem mentions_suspend {task : TaskId} {queue : List TaskId}
    (h : (V.suspend id s task queue).Mentions u) : s.Shows u ∨ V.Mentions u := by
  rcases h with ⟨x, t, ht, h⟩ | ⟨x, v, hv, h⟩
  · rw [suspend_session] at ht
    split at ht
    · cases ht
      exact .inl h
    · exact .inr (.inl ⟨x, t, ht, h⟩)
  · simp only [suspend, Function.update_apply] at hv
    split at hv
    · cases hv
    · exact .inr (.inr ⟨x, v, hv, h⟩)

section Steps

variable {exe : Executable}

/-- What the request of a session holds, its view mentions, or it is a constant. -/
theorem mentions_of_request (hs : V.session id = some s) (hu : ¬ exe.Makes s u)
    (h : (request exe s).Holds u) : V.Mentions u ∨ exe.Mentions u :=
  (request_holds hu h).imp_left (mentions_of_holds hs)

/-- The session of a request shows what its view mentions, constants and what is pushed on it. -/
theorem mentions_of_push {k : TaskId} (hs : V.session id = some s) (hresult : t.result = s.result)
    (holds : t.Holds u → V.Mentions u ∨ exe.Mentions u) (h : (t.push (.future k)).Shows u) :
    V.Mentions u ∨ exe.Mentions u ∨ u = .future k := by
  rcases h.of_result (s := s) hresult with (h | h) | h
  · rcases Value.within_cons.mp h with h | h
    · exact .inr (.inr (Value.part_future.mp h))
    · exact (holds (.inl h)).imp_right .inl
  · exact (holds (.inr h)).imp_right .inl
  · exact .inl (.inl ⟨id, s, hs, h⟩)

/-- A step adds constants of the program, the handle of a new task and what its session makes. -/
theorem mentions_step (hstep : V.Step exe id V') (hs : V.session id = some s)
    (hu : ¬ exe.Makes s u) (hm : V'.Mentions u) :
    V.Mentions u ∨ exe.Mentions u ∨ ∃ k < V'.nextId, u = .future k := by
  have keeps := request_keeps exe s
  have request := mentions_of_request hs hu
  have new (h : V.Mentions u ∨ exe.Mentions u ∨ u = .future V.nextId) :
      V.Mentions u ∨ exe.Mentions u ∨ ∃ k < V.nextId + 1, u = .future k :=
    h.imp_right (.imp_right fun h => ⟨V.nextId, Nat.lt_succ_self _, h⟩)
  cases hstep with
  | goOn hs' hr =>
    obtain rfl : s = _ := by simpa [hs] using hs'
    rw [hr] at keeps request
    rcases mentions_put hm with hm | hm
    · rcases hm.of_result (s := s) keeps.result with hm | hm
      · exact (request (.inl hm)).imp_right .inl
      · exact .inl (.inl ⟨id, s, hs, hm⟩)
    · exact .inl hm
  | spawn hs' hr =>
    obtain rfl : s = _ := by simpa [hs] using hs'
    rw [hr] at keeps request
    rcases mentions_put hm with hm | hm
    · exact new (mentions_of_push hs keeps.result (fun h => request (.inl h)) hm)
    · rcases mentions_spawn hm with hm | hm
      · exact (request (.inr (.inr hm))).imp_right .inl
      · exact .inl hm
  | settle hs' hr =>
    obtain rfl : s = _ := by simpa [hs] using hs'
    rw [hr] at keeps request
    rcases mentions_put hm with hm | hm
    · exact new (mentions_of_push hs keeps.result (fun h => request (.inl h)) hm)
    · rcases mentions_addSettled hm with hm | hm
      · exact (request (.inr (.inr hm))).imp_right .inl
      · exact .inl hm
  | @resume _ task rest v hs' hr ht =>
    obtain rfl : s = _ := by simpa [hs] using hs'
    obtain ⟨-, hstack⟩ := request_await hr
    refine .inl ?_
    rcases mentions_put hm with ((hm | hm) | hm) | hm
    · rcases Value.within_cons.mp hm with hm | hm
      · exact .inr ⟨task, v, ht, hm⟩
      · exact mentions_of_holds hs (.inl (hstack ▸ Value.within_cons.mpr (.inr hm)))
    · exact mentions_of_holds hs (.inr hm)
    · exact .inl ⟨id, s, hs, .inr hm⟩
    · exact hm

/-- A session that fails leaves no more than it held. -/
theorem mentions_of_fails {e : MachineError} (hs : V.session id = some s)
    (hu : ¬ exe.Makes s u) (hf : V.Fails exe s t e) (h : t.Holds u) :
    V.Mentions u ∨ exe.Mentions u := by
  cases hf with
  | itself hr =>
    have request := mentions_of_request hs hu
    rw [hr] at request
    exact request (.inl h)
  | awaited hr | unknown hr =>
    obtain ⟨-, hstack⟩ := request_await hr
    refine .inl (mentions_of_holds hs (h.imp_left fun h => ?_))
    exact hstack ▸ Value.within_cons.mpr (.inr h)

/-- The end of a quantum adds constants of the program and what its session makes. -/
theorem mentions_concludes {o : Outcome} (hc : V.Concludes exe id o V')
    (hs : V.session id = some s) (hu : ¬ exe.Makes s u) (hm : V'.Mentions u) :
    V.Mentions u ∨ exe.Mentions u := by
  cases hc with
  | preempted hq => exact .inl hm
  | halted hq hs' hr =>
    obtain rfl : s = _ := by simpa [hs] using hs'
    have request := mentions_of_request hs hu
    rw [hr] at request
    rcases mentions_finish hm with (hm | ⟨w, hw, hm⟩) | ⟨w, hw, hm⟩ | hm
    · exact request (.inl hm)
    · cases hw
      exact request (.inr (.inr hm))
    · cases hw
      exact request (.inr (.inr hm))
    · exact .inl hm
  | failed hq hs' hf =>
    obtain rfl : s = _ := by simpa [hs] using hs'
    rcases mentions_finish hm with hm | ⟨w, hw, -⟩ | hm
    · rcases hm.of_result (s := s) (Sound.fails_keeps hf).result with hm | hm
      · exact mentions_of_fails hs hu hf hm
      · exact .inl (.inl ⟨id, s, hs, hm⟩)
    · cases hw
    · exact .inl hm
  | suspended hq hs' hr ht =>
    obtain rfl : s = _ := by simpa [hs] using hs'
    rcases mentions_suspend hm with hm | hm
    · exact .inl (.inl ⟨id, s, hs, hm⟩)
    · exact .inl hm

/-- Marking a session adds no values. -/
theorem mentions_put_status (hs : V.session id = some s) (status : Session.Status)
    (hm : (V.put id { s with status }).Mentions u) : V.Mentions u := by
  rcases mentions_put hm with hm | hm
  · exact .inl ⟨id, s, hs, hm⟩
  · exact hm

end Steps

/-- The values that no session makes by itself are admitted, constants of the program or handles
of tasks that there are. -/
def Drawn (exe : Executable) (admitted : Value → Prop) (V : View) : Prop :=
  ∀ u, exe.CannotMake u → V.Mentions u →
    admitted u ∨ exe.Mentions u ∨ ∃ k < V.nextId, u = .future k

namespace Drawn

variable {exe : Executable} {admitted : Value → Prop}

/-- New values of a view are constants or handles of its tasks. -/
theorem of_mentions (h : V.Drawn exe admitted) (hn : V.nextId ≤ V'.nextId)
    (new : ∀ u, exe.CannotMake u → V'.Mentions u →
      V.Mentions u ∨ exe.Mentions u ∨ ∃ k < V'.nextId, u = .future k) :
    V'.Drawn exe admitted := by
  intro u hu hm
  rcases new u hu hm with hm | hm
  · rcases h u hu hm with h | h | ⟨k, hk, h⟩
    · exact .inl h
    · exact .inr (.inl h)
    · exact .inr (.inr ⟨k, Nat.lt_of_lt_of_le hk hn, h⟩)
  · exact .inr hm

theorem step (h : V.Drawn exe admitted) (hstep : V.Step exe id V') : V'.Drawn exe admitted := by
  obtain ⟨s, hs, hn⟩ : ∃ s, V.session id = some s ∧ V.nextId ≤ V'.nextId := by
    cases hstep with
    | goOn hs | resume hs => exact ⟨_, hs, Nat.le_refl _⟩
    | spawn hs | settle hs => exact ⟨_, hs, Nat.le_succ _⟩
  exact h.of_mentions hn fun u hu hm => mentions_step hstep hs (hu s) hm

theorem steps {n : Nat} {prints : List (List Value)} (h : V.Drawn exe admitted)
    (hsteps : View.Steps exe id n prints V V') : V'.Drawn exe admitted :=
  hsteps.preserves (fun h hstep => h.step hstep) h

theorem concludes {o : Outcome} (h : V.Drawn exe admitted) (hrun : V.Running id)
    (hc : V.Concludes exe id o V') : V'.Drawn exe admitted := by
  obtain ⟨⟨s, hs, -⟩, -⟩ := hrun
  have hn : V.nextId ≤ V'.nextId := by cases hc <;> exact Nat.le_refl _
  exact h.of_mentions hn fun u hu hm =>
    (mentions_concludes hc hs (hu s) hm).imp_right .inl

theorem put_status (h : V.Drawn exe admitted) (hs : V.session id = some s)
    (status : Session.Status) : (V.put id { s with status }).Drawn exe admitted :=
  h.of_mentions (Nat.le_refl _) fun _ _ hm => .inl (mentions_put_status hs status hm)

end Drawn

end View

namespace Scheduler

variable {exe : Executable} {settings : MachineSettings} {entry : String} {args : List Value}
  {c d : Scheduler} {id : TaskId} {o : Outcome} {admitted : Value → Prop}

/-- What quanta keep of a sound world whose values are drawn from admitted ones. -/
structure Draws (admitted : Value → Prop) (c : Scheduler) : Prop where
  sound : c.world.view.Sound
  drawn : c.world.view.Drawn c.executable admitted

/-- At the last step of a quantum the values are still drawn from admitted ones. -/
theorem Draws.steps {s : Session} {n : Nat} {prints : List (List Value)} {V : View}
    (h : c.Draws admitted) (hs : c.world.session? id = some s)
    (hsteps : View.Steps c.executable id n prints
      (c.world.view.put id { s with status := .running }) V) :
    V.Drawn c.executable admitted :=
  (h.drawn.put_status hs .running).steps hsteps

theorem Draws.quantum (h : c.Draws admitted) (hq : c.quantum = some ((id, o), d)) :
    d.Draws admitted := by
  obtain ⟨s, n, V, hs, hsteps, hc, -, -, hrun⟩ := quantum_sound_spec h.sound hq
  exact ⟨quantum_sound h.sound hq, (quantum_fields hq).1 ▸ (h.steps hs hsteps).concludes hrun hc⟩

theorem Draws.start (h : start { executable := exe, settings } entry args = .ok (id, c)) :
    c.Draws fun u => u.Within args := by
  refine ⟨start_sound h, fun u _ hm => .inl ?_⟩
  obtain ⟨info, bindings, -, hb, -, -, -, -, hview⟩ := start_view h
  rw [hview] at hm
  rcases View.mentions_spawn hm with hm | ⟨x, s, hs, -⟩ | ⟨x, v, hv, -⟩
  · exact (part_argumentBindings hb hm).resolve_right (by simp)
  · cases hs
  · cases hv

/-- In every run of a started program the values that no session makes are those of its
arguments, constants of the program and handles of tasks that were started. -/
theorem run_drawn (h : Scheduler.start { executable := exe, settings } entry args = .ok (id, c))
    (n : Nat) : (c.run n).Draws fun u => u.Within args :=
  run_induction (P := Draws _) (fun h hq => h.quantum hq) n (.start h)

end Scheduler

end Teal
