import Teal.Proofs.Discipline

/-!
# What bindings have in common

There are few ways in which bindings come about: a function is entered with what was captured and
with its arguments on top, and a name is bound over what stands in the latest activation. A closure
captures the bindings of the activation that makes it, and no value changes on its way from one
session to another. So a property of bindings that those ways keep is one of all bindings in a run,
those that are captured included.

## Main definitions

* `View.Invariant`: a property of views that steps and conclusions keep.
* `Executable.Keeps`: the code of a program keeps a property of bindings.
* `Session.AllBindings`, `View.AllBindings`: all bindings of a session, and of a view, have a
  property.

## Main statements

* `Scheduler.exists_view_of_history`: the states of a history stand in views.
* `Scheduler.allBindings_of_history`: the bindings in every run of a started program.
-/

namespace Teal

/-! ## Properties of views -/

/-- A property of views that every step of a session keeps, and the beginning and the end of every
quantum. -/
structure View.Invariant (exe : Executable) (P : View → Prop) : Prop where
  mark {V : View} {id : TaskId} {s : Session} : P V → V.session id = some s →
    P (V.put id { s with status := .running })
  step {V V' : View} {id : TaskId} : P V → V.Step exe id V' → P V'
  concludes {V V' : View} {id : TaskId} {o : Outcome} : P V → V.Running id →
    V.Concludes exe id o V' → P V'

theorem View.Invariant.steps {exe : Executable} {P : View → Prop} (inv : View.Invariant exe P)
    {V V' : View} {id : TaskId} {n : Nat} {prints : List (List Value)} (h : P V)
    (hsteps : View.Steps exe id n prints V V') : P V' :=
  hsteps.preserves inv.step h

/-- The states of a slice are those of its session after some steps. -/
theorem steps_of_mem_sliceStates {exe : Executable} {budget : Nat} {w : World} {s t : Session}
    (ht : t ∈ sliceStates exe budget w s) :
    ∃ n prints, ∃ w' : World,
      View.Steps exe s.id n prints (w.viewWith s) (w'.viewWith t) ∧ t.id = s.id := by
  induction budget generalizing w s with
  | zero => cases ht
  | succ budget ih =>
    simp only [sliceStates, List.mem_cons] at ht
    rcases ht with rfl | ht
    · exact ⟨0, [], w, .refl _, rfl⟩
    · split at ht
      · next hsig =>
        have hs : (w.viewWith s).session s.id = some s := by simp [World.viewWith]
        have hkept : (step exe w s).session.id = s.id := step_keeps.id
        obtain ⟨n, prints, w', hsteps, hid⟩ := ih ht
        rw [hkept] at hsteps hid
        exact ⟨n + 1, _, w', .head hs (viewWith_step hsig) hsteps, hid⟩
      · cases ht

namespace Scheduler

variable {exe : Executable} {settings : MachineSettings} {entry : String} {args : List Value}
  {c d : Scheduler} {id x : TaskId} {o : Outcome} {s : Session} {P : View → Prop}

theorem quantum_view (inv : View.Invariant c.executable P) (sound : c.world.view.Sound)
    (h : P c.world.view) (hq : c.quantum = some ((id, o), d)) : P d.world.view := by
  obtain ⟨s, n, V, hs, hsteps, hc, -, -, hrun⟩ := quantum_sound_spec sound hq
  exact inv.concludes (inv.steps (inv.mark h hs) hsteps) hrun hc

/-- What steps keep of views holds along a run. -/
theorem run_view (inv : View.Invariant exe P)
    (h : start { executable := exe, settings } entry args = .ok (id, c))
    (hfirst : P c.world.view) (n : Nat) : P (c.run n).world.view := by
  have hexe : c.executable = exe := (start_view h).choose_spec.choose_spec.2.2.2.1
  refine (run_induction (P := fun c => c.executable = exe ∧ c.world.view.Sound ∧ P c.world.view) ?_
    n ⟨hexe, start_sound h, hfirst⟩).2.2
  rintro c d id o ⟨rfl, sound, hview⟩ hq
  exact ⟨(quantum_fields hq).1, quantum_sound sound hq, quantum_view inv sound hview hq⟩

/-- Every state of a history stands in a view that steps and conclusions lead to. -/
theorem exists_view_of_history (inv : View.Invariant c.executable P) (sound : c.world.view.Sound)
    (h : P c.world.view) {n : Nat} (hs : s ∈ c.history x n) :
    ∃ V : View, P V ∧ V.session x = some s := by
  induction n generalizing c with
  | zero => cases hs
  | succ n ih =>
    cases hq : c.quantum with
    | none => simp [history, hq] at hs
    | some next =>
      obtain ⟨⟨id, o⟩, d⟩ := next
      simp only [history, hq] at hs
      rcases List.mem_append.mp hs with hmem | hmem
      · split at hmem
        · next hid =>
          subst hid
          obtain ⟨s₀, hs₀, hown, hover, -⟩ := quantum_runs sound hq
          obtain ⟨queue, hqueue, -⟩ := quantum_eq_some hq
          subst hown
          let w : World := { c.world with queue, sessions := c.world.sessions.erase s₀.id }
          have hturn : c.turn? = some (w, { s₀ with status := .running }) := by
            simp [turn?, hqueue, hs₀, w]
          simp only [states, hturn] at hmem
          obtain ⟨k, prints, w', hsteps, hsid⟩ := steps_of_mem_sliceStates hmem
          have hbegin := World.viewWith_erase (s := { s₀ with status := .running }) hqueue
          rw [hbegin] at hsteps
          exact ⟨_, inv.steps (inv.mark h hs₀) hsteps, by simp [World.viewWith, hsid]⟩
        · cases hmem
      · exact ih ((quantum_fields hq).1 ▸ inv) (quantum_sound sound hq)
          (quantum_view inv sound h hq) hmem

end Scheduler

/-! ## Properties of bindings -/

/-- The code of a program keeps a property of bindings: those that nothing was captured in have it,
and binding a name that the code binds, or that a function has as a parameter, does not change
it. -/
structure Executable.Keeps (exe : Executable) (P : Bindings → Prop) : Prop where
  nil : P []
  bind {i : Instruction} {name : String} {b : Bindings} (v : Value) :
    i ∈ exe.code → i.op = .bind name → P b → P (b.insert name v)
  param {function name : String} {info : FunctionEntry} {b : Bindings} (v : Value) :
    exe.function? function = some info → name ∈ info.params → P b → P (b.insert name v)

def Session.AllBindings (P : Bindings → Prop) (s : Session) : Prop :=
  ∀ a ∈ s.activations, P a.bindings

def Request.AllBindings (P : Bindings → Prop) (r : Request) : Prop :=
  r.session.AllBindings P ∧ match r with
    | .spawn _ _ first => P first.bindings
    | _ => True

section Requests

variable {P : Bindings → Prop} {exe : Executable} {s t : Session}

/-- A call of a function has such bindings, whatever was captured. -/
theorem Executable.Keeps.call (keeps : exe.Keeps P) {count : Int} {call : TakenCall}
    {keywords : List Value} {name : String} {info : FunctionEntry} {b : Bindings}
    (htake : takeCall count s.stack = .ok call)
    (h : call.effect exe keywords = .ok (.enters name info b))
    (closures : ∀ name captured, s.Holds (.closure name captured) → P captured) : P b := by
  obtain ⟨captured, hres, hb⟩ := TakenCall.bindings_of_effect h
  have hcaptured : P captured := by
    obtain ⟨hcallee, -, -⟩ := takeCall_subset htake
    unfold Callee.resolve at hres
    split at hres
    · split at hres <;> cases hres
      exact keeps.nil
    · next hc =>
      split at hres <;> cases hres
      exact closures name captured (.inl ⟨_, hcallee, hc ▸ .self⟩)
    · cases hres
  exact argumentBindings_induct hb
    (fun param hparam v _ b => keeps.param v (resolve_compiled hres) hparam) hcaptured

/-- A request keeps the property of the bindings. -/
theorem request_allBindings (keeps : exe.Keeps P) (all : s.AllBindings P)
    (closures : ∀ name captured, s.Holds (.closure name captured) → P captured) :
    (request exe s).AllBindings P := by
  have split {latest : Activation} {callers : List Activation}
      (ha : s.activations = latest :: callers) :
      P latest.bindings ∧ ∀ a ∈ callers, P a.bindings := by
    rwa [Session.AllBindings, ha, List.forall_mem_cons] at all
  rcases request_rule exe s with ⟨i, hi, -, rule⟩ | hr
  · generalize hop : i.op = op, request exe s = r at rule
    cases rule with
    | bind _ ha =>
      obtain ⟨hlatest, hcallers⟩ := split ha
      exact ⟨List.forall_mem_cons.mpr ⟨keeps.bind _ hi hop hlatest, hcallers⟩, trivial⟩
    | entered htake heffect =>
      exact ⟨List.forall_mem_cons.mpr ⟨keeps.call htake heffect closures, all⟩, trivial⟩
    | started htake heffect => exact ⟨all, keeps.call htake heffect closures⟩
    | back _ ha | halt _ ha => exact ⟨(split ha).2, trivial⟩
    | _ => exact ⟨all, trivial⟩
  · rw [hr]
    exact ⟨all, trivial⟩

end Requests

namespace View

/-- All bindings of the sessions of a view have a property, and those that closures captured. -/
structure AllBindings (P : Bindings → Prop) (V : View) : Prop where
  sessions : V.All (Session.AllBindings P)
  closures {name : String} {captured : List (String × Value)} :
    V.Mentions (.closure name captured) → P captured

variable {P : Bindings → Prop} {exe : Executable} {V V' : View} {id : TaskId} {s : Session}

/-- Where the only new closures are constants and those that a session makes, all captured bindings
have the property still. -/
theorem captured_of_mentions
    (closures : ∀ name captured, V.Mentions (.closure name captured) → P captured)
    (own : s.AllBindings P)
    (constants : ∀ name captured, exe.Mentions (.closure name captured) → P captured)
    (new : ∀ u, ¬ exe.Makes s u → V'.Mentions u →
      V.Mentions u ∨ exe.Mentions u ∨ ∃ k < V'.nextId, u = .future k)
    {name : String} {captured : List (String × Value)}
    (h : V'.Mentions (.closure name captured)) : P captured := by
  -- a closure that the session makes captures the bindings of its activation
  by_cases made : exe.Makes s (.closure name captured)
  · obtain ⟨a, ha, rfl⟩ := Option.map_eq_some_iff.mp made.2
    exact own a (List.mem_of_mem_head? ha)
  · rcases new _ made h with h | h | ⟨k, -, hk⟩
    · exact closures _ _ h
    · exact constants _ _ h
    · cases hk

namespace AllBindings

theorem request (h : V.AllBindings P) (keeps : exe.Keeps P) (hs : V.session id = some s) :
    (Teal.request exe s).AllBindings P :=
  request_allBindings keeps (h.sessions hs) fun _ _ hm => h.closures (mentions_of_holds hs hm)

theorem invariant (keeps : exe.Keeps P)
    (constants : ∀ name captured, exe.Mentions (.closure name captured) → P captured) :
    View.Invariant exe (View.AllBindings P) where
  mark h hs := ⟨h.sessions.put fun a => h.sessions hs a,
    fun hm => h.closures (mentions_put_status hs _ hm)⟩
  step {V V' id} h hstep := by
    obtain ⟨s, hs⟩ : ∃ s, V.session id = some s := by cases hstep <;> exact ⟨_, ‹_›⟩
    refine ⟨?_, captured_of_mentions (fun _ _ => h.closures) (h.sessions hs) constants
      fun u hu hm => mentions_step hstep hs hu hm⟩
    cases hstep with
    | goOn hs hr =>
      have all := h.request keeps hs
      rw [hr] at all
      exact h.sessions.put all.1
    | spawn hs hr =>
      have all := h.request keeps hs
      rw [hr] at all
      exact All.put (h.sessions.spawn (List.forall_mem_singleton.mpr all.2)) all.1
    | settle hs hr =>
      have all := h.request keeps hs
      rw [hr] at all
      exact All.put h.sessions all.1
    | resume hs => exact h.sessions.put fun a => h.sessions hs a
  concludes {V V' id o} h hrun hc := by
    obtain ⟨⟨s, hs, -⟩, -⟩ := hrun
    refine ⟨?_, captured_of_mentions (fun _ _ => h.closures) (h.sessions hs) constants
      fun u hu hm => (mentions_concludes hc hs hu hm).imp_right .inl⟩
    cases hc with
    | preempted => exact h.sessions
    | halted _ hs hr =>
      have all := h.request keeps hs
      rw [hr] at all
      exact h.sessions.finish all.1
    | failed _ hs hf =>
      refine h.sessions.finish ?_
      cases hf with
      | itself hr =>
        have all := h.request keeps hs
        rw [hr] at all
        exact all.1
      | awaited | unknown => exact fun a => h.sessions hs a
    | suspended _ hs => exact h.sessions.suspend fun a => h.sessions hs a

end AllBindings

end View

namespace Scheduler

variable {P : Bindings → Prop} {exe : Executable} {settings : MachineSettings} {entry : String}
  {args : List Value} {c : Scheduler} {id x : TaskId} {s : Session}

/-- A program starts with such bindings if its arguments capture no others. -/
theorem start_allBindings (keeps : exe.Keeps P)
    (hargs : ∀ name captured, Value.Within (.closure name captured) args → P captured)
    (h : start { executable := exe, settings } entry args = .ok (id, c)) :
    c.world.view.AllBindings P := by
  obtain ⟨info, bindings, hf, hb, -, -, -, -, hview⟩ := start_view h
  rw [hview]
  refine ⟨View.All.spawn nofun ?_, fun {name captured} hm => ?_⟩
  · exact List.forall_mem_singleton.mpr (argumentBindings_induct hb
      (fun param hparam v _ b => keeps.param v hf hparam) keeps.nil)
  · rcases View.mentions_spawn hm with hm | ⟨x, s, hs, -⟩ | ⟨x, v, hv, -⟩
    · exact hargs _ _ ((part_argumentBindings hb hm).resolve_right (by simp))
    · cases hs
    · cases hv

/-- All bindings in a history of a started program have a property that its code keeps. -/
theorem allBindings_of_history (keeps : exe.Keeps P)
    (constants : ∀ name captured, exe.Mentions (.closure name captured) → P captured)
    (hargs : ∀ name captured, Value.Within (.closure name captured) args → P captured)
    (h : start { executable := exe, settings } entry args = .ok (id, c)) {n : Nat}
    (hs : s ∈ c.history x n) : s.AllBindings P := by
  have hexe : c.executable = exe := (start_view h).choose_spec.choose_spec.2.2.2.1
  have inv := View.AllBindings.invariant keeps constants
  obtain ⟨V, all, hV⟩ := exists_view_of_history (hexe.symm ▸ inv) (start_sound h)
    (start_allBindings keeps hargs h) hs
  exact all.sessions hV

end Scheduler

end Teal
