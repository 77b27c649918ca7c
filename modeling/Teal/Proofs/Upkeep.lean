import Teal.Proofs.Deadlock
import Teal.Proofs.Scopes
import Teal.Proofs.Storage

/-!
# What runs keep of their worlds

The tables of a world stay in order, its bindings and those captured by closures too, and its
pointers stay inside the code. So the worlds of a run can be stored as long as their numbers have
64 bits.

## Main definitions

* `Executable.Finite`, `Executable.Sized`: what is asked of a program.
* `View.Orderly`: bindings are in order and pointers have 64 bits.

## Main statements

* `Scheduler.run_regular`, `Scheduler.run_finite`: documents of the worlds of a run.
* `Scheduler.run_storable`: their texts.
-/

namespace Teal

def Value.Finite (v : Value) : Prop :=
  ∀ x, Part (.float x) v → x.isFinite = true

def Executable.Finite (exe : Executable) : Prop :=
  ∀ i ∈ exe.code, ∀ v, i.op = .pushValue v → v.Finite

/-! ## The tables of a run -/

namespace World.Sorted

variable {w : World}

theorem spawn (h : w.Sorted) (ip : Nat) (first : Activation) : (w.spawn ip first).2.Sorted :=
  ⟨Table.ordered_insert h.sessions _ _, Table.ordered_insert h.tasks _ _⟩

theorem addSettled (h : w.Sorted) (outcome : TaskState) : (w.addSettled outcome).2.Sorted :=
  ⟨h.sessions, Table.ordered_insert h.tasks _ _⟩

theorem settle (h : w.Sorted) (id : TaskId) (outcome : TaskState) :
    (w.settle id outcome).2.Sorted :=
  ⟨h.sessions, Table.ordered_insert h.tasks _ _⟩

theorem enlist (h : w.Sorted) (task waiter : TaskId) : (w.enlist task waiter).2.Sorted := by
  unfold World.enlist
  split
  · exact ⟨h.sessions, Table.ordered_insert h.tasks _ _⟩
  · exact h

theorem enqueue (h : w.Sorted) (ids : List TaskId) : (w.enqueue ids).Sorted :=
  ⟨h.sessions, h.tasks⟩

theorem setSession (h : w.Sorted) (id : TaskId) (s : Session) : (w.setSession id s).Sorted :=
  ⟨Table.ordered_insert h.sessions _ _, h.tasks⟩

theorem step (h : w.Sorted) (exe : Executable) (s : Session) : (step exe w s).world.Sorted := by
  rw [step_eq_perform]
  cases request exe s with
  | goOn | halt | fail => exact h
  | spawn => exact h.spawn _ _
  | settle => exact h.addSettled _
  | await t task rest =>
    simp only [Request.perform, await]
    split
    · exact h
    · exact h
    · exact h.enlist _ _
    · exact h

theorem slice (exe : Executable) (budget : Nat) (h : w.Sorted) (s : Session) :
    (slice exe budget w s).1.Sorted := by
  induction budget generalizing w s with
  | zero => exact h
  | succ budget ih =>
    simp only [Teal.slice]
    split
    · exact ih (h.step exe s) _
    · exact h.step exe s
    · exact h.step exe s
    · exact h.step exe s

theorem runTurn (exe : Executable) (settings : MachineSettings) (h : w.Sorted) (id : TaskId) :
    (w.runTurn exe settings id).2.Sorted := by
  unfold World.runTurn
  split
  · exact h
  · split
    · exact h
    · refine setSession (slice exe _ ?_ _) _ _
      exact ⟨Table.ordered_erase h.sessions, h.tasks⟩

end World.Sorted

/-- What occurs in the tables of a world, its view mentions. -/
theorem World.mentions_of_shows {w : World} {u : Value} (sorted : w.Sorted) (h : w.Shows u) :
    w.view.Mentions u := by
  rcases h with ⟨e, he, h⟩ | ⟨e, he, v, hv, h⟩
  · exact .inl ⟨e.1, e.2, Table.get?_of_mem sorted.sessions he, h⟩
  · exact .inr ⟨e.1, v, hv ▸ Table.get?_of_mem sorted.tasks he, h⟩

namespace Scheduler

variable {exe : Executable} {settings : MachineSettings} {entry : String} {args : List Value}
  {c d : Scheduler} {id : TaskId} {o : Outcome}

theorem quantum_sorted (h : c.world.Sorted) (hq : c.quantum = some ((id, o), d)) :
    d.world.Sorted := by
  obtain ⟨queue, -, hd⟩ := quantum_eq_some hq
  have turn := World.Sorted.runTurn c.executable c.settings
    (w := { c.world with queue }) ⟨h.sessions, h.tasks⟩ id
  generalize ({ c.world with queue } : World).runTurn c.executable c.settings id = next at hd turn
  obtain ⟨outcome, world⟩ := next
  obtain ⟨rfl, rfl⟩ := Prod.mk.inj hd
  cases o with
  | halted v => exact (turn.settle _ _).enqueue _
  | failed e => exact (turn.settle _ _).enqueue _
  | suspended t => exact turn
  | preempted => exact turn.enqueue _

/-- The numbers in use grow along a run. -/
theorem run_nextId_le (h : start { executable := exe, settings } entry args = .ok (id, c))
    {m n : Nat} (hmn : m ≤ n) : (c.run m).world.nextId ≤ (c.run n).world.nextId := by
  obtain ⟨k, rfl⟩ := Nat.exists_eq_add_of_le hmn
  rw [run_add]
  exact (run_induction (P := fun d => d.world.view.Sound ∧
      (c.run m).world.nextId ≤ d.world.nextId)
    (fun ⟨sound, hle⟩ hq => ⟨quantum_sound sound hq, Nat.le_trans hle (quantum_nextId sound hq)⟩)
    k ⟨sound_of_run h m, Nat.le_refl _⟩).2

theorem run_fields (h : start { executable := exe, settings } entry args = .ok (id, c)) (n : Nat) :
    (c.run n).executable = exe ∧ (c.run n).settings = settings := by
  obtain ⟨-, -, -, -, -, hexe, hsettings, -⟩ := start_view h
  refine run_induction (P := fun d => d.executable = exe ∧ d.settings = settings) ?_ n
    ⟨hexe, hsettings⟩
  rintro c d id o ⟨hexe, hsettings⟩ hq
  obtain ⟨hexe', hsettings', -⟩ := quantum_fields hq
  exact ⟨hexe'.trans hexe, hsettings'.trans hsettings⟩

theorem run_sorted (h : start { executable := exe, settings } entry args = .ok (id, c)) (n : Nat) :
    (c.run n).world.Sorted := by
  obtain ⟨info, bindings, -, -, -, rfl⟩ := start_eq h
  have empty : World.Sorted {} := ⟨.nil, .nil⟩
  have start := empty.spawn info.location { function := entry, bindings }
  exact run_induction (P := fun c => c.world.Sorted) (fun h hq => quantum_sorted h hq) n
    ⟨start.sessions, start.tasks⟩

/-- The worlds of a run are read back from their documents while their numbers have 64 bits. -/
theorem run_regular (h : start { executable := exe, settings } entry args = .ok (id, c)) {n : Nat}
    (hids : (c.run n).world.nextId ≤ UInt64.size) : (c.run n).world.Regular := by
  have sorted := run_sorted h n
  have sound := sound_of_run h n
  refine ⟨sorted, fun e he => ?_, fun e he => ?_⟩
  · have hs : (c.run n).world.session? e.1 = some e.2 := Table.get?_of_mem sorted.sessions he
    exact Nat.lt_of_lt_of_le (sound.fits hs).below hids
  · have ht : (c.run n).world.task? e.1 = some e.2 := Table.get?_of_mem sorted.tasks he
    exact Nat.lt_of_lt_of_le (sound.taskBelow ht) hids

/-- The doubles in the worlds of a run are finite if those of the program and its arguments are. -/
theorem run_finite (hexe : exe.Finite) (hargs : ∀ v ∈ args, v.Finite)
    (h : start { executable := exe, settings } entry args = .ok (id, c)) (n : Nat) {x : Float}
    (hx : (c.run n).world.Shows (.float x)) : x.isFinite = true := by
  have hm := World.mentions_of_shows (run_sorted h n) hx
  by_contra hinf
  have hinf : x.isFinite = false := by simpa using hinf
  rcases (run_drawn h n).drawn _ (.float hinf) hm with ⟨v, hv, hx⟩ | hx | ⟨k, -, hk⟩
  · simp [hargs v hv x hx] at hinf
  · obtain ⟨i, hi, v, hv, hx⟩ := (run_fields h n).1 ▸ hx
    simp [hexe i hi v hv x hx] at hinf
  · cases hk

end Scheduler

/-! ## Orderly sessions -/

/-- The code of a program and the places of its functions have 64 bits. -/
structure Executable.Sized (exe : Executable) : Prop where
  code : exe.code.length < UInt64.size
  location {name : String} {info : FunctionEntry} :
    exe.function? name = some info → info.location < UInt64.size

theorem Executable.sized_of_forall {exe : Executable} (code : exe.code.length < UInt64.size)
    (location : ∀ entry ∈ exe.functions, entry.2.location < UInt64.size) : exe.Sized :=
  ⟨code, fun h => location _ (Table.mem_of_get? h)⟩

/-- All code keeps bindings in order. -/
theorem Executable.keeps_ordered (exe : Executable) : exe.Keeps Table.Ordered :=
  ⟨.nil, fun _ _ _ ordered => Table.ordered_insert ordered _ _,
    fun _ _ _ ordered => Table.ordered_insert ordered _ _⟩

section Orderly

variable {exe : Executable} {s t : Session}

def Request.Orderly (r : Request) : Prop :=
  r.session.Orderly ∧ match r with
    | .spawn _ ip first => ip < UInt64.size ∧ first.Orderly
    | _ => True

theorem jumpTarget_lt {ip target : Nat} {offset : Int} (h : jumpTarget exe ip offset = .ok target) :
    target < exe.code.length := by
  unfold jumpTarget at h
  dsimp only at h
  split at h <;> cases h
  omega

/-- A request leaves its session orderly. -/
theorem request_orderly (sized : exe.Sized) (orderly : s.Orderly)
    (closures : ∀ name captured, s.Holds (.closure name captured) → Table.Ordered captured) :
    (request exe s).Orderly := by
  have stays (stack : List Value) : (s.withStack stack).Orderly := ⟨orderly.ip, orderly.activations⟩
  have jumps {offset : Int} {target : Nat} (h : jumpTarget exe s.ip offset = .ok target) :
      target < UInt64.size := Nat.lt_trans (jumpTarget_lt h) sized.code
  have split {latest : Activation} {callers : List Activation}
      (ha : s.activations = latest :: callers) : latest.Orderly ∧ ∀ a ∈ callers, a.Orderly :=
    List.forall_mem_cons.mp (ha ▸ orderly.activations)
  rcases request_rule exe s with ⟨i, -, hi, rule⟩ | hr
  · have hnext : s.ip + 1 < UInt64.size :=
      Nat.lt_of_le_of_lt (List.getElem?_eq_some_iff.mp hi).1 sized.code
    have advances (stack : List Value) : (s.advance.withStack stack).Orderly :=
      ⟨hnext, orderly.activations⟩
    generalize i.op = op, request exe s = r at rule
    cases rule with
    | bind _ ha =>
      obtain ⟨hlatest, hcallers⟩ := split ha
      refine ⟨⟨hnext, List.forall_mem_cons.mpr ⟨?_, hcallers⟩⟩, trivial⟩
      exact ⟨Table.ordered_insert hlatest.bindings _ _, hlatest.returnIp⟩
    | jump h | jumpIf _ _ h => exact ⟨⟨jumps h, orderly.activations⟩, trivial⟩
    | entered htake heffect =>
      obtain ⟨captured, hres, -⟩ := TakenCall.bindings_of_effect heffect
      have ordered := exe.keeps_ordered.call htake heffect closures
      refine ⟨⟨sized.location (resolve_compiled hres), ?_⟩, trivial⟩
      exact List.forall_mem_cons.mpr
        ⟨⟨ordered, fun ip hip => by cases hip; exact hnext⟩, orderly.activations⟩
    | started htake heffect =>
      obtain ⟨captured, hres, -⟩ := TakenCall.bindings_of_effect heffect
      have ordered := exe.keeps_ordered.call htake heffect closures
      exact ⟨advances _, sized.location (resolve_compiled hres), ordered,
        fun ip hip => by cases hip⟩
    | back _ ha hip => exact ⟨⟨(split ha).1.returnIp _ hip, (split ha).2⟩, trivial⟩
    | halt _ ha => exact ⟨⟨orderly.ip, (split ha).2⟩, trivial⟩
    | unbound | badJump | unknown | await => exact ⟨orderly, trivial⟩
    | badJumpIf | untaken | refused | misapplied | underflow => exact ⟨stays _, trivial⟩
    | _ => exact ⟨advances _, trivial⟩
  · rw [hr]
    exact ⟨orderly, trivial⟩

end Orderly

namespace View

structure Orderly (V : View) : Prop where
  sessions : V.All Session.Orderly
  closures {name : String} {captured : List (String × Value)} :
    V.Mentions (.closure name captured) → Table.Ordered captured

variable {exe : Executable} {V V' : View} {id : TaskId} {s : Session} {o : Outcome}

namespace Orderly

/-- Closures over the bindings of a orderly session are in order. -/
theorem of_mentions (h : V.Orderly) (hs : V.session id = some s)
    (constants : ∀ u, exe.Mentions u → u.Formed) (sessions : V'.All Session.Orderly)
    (new : ∀ u, ¬ exe.Makes s u → V'.Mentions u →
      V.Mentions u ∨ exe.Mentions u ∨ ∃ k < V'.nextId, u = .future k) : V'.Orderly := by
  refine ⟨sessions, captured_of_mentions (fun _ _ => h.closures)
    (fun a ha => ((h.sessions hs).activations a ha).bindings) (fun _ _ => constants _) new⟩

theorem request (h : V.Orderly) (sized : exe.Sized) (hs : V.session id = some s) :
    (Teal.request exe s).Orderly :=
  request_orderly sized (h.sessions hs) fun _ _ hm => h.closures (mentions_of_holds hs hm)

theorem step (h : V.Orderly) (sized : exe.Sized) (constants : ∀ u, exe.Mentions u → u.Formed)
    (hstep : V.Step exe id V') : V'.Orderly := by
  obtain ⟨s, hs⟩ : ∃ s, V.session id = some s := by cases hstep <;> exact ⟨_, ‹_›⟩
  refine h.of_mentions hs constants ?_ fun u hu hm => mentions_step hstep hs hu hm
  cases hstep with
  | goOn hs hr =>
    have orderly := h.request sized hs
    rw [hr] at orderly
    exact h.sessions.put ⟨orderly.1.ip, orderly.1.activations⟩
  | spawn hs hr =>
    have orderly := h.request sized hs
    rw [hr] at orderly
    obtain ⟨hsession, hip, hfirst⟩ := orderly
    refine All.put (h.sessions.spawn ⟨hip, ?_⟩) ⟨hsession.ip, hsession.activations⟩
    exact fun a ha => List.mem_singleton.mp ha ▸ hfirst
  | settle hs hr =>
    have orderly := h.request sized hs
    rw [hr] at orderly
    exact All.put h.sessions ⟨orderly.1.ip, orderly.1.activations⟩
  | @resume s _ _ _ hs hr =>
    obtain ⟨i, hi, -⟩ := wait_of_request_await hr
    have hlt : s.ip < exe.code.length := (List.getElem?_eq_some_iff.mp hi).1
    exact h.sessions.put ⟨Nat.lt_of_le_of_lt hlt sized.code, (h.sessions hs).activations⟩

theorem concludes (h : V.Orderly) (sized : exe.Sized) (constants : ∀ u, exe.Mentions u → u.Formed)
    (hrun : V.Running id) (hc : V.Concludes exe id o V') : V'.Orderly := by
  obtain ⟨⟨s, hs, -⟩, -⟩ := hrun
  refine h.of_mentions hs constants ?_ fun u hu hm =>
    (mentions_concludes hc hs hu hm).imp_right .inl
  cases hc with
  | preempted hq => exact h.sessions
  | halted hq hs hr =>
    have orderly := h.request sized hs
    rw [hr] at orderly
    exact h.sessions.finish ⟨orderly.1.ip, orderly.1.activations⟩
  | failed hq hs hf =>
    refine h.sessions.finish ?_
    cases hf with
    | itself hr =>
      have orderly := h.request sized hs
      rw [hr] at orderly
      exact ⟨orderly.1.ip, orderly.1.activations⟩
    | awaited | unknown => exact ⟨(h.sessions hs).ip, (h.sessions hs).activations⟩
  | suspended hq hs hr ht =>
    exact h.sessions.suspend ⟨(h.sessions hs).ip, (h.sessions hs).activations⟩

theorem put_status (h : V.Orderly) (hs : V.session id = some s) (status : Session.Status) :
    (V.put id { s with status }).Orderly :=
  ⟨h.sessions.put ⟨(h.sessions hs).ip, (h.sessions hs).activations⟩,
    fun hm => h.closures (mentions_put_status hs status hm)⟩

theorem invariant (sized : exe.Sized) (constants : ∀ u, exe.Mentions u → u.Formed) :
    View.Invariant exe View.Orderly where
  mark h hs := h.put_status hs .running
  step h := h.step sized constants
  concludes h := h.concludes sized constants

end Orderly

end View

namespace Scheduler

variable {exe : Executable} {settings : MachineSettings} {entry : String} {args : List Value}
  {c d : Scheduler} {id : TaskId} {o : Outcome}

/-- Along a run of a started program bindings stay in order and pointers have 64 bits. -/
theorem run_orderly (sized : exe.Sized) (constants : ∀ u, exe.Mentions u → u.Formed)
    (hargs : ∀ u : Value, u.Within args → u.Formed)
    (h : start { executable := exe, settings } entry args = .ok (id, c)) (n : Nat) :
    (c.run n).world.view.Orderly := by
  obtain ⟨info, bindings, hf, hb, -, hexe, -, -, hview⟩ := start_view h
  have first : c.world.view.Orderly := by
    rw [hview]
    refine ⟨?_, fun {name captured} hm => ?_⟩
    · refine View.All.spawn nofun ⟨sized.location hf, fun a ha => ?_⟩
      have ordered : bindings.Ordered := argumentBindings_induct hb
        (fun _ _ _ _ _ ordered => Table.ordered_insert ordered _ _) .nil
      exact List.mem_singleton.mp ha ▸ ⟨ordered, fun ip hip => by cases hip⟩
    · rcases View.mentions_spawn hm with hm | ⟨x, s, hs, -⟩ | ⟨x, v, hv, -⟩
      · exact hargs _ ((part_argumentBindings hb hm).resolve_right (by simp))
      · cases hs
      · cases hv
  exact run_view (View.Orderly.invariant sized constants) h first n

theorem run_topLevel (h : start { executable := exe, settings } entry args = .ok (id, c))
    (n : Nat) : (c.run n).world.topLevel = some 0 := by
  obtain ⟨info, bindings, -, -, -, -, -, -, hview⟩ := start_view h
  refine (run_induction (P := fun c => c.world.view.Sound ∧ c.world.topLevel = some 0) ?_ n
    ⟨start_sound h, congrArg View.topLevel hview⟩).2
  rintro c d id o ⟨sound, htop⟩ hq
  obtain ⟨s, n, V, hs, hsteps, hc, -⟩ := quantum_sound_spec sound hq
  refine ⟨quantum_sound sound hq, ?_⟩
  calc d.world.topLevel
      = V.topLevel := (View.Keeps.concludes hc).1
    _ = c.world.topLevel := (View.Keeps.steps hsteps).1
    _ = some 0 := htop

/-- The worlds of a run can be stored while their numbers have 64 bits and the doubles that occur
in them are read as they are written. -/
theorem run_storable (sized : exe.Sized) (constants : ∀ u, exe.Mentions u → u.Formed)
    (hargs : ∀ u : Value, u.Within args → u.Formed)
    (h : start { executable := exe, settings } entry args = .ok (id, c)) {n : Nat}
    (hids : (c.run n).world.nextId < UInt64.size)
    (hexact : ∀ x, (c.run n).world.Shows (.float x) → Json.Number.Exact x) :
    (c.run n).world.Storable := by
  have sorted := run_sorted h n
  have orderly := run_orderly sized constants hargs h n
  have sound := sound_of_run h n
  have session {x : TaskId} {s : Session} (hs : (c.run n).world.session? x = some s) :
      x < UInt64.size := Nat.lt_trans (sound.fits hs).below hids
  have task {x : TaskId} {state : TaskState} (ht : (c.run n).world.task? x = some state) :
      x < UInt64.size := Nat.lt_trans (sound.taskBelow ht) hids
  refine ⟨run_regular h (Nat.le_of_lt hids), hids, fun x hx => ?_, fun x hx => ?_, ?_, ?_, ?_⟩
  · obtain ⟨s, hs, -⟩ := sound.queued hx
    exact session hs
  · rw [run_topLevel h] at hx
    cases hx
    decide
  · intro e he
    have hs : (c.run n).world.session? e.1 = some e.2 := Table.get?_of_mem sorted.sessions he
    refine ⟨orderly.sessions hs, (sound.fits hs).own.symm ▸ session hs, fun t ht => ?_⟩
    have hover : e.2.isOver = false := Session.isOver_eq_false_iff.mpr (.inr ⟨t, ht⟩)
    rcases (sound.fits hs).placed hover with ⟨-, -, hrun | ⟨t', state, ht', hstate, -⟩⟩ |
      ⟨-, t', waiters, ht', hstate, -⟩
    · simp [ht] at hrun
    · obtain rfl : t = t' := by simpa [ht] using ht'
      exact task hstate
    · obtain rfl : t = t' := by simpa [ht] using ht'
      exact task hstate
  · intro e he waiters hwaiters x hx
    have ht : (c.run n).world.view.task e.1 = some (.pending waiters) :=
      hwaiters ▸ Table.get?_of_mem sorted.tasks he
    obtain ⟨s, hs, -⟩ := sound.waiting (View.waiters_eq ht ▸ hx)
    exact session hs
  · intro u hu
    have hm := World.mentions_of_shows sorted hu
    refine ⟨?_, fun {x} hx => hexact x (hx ▸ hu)⟩
    cases u with
    | closure name captured => exact orderly.closures hm
    | future t =>
      -- no session makes a handle, so its task was started or it came in
      rcases (run_drawn h n).drawn _ (.future t) hm with ht | ht | ⟨k, hk, ht⟩
      · exact hargs _ ht
      · exact constants _ ((run_fields h n).1 ▸ ht)
      · cases ht
        exact Nat.lt_trans hk hids
    | _ => trivial

end Scheduler

end Teal
