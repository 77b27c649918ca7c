import Teal.Proofs.Constants
import Teal.Proofs.Readings
import Teal.Proofs.Resumption

/-!
# Live values can be written

Only a double that is not finite has no document. Steps never make one: arithmetic refuses it,
and constants, arguments and loaded worlds have none. So whatever a program does, its world can
be saved. Nothing is asked of the world here but that its doubles are finite, since a world that
was loaded need not be one that a run can reach.

## Main definitions

* `Executable.Foreign`: a value that no step of a program brings about.
* `Store.LoadsFinite`: a store gives finite documents only.

## Main statements

* `Turn.shows_step`, `Scheduler.finite_run`: one step and a whole run.
* `World.Finite.exists_toJson`: a finite world has a document.
* `Invocation.live_values_finite`: no invocation fails to save its world.
-/

namespace Teal

variable {α : Type}

/-! ## Documents of finite worlds -/

theorem World.writes_entries {P : α → Float → Prop} {read : Json → Option α}
    {write : α → Except NonFinite Json} (table : Table TaskId α)
    (h : ∀ a, Writes (P a) read a (write a)) :
    Writes (fun x => ∃ e ∈ table, P e.2 x)
      (List.mapM fun p : TaskId × Json => (read p.2).map fun a => (p.1, a)) table
      (entriesToJson write table) :=
  .mapM table fun e _ => (h e.2).map (e.1, ·) (fun _ => .rfl) fun j hj => by simp [hj]

/-- A finite world has a document, whatever its numbers are. -/
theorem World.Finite.exists_toJson {w : World} (h : w.Finite) : ∃ j, w.toJson = .ok j := by
  have written : Writes (fun x => w.Shows (.float x)) (fun _ => some ()) () w.toJson :=
    (writes_entries w.sessions Session.writes).bind
      (fun _ _ => (writes_entries w.tasks TaskState.writes).last fun _ _ => rfl) (fun _ => .rfl)
  obtain ⟨j, hj, -⟩ := written.isOk h
  exact ⟨j, hj⟩

/-! ## Worlds -/

namespace World

variable {w : World} {u : Value} {id : TaskId}

theorem shows_insertTask {state : TaskState}
    (h : { w with tasks := w.tasks.insert id state }.Shows u) : state.Shows u ∨ w.Shows u := by
  rcases h with h | ⟨e, he, h⟩
  · exact .inr (.inl h)
  · rcases Table.mem_keys_insert he with rfl | he
    · exact .inl h
    · exact .inr (.inr ⟨e, he, h⟩)

theorem shows_setSession {s : Session} (h : (w.setSession id s).Shows u) :
    s.Shows u ∨ w.Shows u := by
  rcases h with ⟨e, he, h⟩ | h
  · rcases Table.mem_keys_insert he with rfl | he
    · exact .inl h
    · exact .inr (.inl ⟨e, he, h⟩)
  · exact .inr (.inr h)

theorem shows_erase (h : { w with sessions := w.sessions.erase id }.Shows u) : w.Shows u := by
  rcases h with ⟨e, he, h⟩ | h
  · exact .inl ⟨e, List.mem_of_mem_filter he, h⟩
  · exact .inr h

theorem shows_of_session? {s : Session} (hs : w.session? id = some s) (h : s.Shows u) :
    w.Shows u :=
  .inl ⟨_, Table.mem_of_get? hs, h⟩

theorem shows_of_task? {v : Value} (ht : w.task? id = some (.resolved v)) (h : u.Part v) :
    w.Shows u :=
  .inr ⟨_, Table.mem_of_get? ht, v, rfl, h⟩

theorem not_shows_pending {waiters : List TaskId} : ¬ (TaskState.pending waiters).Shows u := by
  rintro ⟨v, hv, -⟩
  cases hv

theorem shows_spawn {ip : Nat} {first : Activation} (h : (w.spawn ip first).2.Shows u) :
    u.Bound first.bindings ∨ w.Shows u := by
  rcases h with ⟨e, he, h⟩ | ⟨e, he, h⟩
  · rcases Table.mem_keys_insert he with rfl | he
    · rcases h with (h | ⟨a, ha, h⟩) | ⟨v, hv, -⟩
      · exact absurd h Value.within_nil
      · exact .inl (List.mem_singleton.mp ha ▸ h)
      · cases hv
    · exact .inr (.inl ⟨e, he, h⟩)
  · rcases Table.mem_keys_insert he with rfl | he
    · exact absurd h not_shows_pending
    · exact .inr (.inr ⟨e, he, h⟩)

theorem shows_enlist {task waiter : TaskId} (h : (w.enlist task waiter).2.Shows u) :
    w.Shows u := by
  unfold enlist at h
  split at h
  · exact (shows_insertTask h).resolve_left not_shows_pending
  · exact h

end World

/-! ## Steps -/

/-- A value that no step of a program brings about: it is no constant, no future, and nothing that
a session makes. -/
structure Executable.Foreign (exe : Executable) (u : Value) : Prop where
  cannotMake : exe.CannotMake u
  not_mentions : ¬ exe.Mentions u
  not_future : ∀ t, u ≠ .future t

theorem Executable.foreign_float {exe : Executable} (h : exe.Finite) {x : Float}
    (hx : x.isFinite = false) : exe.Foreign (.float x) where
  cannotMake := .float hx
  not_mentions := by
    rintro ⟨i, hi, v, hv, hpart⟩
    simp [h i hi v hv x hpart] at hx
  not_future := nofun

def Turn.Shows (turn : Turn) (u : Value) : Prop :=
  turn.world.Shows u ∨ turn.session.Shows u ∨ ∃ v, turn.signal = .halted v ∧ u.Part v

section Run

variable {exe : Executable} {u : Value} {w : World} {s t : Session}

/-- Waiting for a task brings its result at most. -/
theorem Turn.shows_await {task : TaskId} {rest : List Value} (hstack : rest ⊆ s.stack)
    (h : (await w s (.future task) rest).Shows u) : w.Shows u ∨ s.Shows u := by
  have kept {stack : List Value} (hsub : stack ⊆ s.stack) (h : (s.withStack stack).Shows u) :
      s.Shows u :=
    h.imp_left (Or.imp_left fun h => h.mono hsub)
  simp only [await] at h
  split at h
  · next v hv =>
    rcases h with h | (h | h) | ⟨v, hv, -⟩
    · exact .inl h
    · rcases h with h | h
      · rcases Value.within_cons.mp h with h | h
        · exact .inl (World.shows_of_task? hv h)
        · exact .inr (kept hstack (.inl (.inl h)))
      · exact .inr (.inl (.inr h))
    · exact .inr (.inr h)
    · cases hv
  · rcases h with h | h | ⟨v, hv, -⟩
    · exact .inl h
    · exact .inr (kept hstack h)
    · cases hv
  · rcases h with h | h | ⟨v, hv, -⟩
    · exact .inl (World.shows_enlist h)
    · exact .inr h
    · cases hv
  · rcases h with h | h | ⟨v, hv, -⟩
    · exact .inl h
    · exact .inr (kept hstack h)
    · cases hv

/-- A session with a future pushed shows nothing new that is foreign. -/
theorem Executable.Foreign.shows_push {k : TaskId} (foreign : exe.Foreign u)
    (h : (t.push (.future k)).Shows u) : t.Shows u := by
  rcases h with (h | h) | h
  · rcases Value.within_cons.mp h with h | h
    · exact absurd (Value.part_future.mp h) (foreign.not_future k)
    · exact .inl (.inl h)
  · exact .inl (.inr h)
  · exact .inr h

/-- A foreign value that a step leaves was there before. -/
theorem Turn.shows_step (foreign : exe.Foreign u) (h : (step exe w s).Shows u) :
    w.Shows u ∨ s.Shows u := by
  have keeps := request_keeps exe s
  have holds (h : (request exe s).Holds u) : s.Shows u :=
    .inl ((request_holds (foreign.cannotMake s) h).resolve_right foreign.not_mentions)
  have session (h : (request exe s).session.Shows u) : s.Shows u :=
    (h.of_result keeps.result).elim (fun h => holds (.inl h)) id
  rw [step_eq_perform] at h
  cases hr : request exe s with
  | goOn t prints =>
    rw [hr] at h session
    rcases h with h | h | ⟨v, hv, -⟩
    · exact .inl h
    · exact .inr (session h)
    · cases hv
  | halt t v =>
    rw [hr] at h session holds
    rcases h with h | h | ⟨v, hv, h⟩
    · exact .inl h
    · exact .inr (session h)
    · cases hv
      exact .inr (holds (.inr (.inr h)))
  | fail t e =>
    rw [hr] at h session
    rcases h with h | h | ⟨v, hv, -⟩
    · exact .inl h
    · exact .inr (session h)
    · cases hv
  | spawn t ip first =>
    rw [hr] at h session holds
    rcases h with h | h | ⟨v, hv, -⟩
    · exact (World.shows_spawn h).symm.imp_right fun h => holds (.inr (.inr h))
    · exact .inr (session (foreign.shows_push h))
    · cases hv
  | settle t v prints =>
    rw [hr] at h session holds
    rcases h with h | h | ⟨v, hv, -⟩
    · rcases World.shows_insertTask h with ⟨v, hv, h⟩ | h
      · cases hv
        exact .inr (holds (.inr (.inr h)))
      · exact .inl h
    · exact .inr (session (foreign.shows_push h))
    · cases hv
  | await t task rest =>
    obtain ⟨rfl, hstack⟩ := request_await hr
    rw [hr] at h
    exact shows_await (hstack ▸ List.subset_cons_self _ _) h

/-- A slice of a session leaves no foreign value that was not there before. -/
theorem shows_slice (foreign : exe.Foreign u) {n : Nat}
    (h : (slice exe n w s).1.Shows u ∨ (slice exe n w s).2.1.Shows u ∨
      ∃ v, (slice exe n w s).2.2 = .halted v ∧ u.Part v) : w.Shows u ∨ s.Shows u := by
  induction n generalizing w s with
  | zero =>
    rcases h with h | h | ⟨v, hv, -⟩
    · exact .inl h
    · exact .inr h
    · cases hv
  | succ n ih =>
    refine Turn.shows_step foreign ?_
    simp only [slice] at h
    split at h
    · exact (ih h).imp_right .inl
    · next v hv =>
      refine h.imp_right (Or.imp_right ?_)
      rintro ⟨v', heq, h⟩
      cases heq
      exact ⟨v, hv, h⟩
    · refine h.imp_right (Or.imp_right ?_)
      rintro ⟨v, heq, -⟩
      cases heq
    · refine h.imp_right (Or.imp_right ?_)
      rintro ⟨v, heq, -⟩
      cases heq

theorem Session.shows_marked {o : Outcome} (h : (s.marked o).Shows u) :
    s.Shows u ∨ ∃ v, o = .halted v ∧ u.Part v := by
  cases o with
  | halted v =>
    rcases h with h | ⟨w, hw, h⟩
    · exact .inl (.inl h)
    · cases hw
      exact .inr ⟨v, rfl, h⟩
  | suspended | preempted | failed => exact .inl h

theorem World.shows_runTurn (foreign : exe.Foreign u) {k : MachineSettings} {x : TaskId}
    (h : (w.runTurn exe k x).2.Shows u ∨
      ∃ v, (w.runTurn exe k x).1 = .halted v ∧ u.Part v) : w.Shows u := by
  unfold runTurn at h
  split at h
  · rcases h with h | ⟨v, hv, -⟩
    · exact h
    · cases hv
  · next s hs =>
    split at h
    · rcases h with h | ⟨v, hv, -⟩
      · exact h
      · cases hv
    · have sliced := shows_slice (w := { w with sessions := w.sessions.erase x })
        (s := { s with status := .running }) (n := max k.stepLimit 1) foreign
      refine (sliced ?_).elim shows_erase fun h => shows_of_session? hs h
      rcases h with h | ⟨v, hv, h⟩
      · rcases shows_setSession h with h | h
        · exact .inr (Session.shows_marked h)
        · exact .inl h
      · exact .inr (.inr ⟨v, hv, h⟩)

end Run

/-! ## Runs -/

namespace Scheduler

variable {c d : Scheduler} {u : Value} {id : TaskId} {o : Outcome}

/-- A quantum leaves no foreign value that was not there before. -/
theorem shows_quantum (foreign : c.executable.Foreign u) (hq : c.quantum = some ((id, o), d))
    (h : d.world.Shows u) : c.world.Shows u := by
  obtain ⟨queue, -, hd⟩ := quantum_eq_some hq
  have turn : _ → ({ c.world with queue } : World).Shows u :=
    World.shows_runTurn foreign (k := c.settings) (x := id)
  generalize ({ c.world with queue } : World).runTurn c.executable c.settings id = next at hd turn
  obtain ⟨outcome, world⟩ := next
  obtain ⟨rfl, rfl⟩ := Prod.mk.inj hd
  refine turn ?_
  cases o with
  | halted v =>
    have settled : (TaskState.resolved v).Shows u ∨ world.Shows u := World.shows_insertTask h
    rcases settled with ⟨w, hw, h⟩ | h
    · cases hw
      exact .inr ⟨v, rfl, h⟩
    · exact .inl h
  | failed e =>
    have settled : (TaskState.failed e.message).Shows u ∨ world.Shows u := World.shows_insertTask h
    rcases settled with ⟨w, hw, -⟩ | h
    · cases hw
    · exact .inl h
  | suspended | preempted => exact .inl h

/-- The doubles of any world stay finite along a run if those of the program are. -/
theorem finite_run (hexe : c.executable.Finite) (h : c.world.Finite) (n : Nat) :
    (c.run n).world.Finite := by
  refine (run_induction (P := fun d => d.executable.Finite ∧ d.world.Finite) ?_ n ⟨hexe, h⟩).2
  rintro c d id o ⟨hexe, h⟩ hq
  refine ⟨(quantum_fields hq).1 ▸ hexe, fun x hx => ?_⟩
  by_contra hinf
  have hinf : x.isFinite = false := by simpa using hinf
  simp [h x (shows_quantum (Executable.foreign_float hexe hinf) hq hx)] at hinf

end Scheduler

/-! ## Stores -/

def Store.LoadsFinite (σ : Type) [Store σ] : Prop :=
  ∀ (store : σ) (id : String) (j : Json), load store id = .ok j → j.Finite

theorem StoreError.finite_of_parsed {text : String} {j : Json} (h : parsed text = .ok j) :
    j.Finite := by
  unfold parsed at h
  split at h <;> cases h
  next hparse => exact Json.finite_of_parse hparse

theorem TableStore.loadsFinite : Store.LoadsFinite TableStore := by
  intro store id j h
  simp only [Store.load, load] at h
  split at h
  · cases h
  · exact StoreError.finite_of_parsed h

theorem DirectoryStore.loadsFinite : Store.LoadsFinite DirectoryStore := by
  intro store id j h
  obtain ⟨name, -, h⟩ := exists_of_bind_eq_ok h
  split at h
  · cases h
  · exact StoreError.finite_of_parsed h

/-! ## Invocations -/

namespace Invocation

variable {σ : Type} [Store σ] {inv : Invocation} {store : σ} {id : String} {cause : NonFinite}

/-- A finite world is never refused for its values. -/
theorem checkpoint_ne {w : World} (h : w.Finite) :
    checkpoint store id w ≠ .error (.checkpoint cause) := by
  obtain ⟨j, hj⟩ := h.exists_toJson
  simp only [checkpoint, hj]
  cases Store.save store id j <;> simp [Except.mapError]

/-- A world that was loaded and run is finite. -/
theorem finite_of_advance (loads : Store.LoadsFinite σ) (hexe : inv.executable.Finite)
    {quanta : Nat} {c : Scheduler} (h : inv.advance store id quanta = .ok c) :
    c.world.Finite := by
  obtain ⟨world, hrestore, h⟩ := exists_of_bind_eq_ok h
  cases h
  refine Scheduler.finite_run hexe ?_ quanta
  unfold restore at hrestore
  split at hrestore
  · cases hrestore
  · next j hj =>
    split at hrestore <;> cases hrestore
    next hw => exact World.finite_of_ofJson? (loads store id j hj) hw

theorem advance_ne {quanta : Nat} : inv.advance store id quanta ≠ .error (.checkpoint cause) := by
  unfold advance restore
  cases Store.load store id with
  | error e => simp [bind, Except.bind]
  | ok j => cases hw : World.ofJson? j <;> simp [hw, bind, Except.bind]

theorem resume_ne (loads : Store.LoadsFinite σ) (hexe : inv.executable.Finite) {quanta : Nat} :
    (inv.resume store id quanta).1 ≠ .error (.checkpoint cause) := by
  unfold resume
  cases hc : inv.advance store id quanta with
  | error e =>
    rintro ⟨⟩
    exact advance_ne hc
  | ok c =>
    have finite := finite_of_advance loads hexe hc
    dsimp only
    cases hsave : checkpoint store id c.world with
    | error e =>
      rintro ⟨⟩
      exact checkpoint_ne finite hsave
    | ok store =>
      unfold statusOf
      cases c.progress <;> simp

/-- Live values can be written. Every compiled text has finite constants only. If the constants of
a program and its arguments are finite, then in every world of its run all doubles are finite, at
any depth and wherever values stand, so that the world has a document. No invocation fails to save
its world then, neither the first nor one that goes on with whatever a store holds; the stores of
texts hold finite documents only. -/
theorem live_values_finite :
    (∀ (source : Source) (program : List Expr) (exe : Executable),
      source.parse = .ok program → compile program = .ok exe → exe.Finite) ∧
    (∀ inv : Invocation, inv.executable.Finite → ∀ (store : σ) (id : String),
      (∀ (entry : String) (args : List Value), (∀ v ∈ args, v.Finite) →
        (∀ top c, Scheduler.start { executable := inv.executable, settings := inv.settings }
            entry args = .ok (top, c) → ∀ n,
          (c.run n).world.Finite ∧ ∃ j, (c.run n).world.toJson = .ok j) ∧
        ∀ cause, inv.start store id entry args ≠ .error (.checkpoint cause)) ∧
      (Store.LoadsFinite σ → ∀ quanta,
        (∀ c, inv.advance store id quanta = .ok c →
          c.world.Finite ∧ ∃ j, c.world.toJson = .ok j) ∧
        ∀ cause, (inv.resume store id quanta).1 ≠ .error (.checkpoint cause))) ∧
    Store.LoadsFinite TableStore ∧ Store.LoadsFinite DirectoryStore := by
  refine ⟨fun _ _ _ => finite_of_parse, fun inv hexe store id => ⟨fun entry args hargs => ?_, ?_⟩,
    TableStore.loadsFinite, DirectoryStore.loadsFinite⟩
  · have finite {top : TaskId} {c : Scheduler}
        (h : Scheduler.start { executable := inv.executable, settings := inv.settings } entry args =
          .ok (top, c)) (n : Nat) : (c.run n).world.Finite :=
      fun _ hx => Scheduler.run_finite hexe hargs h n hx
    refine ⟨fun top c h n => ⟨finite h n, (finite h n).exists_toJson⟩, fun cause => ?_⟩
    unfold start
    split
    · simp
    · next top c h => exact checkpoint_ne (finite h 0)
  · intro loads quanta
    refine ⟨fun c hc => ?_, fun cause => resume_ne loads hexe⟩
    have finite := finite_of_advance loads hexe hc
    exact ⟨finite, finite.exists_toJson⟩

def halving : Invocation where
  executable :=
    { code := [⟨.pushBinding "x", []⟩, ⟨.pushValue (.float 0.5), []⟩, ⟨.operate .mul, []⟩,
        ⟨.ret, []⟩]
      functions := [("main", { params := ["x"], location := 0 })] }
  settings := {}

/-- Halving a double keeps the world of the program finite, and it can always be saved. -/
theorem live_values_finite_halving :
    (∃ c, Scheduler.start { executable := halving.executable, settings := {} } "main"
        [.float 3.5] = .ok (0, c) ∧ ∀ n, (c.run n).world.Finite) ∧
      (∀ cause, halving.start ({} : TableStore) "s" "main" [.float 3.5] ≠
        .error (.checkpoint cause)) ∧
      ∀ (store : TableStore) (quanta : Nat) (cause : NonFinite),
        (halving.resume store "s" quanta).1 ≠ .error (.checkpoint cause) := by
  have constants : halving.executable.Finite := by
    intro i hi v hv x hx
    simp only [halving, List.mem_cons, List.not_mem_nil, or_false] at hi
    rcases hi with rfl | rfl | rfl | rfl <;> cases hv
    cases Value.part_float.mp hx
    decide +kernel
  have arguments : ∀ v ∈ [Value.float 3.5], v.Finite := by
    intro v hv x hx
    cases List.mem_singleton.mp hv
    cases Value.part_float.mp hx
    decide +kernel
  obtain ⟨-, invocations, loads, -⟩ := live_values_finite (σ := TableStore)
  obtain ⟨hrun, hstart⟩ := (invocations halving constants {} "s").1 "main" _ arguments
  refine ⟨⟨_, rfl, fun n => (hrun 0 _ rfl n).1⟩, hstart, fun store quanta cause => ?_⟩
  exact ((invocations halving constants store "s").2 loads quanta).2 cause

end Invocation

end Teal
