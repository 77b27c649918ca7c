import Mathlib.Algebra.BigOperators.Intervals
import Mathlib.Algebra.Order.BigOperators.Group.Finset
import Teal.Proofs.Resumption

/-!
# What is reported of runs that are saved and resumed

A run in pieces is over at the first piece after which the session of the program is. A direct run
goes on until no session can run. Both report the same result or the same failure, since a session
that is over stays as it is. They need not report the same lines: those of a session that nobody
waits for may come later.

## Main definitions

* `View.printed`, `Scheduler.lines`: what one session has printed, and what all of them have.
* `Scheduler.Accounts`: the failures that a scheduler has recorded explain how its sessions failed.
* `Invocation.drive`: pieces of a run, until it is over.
* `Invocation.Answers`: how their answer goes with the report of a direct run.

## Main statements

* `Scheduler.printed_quantum`: a quantum adds to the lines of the session that has its turn.
* `Scheduler.lines_run`: lines come, and none goes.
* `Scheduler.progress_run`: a program that is over stays as it is.
* `Invocation.drive_of_drain`: what a run in pieces reports.
-/

namespace Teal

/-! ## What a session has printed -/

namespace View

variable {exe : Executable} {id : TaskId} {V V' : View} {s : Session}

def printed (V : View) (x : TaskId) : List String :=
  (V.session x).elim [] Session.output

/-- A session that is written back has printed some lines more. -/
theorem printed_put {t : Session} {lines : List String} (hs : V.session id = some s)
    (ht : t.output = s.output ++ lines) (x : TaskId) :
    (V.put id t).printed x = V.printed x ++ if x = id then lines else [] := by
  by_cases e : x = id
  · simp [printed, e, hs, ht]
  · simp [printed, e]

/-- A new session has printed nothing. -/
theorem printed_spawn (fresh : V.session V.nextId = none) (ip : Nat) (first : Activation) :
    (V.spawn ip first).printed = V.printed := by
  funext x
  by_cases e : x = V.nextId
  · simp [printed, e, fresh]
  · simp [printed, e]

theorem printed_step (fresh : V.session V.nextId = none) (hs : V.session id = some s)
    (hstep : V.Step exe id V') (x : TaskId) :
    V'.printed x = V.printed x ++ if x = id then (request exe s).prints.map printLine else [] := by
  have keeps := request_keeps exe s
  cases hstep with
  | goOn hs' hr =>
    obtain rfl : s = _ := by simpa [hs] using hs'
    rw [hr] at keeps ⊢
    exact printed_put hs (congrArg (· ++ _) keeps.output) x
  | @spawn _ t ip first hs' hr =>
    obtain rfl : s = _ := by simpa [hs] using hs'
    rw [hr] at keeps ⊢
    have hnew : (V.spawn ip first).session id = some s := by
      have hne : id ≠ V.nextId := fun e => by simp [e, fresh] at hs
      simp [hne, hs]
    rw [← printed_spawn fresh ip first]
    refine printed_put hnew ?_ x
    exact keeps.output.trans (List.append_nil _).symm
  | settle hs' hr =>
    obtain rfl : s = _ := by simpa [hs] using hs'
    rw [hr] at keeps ⊢
    exact printed_put (V := V.addSettled _) hs (congrArg (· ++ _) keeps.output) x
  | resume hs' hr ht =>
    obtain rfl : s = _ := by simpa [hs] using hs'
    rw [hr]
    refine printed_put hs ?_ x
    exact (List.append_nil _).symm

/-- Steps add to the lines of the session that makes them. -/
theorem printed_steps {n : Nat} {prints : List (List Value)} (sound : V.Sound)
    (hrun : V.Running id) (hsteps : View.Steps exe id n prints V V') (x : TaskId) :
    V'.printed x = V.printed x ++ if x = id then prints.map printLine else [] := by
  induction hsteps with
  | refl V => simp
  | head hs hstep _ ih =>
    obtain ⟨sound', hrun'⟩ := sound.step hrun hstep
    rw [ih sound' hrun', printed_step sound.fresh.1 hs hstep, List.append_assoc]
    split <;> simp

/-- The end of a quantum prints nothing. -/
theorem printed_concludes {o : Outcome} (hc : V.Concludes exe id o V') :
    V'.printed = V.printed := by
  funext x
  by_cases e : x = id
  · subst e
    cases hc with
    | preempted hq => rfl
    | @halted queue s t v hq hs hr =>
      have keeps : s.Keeps t := Session.keeps_of_request hr
      simp [printed, hs, keeps.output]
    | failed hq hs hf => simp [printed, hs, (Sound.fails_keeps hf).output]
    | suspended hq hs hr ht => simp [printed, hs]
  · rw [printed, hc.session.2 x e, printed]

end View

/-! ## Lists that grow -/

/-- Lists that are extended one by one are not extended if their concatenation stays. -/
theorem eq_of_flatMap_eq {α β : Type} {l : List α} {f g : α → List β}
    (hgrows : ∀ a ∈ l, f a <+: g a) (h : l.flatMap f = l.flatMap g) : ∀ a ∈ l, f a = g a := by
  induction l with
  | nil => simp
  | cons a l ih =>
    rw [List.forall_mem_cons] at hgrows ⊢
    obtain ⟨⟨more, hmore⟩, hrest⟩ := hgrows
    rw [List.flatMap_cons, List.flatMap_cons, ← hmore, List.append_assoc,
      List.append_cancel_left_eq] at h
    have hle := (List.Sublist.flatMap_right l fun b hb => (hrest b hb).sublist).length_le
    obtain rfl : more = [] := by
      have := congrArg List.length h
      rw [List.length_append] at this
      exact List.length_eq_zero_iff.mp (by omega)
    exact ⟨by simpa using hmore, ih hrest h⟩

/-- The values of a table, key by key. -/
theorem Table.flatMap_eq {α β : Type} {t : Table TaskId α} (ordered : t.Ordered) {n : Nat}
    (below : ∀ e ∈ t, e.1 < n) (f : α → List β) :
    (t.flatMap fun e => f e.2) = (List.range n).flatMap fun x => (t.get? x).elim [] f := by
  -- the keys in ascending order give the entries in the order of the table
  let found (x : TaskId) : Option (TaskId × α) := (t.get? x).map (x, ·)
  have listed : (List.range n).filterMap found = t := by
    have ascending : Table.Ordered ((List.range n).filterMap found) := by
      refine List.pairwise_filterMap.mpr (List.pairwise_lt_range.imp fun hlt e he e' he' => ?_)
      obtain ⟨v, -, rfl⟩ := Option.map_eq_some_iff.mp he
      obtain ⟨v', -, rfl⟩ := Option.map_eq_some_iff.mp he'
      exact hlt
    refine Table.eq_of_perm ascending ordered ((List.perm_ext_iff_of_nodup
      (Table.nodup_keys ascending).of_map (Table.nodup_keys ordered).of_map).mpr fun e => ?_)
    simp only [List.mem_filterMap, List.mem_range, found, Option.map_eq_some_iff]
    constructor
    · rintro ⟨x, -, v, hv, rfl⟩
      exact Table.mem_of_get? hv
    · exact fun he => ⟨e.1, below e he, e.2, Table.get?_of_mem ordered he, rfl⟩
  calc t.flatMap (fun e => f e.2)
      = ((List.range n).filterMap found).flatMap fun e => f e.2 := by rw [listed]
    _ = (List.range n).flatMap fun x => (t.get? x).elim [] f := by
      rw [List.filterMap_eq_flatMap_toList, List.flatMap_assoc]
      refine List.flatMap_congr fun x _ => ?_
      cases h : t.get? x <;> simp [found, h]

/-! ## Lines of a run -/

namespace Scheduler

variable {exe : Executable} {settings : MachineSettings} {entry : String} {args : List Value}
  {c d : Scheduler} {id : TaskId} {o : Outcome}

/-- A quantum adds to the lines of the session that has its turn. -/
theorem printed_quantum (sound : c.world.view.Sound) (hq : c.quantum = some ((id, o), d))
    (x : TaskId) : d.world.view.printed x =
      c.world.view.printed x ++ if x = id then c.quantumPrints.map printLine else [] := by
  obtain ⟨s, n, V, hs, hsteps, hc, -⟩ := quantum_sound_spec sound hq
  obtain ⟨queue, hqueue, -⟩ := quantum_eq_some hq
  obtain ⟨sound', hrun⟩ := sound_running sound hqueue (sound.fits hs).own
  have marked : (c.world.view.put id { s with status := .running }).printed x =
      c.world.view.printed x := by
    simpa using View.printed_put hs (show _ = s.output ++ [] by simp) x
  rw [View.printed_concludes hc, View.printed_steps sound' hrun hsteps, marked]

/-- What a session has printed stays. -/
theorem printed_run (sound : c.world.view.Sound) (n : Nat) (x : TaskId) :
    c.world.view.printed x <+: (c.run n).world.view.printed x := by
  refine (run_induction (P := fun d => d.world.view.Sound ∧
    c.world.view.printed x <+: d.world.view.printed x) ?_ n ⟨sound, List.prefix_rfl⟩).2
  rintro d d' id o ⟨sound, hgrows⟩ hq
  refine ⟨quantum_sound sound hq, hgrows.trans ?_⟩
  rw [printed_quantum sound hq]
  exact List.prefix_append _ _

/-- No session has printed more at the end of a run in which nothing is printed, and only then. -/
theorem printed_run_eq_iff (sound : c.world.view.Sound) (n : Nat) :
    (∀ x, c.world.view.printed x = (c.run n).world.view.printed x) ↔ c.prints n = [] := by
  induction n generalizing c with
  | zero => simp [run, prints]
  | succ n ih =>
    cases hq : c.quantum with
    | none => simp [run_of_stuck hq, prints, hq]
    | some next =>
      obtain ⟨⟨id, o⟩, d⟩ := next
      have sound' := quantum_sound sound hq
      have hd := printed_quantum sound hq
      rw [run_of_quantum hq, show c.prints (n + 1) = c.quantumPrints ++ d.prints n by
        simp [prints, hq], List.append_eq_nil_iff, ← ih sound']
      constructor
      · intro same
        -- what comes in the quantum cannot go later
        have still (x : TaskId) : d.world.view.printed x = c.world.view.printed x := by
          have hgrows := printed_run sound' n x
          rw [← same x, hd] at hgrows
          rw [hd]
          exact (List.prefix_append _ _).eq_of_length_le hgrows.length_le |>.symm
        have hnone := still id
        rw [hd, if_pos rfl] at hnone
        exact ⟨by simpa using hnone, fun x => (still x).trans (same x)⟩
      · rintro ⟨hnone, same⟩ x
        rw [← same, hd, hnone]
        simp

def lines (c : Scheduler) : List String :=
  c.output.flatMap Prod.snd

theorem lines_eq (sorted : c.world.Sorted) (sound : c.world.view.Sound) {n : Nat}
    (hn : c.world.nextId ≤ n) : c.lines = (List.range n).flatMap c.world.view.printed := by
  have below (e : TaskId × Session) (he : e ∈ c.world.sessions) : e.1 < n := by
    have hs : c.world.session? e.1 = some e.2 := Table.get?_of_mem sorted.sessions he
    exact Nat.lt_of_lt_of_le (sound.fits hs).below hn
  rw [lines, output, List.flatMap_map]
  exact Table.flatMap_eq sorted.sessions below Session.output

/-- Lines come, and none goes. They are the same at the end of a run in which nothing is printed,
and only then. -/
theorem lines_run (sorted : c.world.Sorted) (sound : c.world.view.Sound) (n : Nat) :
    c.lines.Sublist (c.run n).lines ∧ (c.lines = (c.run n).lines ↔ c.prints n = []) := by
  obtain ⟨sorted', sound', hids⟩ := run_induction
    (P := fun d => d.world.Sorted ∧ d.world.view.Sound ∧ c.world.nextId ≤ d.world.nextId)
    (fun ⟨sorted, sound, hle⟩ hq => ⟨quantum_sorted sorted hq, quantum_sound sound hq,
      hle.trans (quantum_nextId sound hq)⟩) n ⟨sorted, sound, Nat.le_refl _⟩
  rw [lines_eq sorted sound hids, lines_eq sorted' sound' (Nat.le_refl _)]
  have hgrows := printed_run sound n
  refine ⟨.flatMap_right _ fun x _ => (hgrows x).sublist, ?_⟩
  rw [← printed_run_eq_iff sound]
  refine ⟨fun same x => ?_, fun same => List.flatMap_congr fun x _ => same x⟩
  by_cases hx : x < (c.run n).world.nextId
  · exact eq_of_flatMap_eq (fun x _ => hgrows x) same x (List.mem_range.mpr hx)
  · have unknown (d : Scheduler) (sound : d.world.view.Sound)
        (hd : d.world.nextId ≤ (c.run n).world.nextId) : d.world.view.printed x = [] := by
      cases hs : d.world.session? x with
      | none => simp [View.printed, hs]
      | some s => exact absurd (Nat.lt_of_lt_of_le (sound.fits hs).below hd) hx
    rw [unknown c sound hids, unknown _ sound' (Nat.le_refl _)]

/-! ## Where a program stands -/

/-- A program that has come to its end stays there. -/
theorem run_eq_of_le {m n : Nat} (hidle : (c.run m).world.queue = []) (hmn : m ≤ n) :
    c.run n = c.run m := by
  obtain ⟨k, rfl⟩ := Nat.exists_eq_add_of_le hmn
  rw [run_add]
  exact run_of_stuck (by simp [quantum, hidle]) k

/-- A session that is over stays as it is. -/
theorem session?_run_of_isOver {x : TaskId} {s : Session} (sound : c.world.view.Sound)
    (hs : c.world.session? x = some s) (hover : s.isOver) (n : Nat) :
    (c.run n).world.session? x = some s := by
  refine (run_induction (P := fun d => d.world.view.Sound ∧ d.world.session? x = some s) ?_ n
    ⟨sound, hs⟩).2
  rintro d d' id o ⟨sound, hs⟩ hq
  obtain ⟨t, ht, -, hrun, -⟩ := quantum_runs sound hq
  have hne : x ≠ id := by
    rintro rfl
    obtain rfl : s = t := by simpa [hs] using ht
    simp [hrun] at hover
  exact ⟨quantum_sound sound hq, (session?_of_quantum sound hq hne (sound.fits hs).below).trans hs⟩

theorem run_top (h : start { executable := exe, settings } entry args = .ok (id, c)) (n : Nat) :
    ∃ s, (c.run n).world.session? 0 = some s := by
  obtain ⟨info, bindings, -, -, -, -, -, -, hview⟩ := start_view h
  have first : (c.world.session? 0).isSome := by
    rw [← World.view_session, hview]
    rfl
  refine Option.isSome_iff_exists.mp (run_induction (P := fun d => d.world.view.Sound ∧
    (d.world.session? 0).isSome) ?_ n ⟨start_sound h, first⟩).2
  rintro d d' x o ⟨sound, htop⟩ hq
  obtain ⟨s, k, V, hs, hsteps, hc, -⟩ := quantum_sound_spec sound hq
  refine ⟨quantum_sound sound hq, (View.Keeps.concludes hc).2 0 ((View.Keeps.steps hsteps).2 0 ?_)⟩
  rw [View.put_session]
  split
  · rfl
  · exact htop

/-- A program that is over, or that has nothing to run, stays where it stands. -/
theorem progress_run (h : start { executable := exe, settings } entry args = .ok (id, c)) {m : Nat}
    (hm : (c.run m).progress ≠ .pending) (n : Nat) :
    ((c.run m).run n).progress = (c.run m).progress := by
  by_cases hidle : (c.run m).world.queue = []
  · rw [run_of_stuck (by simp [quantum, hidle])]
  · obtain ⟨s, hs⟩ := run_top h m
    have htop := run_topLevel h m
    have hover : s.isOver := by
      by_contra hrun
      obtain hstatus | ⟨t, hstatus⟩ := Session.isOver_eq_false_iff.mp (by simpa using hrun) <;>
        simp [progress, topSession?, htop, hs, hstatus, hidle] at hm
    have hs' := session?_run_of_isOver (sound_of_run h m) hs hover n
    have htop' := run_topLevel h (m + n)
    rw [run_add] at htop'
    unfold Session.isOver at hover
    simp only [progress, topSession?, htop, htop', Option.bind_some, hs, hs']
    split at hover <;> simp_all

/-! ## What is reported of a failure -/

/-- The failures that were recorded explain how sessions failed. -/
def Accounts (c : Scheduler) : Prop :=
  ∀ x s message, c.world.session? x = some s → s.status = .failed message →
    ∃ e, c.failures.get? x = some e ∧ e.message = message

/-- A quantum records how its session failed. -/
theorem quantum_failures (h : c.quantum = some ((id, o), d)) (x : TaskId) :
    d.failures.get? x = match o with
      | .failed e => if id = x then some e else c.failures.get? x
      | _ => c.failures.get? x := by
  obtain ⟨queue, -, h⟩ := quantum_eq_some h
  generalize ({ c.world with queue } : World).runTurn c.executable c.settings id = turn at h
  obtain ⟨outcome, world⟩ := turn
  obtain ⟨rfl, rfl⟩ := Prod.mk.inj h
  cases o with
  | failed e => exact Table.get?_insert _ _ _ _
  | _ => rfl

theorem Accounts.quantum (accounts : c.Accounts) (sound : c.world.view.Sound)
    (hq : c.quantum = some ((id, o), d)) : d.Accounts := by
  intro x s message hs hstatus
  obtain ⟨V, extends_, -, hrun, hc⟩ := quantum_extends sound hq
  have recorded := quantum_failures hq x
  by_cases hx : x = id
  · subst hx
    obtain ⟨running, hrunning, hstatus'⟩ := hrun.session
    have hs : d.world.view.session x = some s := hs
    generalize d.world.view = V' at hs hc
    cases hc with
    | @failed queue t t' e =>
      obtain rfl : _ = s := by simpa using hs
      exact ⟨e, by simpa using recorded, by simpa using hstatus⟩
    | preempted hq =>
      obtain rfl : running = s := by simpa [hrunning] using hs
      simp [hstatus'] at hstatus
    | halted | suspended =>
      obtain rfl : _ = s := by simpa using hs
      cases hstatus
  · have same : d.world.session? x = V.session x := hc.session.2 x hx
    rw [same] at hs
    cases hold : c.world.session? x with
    | none => simp [(extends_.new hx hold hs).1] at hstatus
    | some s' =>
      obtain rfl : s' = s := by
        rw [extends_.session hx (sound.fits hold).below] at hs
        simpa [hold] using hs
      obtain ⟨e, he, hmessage⟩ := accounts x s' message hold hstatus
      refine ⟨e, ?_, hmessage⟩
      rw [recorded]
      cases o <;> simp [Ne.symm hx, he]

theorem run_accounts (h : start { executable := exe, settings } entry args = .ok (id, c))
    (n : Nat) : (c.run n).Accounts := by
  have first : c.Accounts := by
    obtain ⟨info, bindings, -, -, -, -, -, -, hview⟩ := start_view h
    intro x s message hs hstatus
    rw [← World.view_session, hview, View.spawn_session] at hs
    split at hs
    · obtain rfl := Option.some.inj hs
      cases hstatus
    · cases hs
  exact (run_induction (P := fun d => d.world.view.Sound ∧ d.Accounts)
    (fun ⟨sound, accounts⟩ hq => ⟨quantum_sound sound hq, accounts.quantum sound hq⟩) n
    ⟨start_sound h, first⟩).2

/-- What is reported of a program that has nothing to run. -/
theorem report_cases (h : start { executable := exe, settings } entry args = .ok (id, c)) {n : Nat}
    (hidle : (c.run n).world.queue = []) :
    (∃ report, (c.run n).report = .ok report ∧ (c.run n).progress = .finished report.result ∧
      report.allOutput = (c.run n).lines) ∨
    (∃ e, (c.run n).report = .error e ∧ (c.run n).progress = .failed e.message) ∨
    ∃ waiting, (c.run n).report = .error (.deadlock waiting) ∧
      (c.run n).progress = .blocked waiting := by
  obtain ⟨s, hs⟩ := run_top h n
  have htop := run_topLevel h n
  cases hstatus : s.status with
  | halted =>
    have hprogress : (c.run n).progress = .finished (s.result.getD .null) := by
      simp [progress, topSession?, htop, hs, hstatus]
    left
    simp only [report, htop, hprogress]
    exact ⟨_, rfl, rfl, rfl⟩
  | failed message =>
    have hprogress : (c.run n).progress = .failed message := by
      simp [progress, topSession?, htop, hs, hstatus]
    obtain ⟨e, he, rfl⟩ := run_accounts h n 0 s message hs hstatus
    exact .inr (.inl ⟨e, by simp [report, htop, hprogress, he], hprogress⟩)
  | running | suspended =>
    have hprogress : (c.run n).progress = .blocked (c.run n).waiting := by
      simp [progress, topSession?, htop, hs, hstatus, hidle]
    exact .inr (.inr ⟨_, by simp [report, htop, hprogress], hprogress⟩)

end Scheduler

/-! ## Pieces until a program is over -/

namespace Invocation

variable {σ : Type} [Store σ] {inv : Invocation} {store : σ} {id : String} {c : Scheduler}

/-- Resumes a saved world with one count after the other until its program is no longer pending;
nothing if it still is after `n` pieces. -/
def drive (inv : Invocation) (id : String) :
    (n : Nat) → (store : σ) → (counts : Nat → Nat) → Option (Except InvocationError Standing)
  | 0, _, _ => none
  | n + 1, store, counts =>
    match inv.resume store id (counts 0) with
    | (.ok .pending, store) => drive inv id n store fun i => counts (i + 1)
    | (answer, _) => some answer

def elapsed (counts : Nat → Nat) (n : Nat) : Nat :=
  ∑ i ∈ Finset.range n, counts i

@[simp] theorem elapsed_one (counts : Nat → Nat) : elapsed counts 1 = counts 0 :=
  Finset.sum_range_one counts

theorem elapsed_succ (counts : Nat → Nat) (n : Nat) :
    elapsed counts (n + 1) = counts 0 + elapsed (fun i => counts (i + 1)) n := by
  rw [elapsed, Finset.sum_range_succ', Nat.add_comm, elapsed]

/-- Each piece has at least one quantum. -/
theorem le_elapsed {counts : Nat → Nat} (hcounts : ∀ i, 0 < counts i) (n : Nat) :
    n ≤ elapsed counts n := calc
  n = (Finset.range n).card := (Finset.card_range n).symm
  _ = ∑ _i ∈ Finset.range n, 1 := Finset.card_eq_sum_ones _
  _ ≤ ∑ i ∈ Finset.range n, counts i := Finset.sum_le_sum fun i _ => hcounts i

theorem statusOf_eq_pending_iff : statusOf c = .ok .pending ↔ c.progress = .pending := by
  unfold statusOf
  cases c.progress <;> simp

/-- A piece after which a program is pending is followed by the others. -/
theorem drive_of_pending {n : Nat} {counts : Nat → Nat}
    (h : (inv.resume store id (counts 0)).1 = .ok .pending) :
    inv.drive id (n + 1) store counts =
      inv.drive id n (inv.resume store id (counts 0)).2 fun i => counts (i + 1) := by
  rw [drive]
  generalize inv.resume store id (counts 0) = next at h
  obtain ⟨answer, store'⟩ := next
  cases h
  rfl

/-- A piece after which a program is not pending is the last one. -/
theorem drive_of_ne_pending {n : Nat} {counts : Nat → Nat}
    (h : (inv.resume store id (counts 0)).1 ≠ .ok .pending) :
    inv.drive id (n + 1) store counts = some (inv.resume store id (counts 0)).1 := by
  rw [drive]
  split
  · next heq => simp [heq] at h
  · next heq => simp [heq]

/-- The pieces of a saved run end with the first one after which its program is not pending. -/
theorem drive_of_saved {m k : Nat} {counts : Nat → Nat}
    (hexe : ∀ n, (c.run n).executable = inv.executable)
    (hsettings : ∀ n, (c.run n).settings = inv.settings)
    (durable : ∀ n, Durable σ id (c.run n).world) (saved : Saved store id (c.run m).world)
    (hpending : ∀ i < k, (c.run (m + elapsed counts (i + 1))).progress = .pending)
    (hlast : (c.run (m + elapsed counts (k + 1))).progress ≠ .pending) :
    inv.drive id k store counts = none ∧ inv.drive id (k + 1) store counts =
      some (statusOf (c.run (m + elapsed counts (k + 1)))) := by
  induction k generalizing m store counts with
  | zero =>
    obtain ⟨hanswer, -⟩ := resume_of_saved (hexe m) (hsettings m) saved (durable m)
      (durable (m + counts 0))
    simp only [Nat.zero_add, elapsed_one] at hlast ⊢
    refine ⟨rfl, ?_⟩
    rw [drive_of_ne_pending, hanswer]
    rwa [hanswer, ne_eq, statusOf_eq_pending_iff]
  | succ k ih =>
    obtain ⟨hanswer, saved'⟩ := resume_of_saved (hexe m) (hsettings m) saved (durable m)
      (durable (m + counts 0))
    have hfirst : (c.run (m + counts 0)).progress = .pending := by
      simpa using hpending 0 (Nat.succ_pos k)
    rw [statusOf_eq_pending_iff.mpr hfirst] at hanswer
    rw [elapsed_succ, ← Nat.add_assoc] at hlast
    rw [drive_of_pending hanswer, drive_of_pending hanswer, elapsed_succ, ← Nat.add_assoc]
    refine ih saved' (fun i hi => ?_) hlast
    rw [Nat.add_assoc, ← elapsed_succ]
    exact hpending (i + 1) (Nat.succ_lt_succ hi)

/-- What is answered where the pieces end as `now` and the direct run goes on to `d`, printing
`later` on the way: what the direct run reports, but for the lines that come later. -/
inductive Answers (now d : Scheduler) (later : List (List Value)) :
    Except MachineError Report → Except InvocationError Standing → Prop
  | finished {report : Report} (come : now.lines.Sublist report.allOutput)
      (all : now.lines = report.allOutput ↔ later = []) :
      Answers now d later (.ok report) (.ok (.finished report.result now.lines))
  | failed {e : MachineError} (how : d.progress = .failed e.message) :
      Answers now d later (.error e) (.ok (.failed e.message))
  | blocked {waiting : List TaskId} (how : d.progress = .blocked waiting) :
      Answers now d later (.error (.deadlock waiting)) (.error (.machine (.deadlock waiting)))

/-- Among as many pieces as a program has quanta is one after which it is not pending. -/
theorem exists_last_piece {exe : Executable} {settings : MachineSettings} {entry : String}
    {args : List Value} {top : TaskId} {bound : Nat} {counts : Nat → Nat}
    (h : Scheduler.start { executable := exe, settings } entry args = .ok (top, c))
    (hidle : (c.run bound).world.queue = []) (hcounts : ∀ i, 0 < counts i) :
    ∃ k < bound, (∀ i < k, (c.run (elapsed counts (i + 1))).progress = .pending) ∧
      (c.run (elapsed counts (k + 1))).progress ≠ .pending := by
  have hpositive : 0 < bound := by
    obtain ⟨_, _, -, -, -, rfl⟩ := Scheduler.start_eq h
    refine Nat.pos_of_ne_zero ?_
    rintro rfl
    cases hidle
  let ended (k : Nat) : Prop := (c.run (elapsed counts (k + 1))).progress ≠ .pending
  have hended : ended (bound - 1) := by
    simp only [ended, Nat.sub_add_cancel hpositive,
      Scheduler.run_eq_of_le hidle (le_elapsed hcounts bound)]
    rcases Scheduler.report_cases h hidle with ⟨_, -, hend, -⟩ | ⟨_, -, hend⟩ | ⟨_, -, hend⟩ <;>
      simp [hend]
  classical
  obtain ⟨k, hk, hfirst⟩ := Nat.findX ⟨bound - 1, hended⟩
  have hbound : k ≤ bound - 1 := not_lt.mp fun hlt => hfirst _ hlt hended
  exact ⟨k, by omega, fun i hi => by simpa [ended] using hfirst i hi, hk⟩

/-- A program that is not pending after `m` quanta is answered for what it is at its end. -/
theorem answers_of_run {exe : Executable} {settings : MachineSettings} {entry : String}
    {args : List Value} {top : TaskId} {m bound : Nat}
    (h : Scheduler.start { executable := exe, settings } entry args = .ok (top, c))
    (hm : (c.run m).progress ≠ .pending) (hidle : (c.run bound).world.queue = []) :
    Answers (c.run m) (c.run bound) ((c.run m).prints bound) (c.run bound).report
      (statusOf (c.run m)) := by
  have hrest : (c.run m).run bound = c.run bound := by
    rw [← Scheduler.run_add]
    exact Scheduler.run_eq_of_le hidle (Nat.le_add_left _ _)
  have hprogress := Scheduler.progress_run h hm bound
  obtain ⟨come, all⟩ := Scheduler.lines_run (Scheduler.run_sorted h m)
    (Scheduler.sound_of_run h m) bound
  rw [hrest] at hprogress come all
  rw [statusOf, ← hprogress]
  rcases Scheduler.report_cases h hidle with
    ⟨report, hreport, hend, hlines⟩ | ⟨e, hreport, hend⟩ | ⟨waiting, hreport, hend⟩
  · rw [hreport, hend]
    exact .finished (hlines ▸ come) (hlines ▸ all)
  · rw [hreport, hend]
    exact .failed hend
  · rw [hreport, hend]
    exact .blocked hend

/-- The worlds of a run can be saved while their numbers have 64 bits, and are read back where the
store keeps their documents. -/
theorem durable_run {entry : String} {args : List Value} {top : TaskId} {n : Nat}
    (hexe : inv.executable.Finite) (hargs : ∀ v ∈ args, v.Finite)
    (h : Scheduler.start { executable := inv.executable, settings := inv.settings } entry args =
      .ok (top, c)) (hids : (c.run n).world.nextId ≤ UInt64.size)
    (keeps : ∀ j, (c.run n).world.toJson = .ok j → Store.Keeps σ id j) :
    Durable σ id (c.run n).world := by
  obtain ⟨j, hj, hread⟩ := (World.writes (Scheduler.run_regular h hids)).isOk fun x hx =>
    Scheduler.run_finite hexe hargs h n hx
  exact ⟨j, hj, hread, keeps j hj⟩

/-- Where a program comes to an end in a direct run, a run in pieces of at least one quantum each
comes to an end as well, after at most as many pieces as there are quanta. It has the same result,
the same message if the program failed, and the same sessions that wait if there is nothing to run.
It tells the lines that were printed until then, which are all of them just if no session prints
after the one of the program is over. -/
theorem drive_of_drain {entry : String} {args : List Value} {top : TaskId} {bound : Nat}
    {outcome : Except MachineError Report} {d : Scheduler} (hexe : inv.executable.Finite)
    (hargs : ∀ v ∈ args, v.Finite)
    (h : Scheduler.start { executable := inv.executable, settings := inv.settings } entry args =
      .ok (top, c)) (hdrain : c.drain bound = some (outcome, d))
    (hids : d.world.nextId ≤ UInt64.size)
    (keeps : ∀ n ≤ bound, ∀ j, (c.run n).world.toJson = .ok j → Store.Keeps σ id j)
    {counts : Nat → Nat} (hcounts : ∀ i, 0 < counts i) (store : σ) :
    ∃ begun k answer, inv.start store id entry args = .ok begun ∧ k < bound ∧
      (∀ i < k, (c.run (elapsed counts (i + 1))).progress = .pending) ∧
      inv.drive id k begun counts = none ∧ inv.drive id (k + 1) begun counts = some answer ∧
      Answers (c.run (elapsed counts (k + 1))) d ((c.run (elapsed counts (k + 1))).prints bound)
        outcome answer := by
  obtain ⟨hidle, rfl, rfl⟩ := Scheduler.drain_eq_some hdrain
  have early {n : Nat} (hn : n ≤ bound) : Durable σ id (c.run n).world :=
    durable_run hexe hargs h (Nat.le_trans (Scheduler.run_nextId_le h hn) hids) (keeps n hn)
  have durable (n : Nat) : Durable σ id (c.run n).world := by
    rcases Nat.le_total n bound with hn | hn
    · exact early hn
    · exact Scheduler.run_eq_of_le hidle hn ▸ early (Nat.le_refl _)
  obtain ⟨begun, hbegun, saved⟩ := checkpoint_of_durable (durable 0) store
  obtain ⟨k, hk, hpending, hlast⟩ := exists_last_piece h hidle hcounts
  have hlast' : (c.run (0 + elapsed counts (k + 1))).progress ≠ .pending := by simpa using hlast
  obtain ⟨hnone, hsome⟩ := drive_of_saved (fun n => (Scheduler.run_fields h n).1)
    (fun n => (Scheduler.run_fields h n).2) durable saved (by simpa using hpending) hlast'
  rw [Nat.zero_add] at hsome
  refine ⟨begun, k, _, ?_, hk, hpending, hnone, hsome, answers_of_run h hlast hidle⟩
  simp only [start, h]
  exact hbegun

/-! ## A program that does not wait -/

/-- A program that starts a task, which prints a line, and gives a result without waiting for it. -/
def lingering : Invocation where
  executable := {
    functions := [("main", { location := 0, params := [] }), ("say", { location := 5, params := [] })]
    code := [⟨.pushBinding "say", []⟩, ⟨.asyncCall 0 [], []⟩, ⟨.pop, []⟩,
      ⟨.pushValue (.integer 5), []⟩, ⟨.ret, []⟩, ⟨.pushValue (.integer 1), []⟩,
      ⟨.pushBinding "print", []⟩, ⟨.call 1 [.null], []⟩, ⟨.ret, []⟩] }
  settings := {}

theorem sized_lingering : lingering.executable.Sized :=
  Executable.sized_of_forall (by decide) (by decide)

theorem lingering_constant (i : Instruction) (hi : i ∈ lingering.executable.code) (v : Value)
    (hv : i.op = .pushValue v) : v.kind = .integer := by
  simp only [lingering, List.mem_cons, List.not_mem_nil, or_false] at hi
  rcases hi with rfl | rfl | rfl | rfl | rfl | rfl | rfl | rfl | rfl <;> cases hv <;> rfl

/-- Resumed for one quantum, `lingering` has its result, but its line comes in a second quantum: it
is reported of a direct run only. -/
theorem drive_of_drain_lingering : ∃ c d report begun,
    Scheduler.start { executable := lingering.executable, settings := {} } "main" [] =
      .ok (0, c) ∧
    c.drain 2 = some (.ok report, d) ∧ report.allOutput = ["1"] ∧
    lingering.start ({} : TableStore) "s" "main" [] = .ok begun ∧
    lingering.drive "s" 1 begun (fun _ => 1) = some (.ok (.finished (.integer 5) [])) := by
  obtain ⟨c, report, h, hvalues, hids, hdepth, hidle, hreport, hresult, hall, hover, hlines⟩ :
      ∃ c report,
        Scheduler.start { executable := lingering.executable, settings := {} } "main" [] =
          .ok (0, c) ∧
        (∀ n < 3, ∀ v ∈ (c.run n).world.values,
          v.kind = .integer ∨ v.kind = .future ∨ v.kind = .null) ∧
        (∀ n < 3, (c.run n).world.nextId < UInt64.size) ∧
        (∀ n < 3, (c.run n).world.toJson.toOption.all (·.depth ≤ Json.maxDepth)) ∧
        (c.run 2).world.queue = [] ∧ (c.run 2).report = .ok report ∧
        report.result = .integer 5 ∧ report.allOutput = ["1"] ∧
        (c.run 1).progress = .finished (.integer 5) ∧ (c.run 1).lines = [] :=
    ⟨_, _, rfl, by decide +kernel, by decide +kernel, by decide +kernel, by decide +kernel, rfl,
      rfl, by decide +kernel, rfl, by decide +kernel⟩
  have finite : lingering.executable.Finite := fun i hi v hv x hx => by
    have kind := lingering_constant i hi v hv
    cases v <;> simp_all [Value.kind]
  have keeps (n : Nat) (hn : n ≤ 2) (j : Json) (hj : (c.run n).world.toJson = .ok j) :
      Store.Keeps TableStore "s" j :=
    Scheduler.keeps_of_integers sized_lingering lingering_constant h (hids n (by omega))
      (hvalues n (by omega)) (hdepth n (by omega)) "s" hj
  have hdrain : c.drain 2 = some (.ok report, c.run 2) := hreport ▸ Scheduler.drain_of_idle hidle
  have positive (i : Nat) : 0 < (fun _ => 1 : Nat → Nat) i := Nat.one_pos
  obtain ⟨begun, k, answer, hbegun, hk, hpending, -, hanswer, answers⟩ :=
    drive_of_drain finite (by simp) h hdrain (Nat.le_of_lt (hids 2 (by omega))) keeps positive {}
  obtain rfl : k = 0 := by
    by_contra hne
    have first := hpending 0 (by omega)
    rw [elapsed_one, hover] at first
    cases first
  refine ⟨c, _, report, begun, h, hdrain, hall, hbegun, ?_⟩
  cases answers with
  | finished => rw [hanswer, hresult, elapsed_one, hlines]

end Invocation

end Teal
