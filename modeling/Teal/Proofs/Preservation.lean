import Teal.Proofs.Linking

/-!
# Programs do what they mean

The run of a compiled program that starts no tasks has one session. It ends with the value and the
lines that the evaluation of the program gives, or fails with the error that it raises; and it
does not end if the evaluation does not. The length of a slice plays no part in this.

## Main definitions

* `Scheduler.solo`: a world with one session.
* `Executable.Returns`: a program comes to its end.

## Main statements

* `Scheduler.run_solo_of_leads`, `Scheduler.run_solo_of_ends`: the run of a world with one session.
* `Evaluator.reported_evaluate`: what an evaluation gives, a program reports.
* `Executable.evaluate_iff`: compiled programs and their evaluation agree.
-/

namespace Teal

variable {exe : Executable} {settings : MachineSettings} {s t : Session} {m n : Nat}

theorem Leads.status (h : Leads exe m s t) : t.status = s.status := by
  induction h with
  | refl s => rfl
  | head hr _ ih => exact ih.trans (Session.keeps_of_request hr).status

/-- A slice makes the steps that a session leads through. -/
theorem slice_of_leads (h : Leads exe m s t) (n : Nat) (w : World) :
    slice exe (m + n) w s = slice exe n w t := by
  induction h with
  | refl s => rw [Nat.zero_add]
  | head hr _ ih =>
    rw [Nat.succ_add, slice, step_eq_perform, hr]
    exact ih

namespace Scheduler

/-- A world whose only session is that of its program. -/
def solo (exe : Executable) (settings : MachineSettings) (queue : List TaskId) (s : Session)
    (preemptions : Nat) : Scheduler where
  executable := exe
  settings := settings
  world :=
    { sessions := [(0, s)], tasks := [(0, .pending [])], queue, topLevel := some 0, nextId := 1 }
  preemptions := preemptions

theorem quantum_solo {preemptions : Nat} {o : Outcome} (hs : s.status = .running)
    (h : ∀ w, slice exe (max settings.stepLimit 1) w s = (w, t, o)) :
    (solo exe settings [0] s preemptions).quantum =
      some ((0, o), (solo exe settings [] (t.marked o) preemptions).conclude 0 o) := by
  have hrun : { s with status := .running } = s := by rw [← hs]
  have hover : s.isOver = false := Session.isOver_of_running hs
  have hturn (w : World) (hw : w.session? 0 = some s) :
      w.runTurn exe settings 0 =
        (o, { w with sessions := (w.sessions.erase 0).insert 0 (t.marked o) }) := by
    simp [World.runTurn, hw, hover, World.runSlice, hrun, h, World.setSession]
  simp only [quantum, solo]
  rw [hturn _ rfl]
  rfl

/-- A session that goes on for as many steps as there are in some slices is preempted after each of
them. -/
theorem run_solo_of_leads {k : Nat} (hs : s.status = .running)
    (h : Leads exe (k * max settings.stepLimit 1) s t) (preemptions n : Nat) :
    (solo exe settings [0] s preemptions).run (k + n) =
      (solo exe settings [0] t (preemptions + k)).run n := by
  induction k generalizing s preemptions with
  | zero =>
    rw [Nat.zero_mul] at h
    cases h with
    | refl s => rw [Nat.zero_add, Nat.add_zero]
  | succ k ih =>
    rw [Nat.succ_mul, Nat.add_comm] at h
    obtain ⟨u, first, rest⟩ := h.split
    have hslice (w : World) : slice exe (max settings.stepLimit 1) w s = (w, u, .preempted) := by
      exact slice_of_leads first 0 w
    rw [Nat.succ_add, run_of_quantum (quantum_solo hs hslice)]
    have hnext := ih (first.status.trans hs) rest (preemptions + 1)
    rw [Nat.add_assoc, Nat.add_comm 1 k] at hnext
    exact hnext

/-- A session that halts or fails ends its program. -/
theorem run_solo_of_ends {o : Outcome} (hs : s.status = .running) (h : Leads exe m s t)
    {u : Session} (hend : ∀ n w, slice exe (n + 1) w t = (w, u, o)) :
    ∃ n preemptions, (solo exe settings [0] s 0).run n =
      (solo exe settings [] (u.marked o) preemptions).conclude 0 o := by
  have hlimit : 0 < max settings.stepLimit 1 := by omega
  -- the whole slices before the last one, and the steps of the last one
  have hsteps : m = m / max settings.stepLimit 1 * max settings.stepLimit 1 +
      m % max settings.stepLimit 1 := (Nat.div_add_mod' m _).symm
  have hlast := Nat.mod_lt m hlimit
  generalize m / max settings.stepLimit 1 = k, m % max settings.stepLimit 1 = rest at *
  subst hsteps
  obtain ⟨middle, whole, last⟩ := h.split
  have hslice (w : World) : slice exe (max settings.stepLimit 1) w middle = (w, u, o) := by
    obtain ⟨n, hn⟩ := Nat.exists_eq_add_of_lt hlast
    rw [hn, Nat.add_assoc, slice_of_leads last, hend]
  refine ⟨k + 1, 0 + k, ?_⟩
  rw [run_solo_of_leads hs whole, run_of_quantum (quantum_solo (whole.status.trans hs) hslice)]
  rfl

end Scheduler

def Executable.Returns (exe : Executable) (settings : MachineSettings) (entry : String)
    (args : List Value) (r : Except MachineError Report) : Prop :=
  ∃ bound, exe.evaluate bound settings entry args = some r

section Returns

variable {entry : String} {args : List Value}

/-- What a started program returns is its report when the queue is empty. -/
theorem Executable.returns_iff {id : TaskId} {c : Scheduler} {r : Except MachineError Report}
    (h : Scheduler.start { executable := exe, settings } entry args = .ok (id, c)) :
    exe.Returns settings entry args r ↔
      ∃ n, (c.run n).world.queue = [] ∧ r = (c.run n).report := by
  unfold Executable.Returns Executable.evaluate
  simp only [h, Option.map_eq_some_iff]
  constructor
  · rintro ⟨n, ⟨_, d⟩, hd, rfl⟩
    obtain ⟨hidle, -, hreport⟩ := Scheduler.drain_eq_some hd
    exact ⟨n, hidle, hreport⟩
  · rintro ⟨n, hidle, rfl⟩
    exact ⟨n, _, Scheduler.drain_of_idle hidle, rfl⟩

theorem Executable.Returns.unique {r r' : Except MachineError Report}
    (h : exe.Returns settings entry args r) (h' : exe.Returns settings entry args r') :
    r = r' := by
  cases hstart : Scheduler.start { executable := exe, settings } entry args with
  | error e =>
    obtain ⟨m, hm⟩ := h
    obtain ⟨n, hn⟩ := h'
    simp only [Executable.evaluate, hstart, Option.some.injEq] at hm hn
    rw [← hm, ← hn]
  | ok started =>
    obtain ⟨m, hidle, rfl⟩ := (Executable.returns_iff hstart).mp h
    obtain ⟨n, hidle', rfl⟩ := (Executable.returns_iff hstart).mp h'
    rw [Scheduler.run_eq_of_idle hidle hidle']

theorem Executable.not_returns {r : Except MachineError Report}
    (h : exe.Returns settings entry args r) :
    ¬ ∀ bound, exe.evaluate bound settings entry args = none := by
  obtain ⟨bound, hbound⟩ := h
  intro hnone
  rw [hnone bound] at hbound
  cases hbound

structure Executable.Starts (exe : Executable) (settings : MachineSettings) (entry : String)
    (args : List Value) (s : Session) : Prop where
  running : s.status = .running
  start : Scheduler.start { executable := exe, settings } entry args =
    .ok (0, .solo exe settings [0] s 0)

theorem Executable.Starts.returns {c : Scheduler} (h : exe.Starts settings entry args s)
    (hrun : (Scheduler.solo exe settings [0] s 0).run n = c) (hidle : c.world.queue = []) :
    exe.Returns settings entry args c.report := by
  subst hrun
  exact (Executable.returns_iff h.start).mpr ⟨n, hidle, rfl⟩

/-- The session of a program halts. -/
theorem Executable.Starts.returns_of_halt (h : exe.Starts settings entry args s) {s' : Session}
    {v : Value} (hleads : Leads exe m s s') (hr : request exe s' = .halt t v) :
    ∃ r, exe.Returns settings entry args (.ok r) ∧ r.result = v ∧ r.allOutput = t.output := by
  have hend (n : Nat) (w : World) : slice exe (n + 1) w s' = (w, t, .halted v) := by
    rw [slice, step_eq_perform, hr]
    rfl
  obtain ⟨n, preemptions, hrun⟩ := Scheduler.run_solo_of_ends h.running hleads hend
  exact ⟨_, h.returns hrun rfl, rfl, List.append_nil t.output⟩

/-- The session of a program fails. -/
theorem Executable.Starts.returns_of_fail (h : exe.Starts settings entry args s) {s' : Session}
    {e : MachineError} (hleads : Leads exe m s s') (hr : request exe s' = .fail t e) :
    exe.Returns settings entry args (.error e) := by
  have hend (n : Nat) (w : World) : slice exe (n + 1) w s' = (w, t, .failed e) := by
    rw [slice, step_eq_perform, hr]
    rfl
  obtain ⟨n, preemptions, hrun⟩ := Scheduler.run_solo_of_ends h.running hleads hend
  exact h.returns hrun rfl

/-- The session of a program goes on for ever. -/
theorem Executable.Starts.evaluate_eq_none (h : exe.Starts settings entry args s)
    (hleads : ∀ n, ∃ t, Leads exe n s t) (bound : Nat) :
    exe.evaluate bound settings entry args = none := by
  obtain ⟨t, ht⟩ := hleads (bound * max settings.stepLimit 1)
  have hrun := Scheduler.run_solo_of_leads h.running ht 0 0
  have hbusy : (Scheduler.solo exe settings [0] s 0).drain bound = none := by
    rw [Nat.add_zero] at hrun
    simp only [Scheduler.drain, hrun]
    rfl
  simp [Executable.evaluate, h.start, hbusy]

def Answer.Reported (exe : Executable) (settings : MachineSettings) (entry : String)
    (args : List Value) : Answer Value → Prop
  | .given v scope =>
    ∃ r, exe.Returns settings entry args (.ok r) ∧ r.result = v ∧ r.allOutput = scope.lines
  | .raised e => exe.Returns settings entry args (.error e)
  | .unknown => True

namespace Evaluator

variable {functions : List Region}

def entryFrame (entry : String) : Frame where
  id := 0
  status := .running
  result := none
  function := entry
  returnIp := none
  callers := []

theorem starts_entry {info : FunctionEntry} {bindings : Bindings}
    (hf : exe.function? entry = some info)
    (hb : argumentBindings entry info.params [] args (args.map fun _ => .null) = .ok bindings) :
    exe.Starts settings entry args ((entryFrame entry).at info.location [] ⟨bindings, []⟩) := by
  refine ⟨rfl, ?_⟩
  simp only [Scheduler.start, World.spawnCall, hf, hb, bind, Except.bind]
  rfl

theorem plain_entry {location : Nat} {params : List String} {bindings : Bindings}
    (hargs : ∀ v ∈ args, v.FutureFree)
    (hb : argumentBindings entry params [] args (args.map fun _ => .null) = .ok bindings) :
    ((entryFrame entry).at location [] ⟨bindings, []⟩).Plain := by
  intro u hold
  have hold : (Value.future u).Bound bindings := by
    simpa [Session.Holds, entryFrame, Frame.at] using hold
  exact not_bound_of_futureFree hargs hb u hold

/-- A program that could not be started is reported with its error. -/
theorem returns_of_start {e : MachineError}
    (h : Scheduler.start { executable := exe, settings } entry args = .error e) :
    exe.Returns settings entry args (.error e) :=
  ⟨0, by simp [Executable.evaluate, h]⟩

/-- The evaluation of a program is either realized by the session it starts with, or it is an
error to start it. -/
theorem evaluate_cases (hexe : exe.FutureFree) (hlink : exe.Links functions)
    (settings : MachineSettings) (entry : String) (hargs : ∀ v ∈ args, v.FutureFree) :
    (∃ e, (∀ fuel, evaluate fuel functions entry args = .raised e) ∧
      Scheduler.start { executable := exe, settings } entry args = .error e) ∨
    ∃ s, exe.Starts settings entry args s ∧ ∀ fuel, ∃ ret source,
      exe.instruction? ret = some ⟨.ret, source⟩ ∧
      (evaluate fuel functions entry args).Realized exe fuel s fun v scope =>
        (entryFrame entry).at ret [v] scope := by
  cases hr : find? functions entry with
  | none =>
    refine .inl ⟨.unknownFunction entry, fun fuel => by simp [evaluate, hr], ?_⟩
    simp [Scheduler.start, World.spawnCall, hlink.missing hr, bind, Except.bind]
  | some r =>
    obtain ⟨location, tag, hf, hcode⟩ := hlink.found hr
    obtain ⟨hmem, hname⟩ := find?_eq_some hr
    cases hb : argumentBindings entry r.function.params [] args (args.map fun _ => .null) with
    | error e =>
      refine .inl ⟨e, fun fuel => by simp only [evaluate, hr, hb], ?_⟩
      simp only [Scheduler.start, World.spawnCall, hf, hb, bind, Except.bind]
    | ok bindings =>
      refine .inr ⟨_, starts_entry hf hb, fun fuel => ?_⟩
      have hisSome : (exe.function? r.function.name).isSome := by
        rw [hname, hf]
        rfl
      obtain ⟨ret, source, hret, body⟩ := realized_body hexe hlink
        (applies_applyWith hexe hlink fuel) hmem hisSome hcode
      refine ⟨ret, source, hret, ?_⟩
      simpa only [evaluate, hr, hb] using
        body (entryFrame entry) [] bindings [] (plain_entry hargs hb)

theorem reported_evaluate (hexe : exe.FutureFree) (hlink : exe.Links functions)
    (settings : MachineSettings) (entry : String) (hargs : ∀ v ∈ args, v.FutureFree) (fuel : Nat) :
    (evaluate fuel functions entry args).Reported exe settings entry args := by
  rcases evaluate_cases hexe hlink settings entry hargs with
    ⟨e, heval, hstart⟩ | ⟨s, hstarts, hrealized⟩
  · rw [heval fuel]
    exact returns_of_start hstart
  · obtain ⟨ret, source, hret, h⟩ := hrealized fuel
    cases hanswer : evaluate fuel functions entry args with
    | given v scope =>
      rw [hanswer] at h
      obtain ⟨m, hleads⟩ := h
      exact hstarts.returns_of_halt hleads (request_ret_last hret rfl)
    | raised e =>
      rw [hanswer] at h
      obtain ⟨m, s', t, hleads, hr⟩ := h
      exact hstarts.returns_of_fail hleads hr
    | unknown => trivial

/-- Where no fuel is enough to evaluate a program, it does not end. -/
theorem evaluate_eq_none_of_unknown (hexe : exe.FutureFree) (hlink : exe.Links functions)
    (hargs : ∀ v ∈ args, v.FutureFree)
    (h : ∀ fuel, evaluate fuel functions entry args = .unknown) (bound : Nat) :
    exe.evaluate bound settings entry args = none := by
  rcases evaluate_cases hexe hlink settings entry hargs with
    ⟨e, heval, -⟩ | ⟨s, hstarts, hrealized⟩
  · cases (h 0).symm.trans (heval 0)
  · refine hstarts.evaluate_eq_none (fun n => ?_) bound
    obtain ⟨ret, source, hret, hn⟩ := hrealized n
    rwa [h n] at hn

/-- A program that comes to its end is evaluated to it with some fuel. -/
theorem evaluate_of_returns (hexe : exe.FutureFree) (hlink : exe.Links functions)
    (hargs : ∀ v ∈ args, v.FutureFree) {r : Except MachineError Report}
    (h : exe.Returns settings entry args r) :
    ∃ fuel, (∃ p scope, r = .ok p ∧
        evaluate fuel functions entry args = .given p.result scope ∧ scope.lines = p.allOutput) ∨
      ∃ e, r = .error e ∧ evaluate fuel functions entry args = .raised e := by
  obtain ⟨fuel, hfuel⟩ : ∃ fuel, evaluate fuel functions entry args ≠ .unknown := by
    by_contra hnone
    simp only [not_exists, not_not] at hnone
    exact Executable.not_returns h (evaluate_eq_none_of_unknown hexe hlink hargs hnone)
  refine ⟨fuel, ?_⟩
  have reported := reported_evaluate hexe hlink settings entry hargs fuel
  cases hanswer : evaluate fuel functions entry args with
  | given v scope =>
    rw [hanswer] at reported
    obtain ⟨p, hp, rfl, hlines⟩ := reported
    exact .inl ⟨p, scope, h.unique hp, rfl, hlines.symm⟩
  | raised e =>
    rw [hanswer] at reported
    exact .inr ⟨e, h.unique reported, rfl⟩
  | unknown => exact absurd hanswer hfuel

end Evaluator

end Returns

/-- A program that was read from a text, could be compiled and starts no tasks does what its
evaluation does, however long the slices are: it returns a value and prints lines if the
evaluation does, it fails with an error if the evaluation raises it, and it runs for ever if the
evaluation does. The functions that the evaluation knows are those of the program. -/
theorem Executable.evaluate_iff {source : Source} {program : List Expr} {exe : Executable}
    (hparse : source.parse = .ok program) (hcompile : compile program = .ok exe)
    (hsync : ∀ e ∈ program, e.isSync) (settings : MachineSettings) (entry : String)
    {args : List Value} (hargs : ∀ v ∈ args, v.FutureFree) :
    Evaluator.Lists program (numberedFunctions program) ∧
    (∀ v lines,
      (∃ r, exe.Returns settings entry args (.ok r) ∧ r.result = v ∧ r.allOutput = lines) ↔
        ∃ fuel scope, Evaluator.evaluate fuel (numberedFunctions program) entry args =
          .given v scope ∧ scope.lines = lines) ∧
    (∀ e, exe.Returns settings entry args (.error e) ↔
      ∃ fuel, Evaluator.evaluate fuel (numberedFunctions program) entry args = .raised e) ∧
    ((∀ bound, exe.evaluate bound settings entry args = none) ↔
      ∀ fuel, Evaluator.evaluate fuel (numberedFunctions program) entry args = .unknown) := by
  have hlists := Evaluator.lists_numberedFunctions hcompile (named_of_parse hparse)
  have hlink := Executable.links_of_compile hcompile hlists hsync
  have hexe := futureFree_of_compile hcompile
  have reported := Evaluator.reported_evaluate hexe hlink settings entry hargs
  refine ⟨hlists, fun v lines => ⟨?_, ?_⟩, fun e => ⟨fun h => ?_, ?_⟩, fun h fuel => ?_,
    fun h => Evaluator.evaluate_eq_none_of_unknown hexe hlink hargs h⟩
  · rintro ⟨r, h, rfl, rfl⟩
    obtain ⟨fuel, ⟨p, scope, hp, hanswer, hlines⟩ | ⟨e, he, -⟩⟩ :=
      Evaluator.evaluate_of_returns hexe hlink hargs h
    · cases hp
      exact ⟨fuel, scope, hanswer, hlines⟩
    · cases he
  · rintro ⟨fuel, scope, hanswer, rfl⟩
    have := reported fuel
    rwa [hanswer] at this
  · obtain ⟨fuel, ⟨p, scope, hp, -⟩ | ⟨e', he, hanswer⟩⟩ :=
      Evaluator.evaluate_of_returns hexe hlink hargs h
    · cases hp
    · cases he
      exact ⟨fuel, hanswer⟩
  · rintro ⟨fuel, hanswer⟩
    have := reported fuel
    rwa [hanswer] at this
  · have hfuel := reported fuel
    cases hanswer : Evaluator.evaluate fuel (numberedFunctions program) entry args with
    | given v scope =>
      rw [hanswer] at hfuel
      obtain ⟨r, hr, -⟩ := hfuel
      exact absurd h (Executable.not_returns hr)
    | raised e =>
      rw [hanswer] at hfuel
      exact absurd h (Executable.not_returns hfuel)
    | unknown => rfl

def Source.evaluatesTo (source : Source) (fuel : Nat) (entry : String) (args : List Value)
    (n : Int64) (lines : List String) : Bool :=
  match source.parse with
  | .error _ => false
  | .ok program =>
    (compile program).isOk && program.all Expr.isSync &&
      match Evaluator.evaluate fuel (numberedFunctions program) entry args with
      | .given (.integer m) scope => m = n && scope.lines = lines
      | _ => false

def sums : Source where
  filename := "sums.tl"
  text := "fn main(n) \x7b fn sum(x) \x7b if x < 1 \x7b 0 \x7d else \x7b x + sum(x - 1) \x7d \x7d; " ++
    "print(sum(n)); sum(n) \x7d"

theorem sums_evaluatesTo : sums.evaluatesTo 5 "main" [.integer 3] 6 ["6"] := by
  decide +kernel

/-- With slices of a single step, `sums` returns and prints the sum of the numbers up to three. -/
theorem Executable.evaluate_iff_sums : ∃ program exe, sums.parse = .ok program ∧
    compile program = .ok exe ∧ (∀ e ∈ program, e.isSync) ∧
    ∃ r, exe.Returns { stepLimit := 1 } "main" [.integer 3] (.ok r) ∧ r.result = .integer 6 ∧
      r.allOutput = ["6"] := by
  have h := sums_evaluatesTo
  unfold Source.evaluatesTo at h
  split at h
  · cases h
  · next program hparse =>
    simp only [Bool.and_eq_true, List.all_eq_true] at h
    obtain ⟨⟨hok, hsync⟩, hanswer⟩ := h
    cases hcompile : compile program with
    | error e => simp [hcompile, Except.isOk, Except.toBool] at hok
    | ok exe =>
      split at hanswer
      · next m scope heval =>
        simp only [Bool.and_eq_true, decide_eq_true_eq] at hanswer
        obtain ⟨rfl, hlines⟩ := hanswer
        have hargs : ∀ v ∈ [Value.integer 3], v.FutureFree := by simp [Value.FutureFree]
        obtain ⟨-, returns, -⟩ :=
          Executable.evaluate_iff hparse hcompile hsync { stepLimit := 1 } "main" hargs
        exact ⟨program, exe, hparse, hcompile, hsync,
          (returns _ _).mpr ⟨5, scope, heval, hlines⟩⟩
      · cases hanswer

end Teal
