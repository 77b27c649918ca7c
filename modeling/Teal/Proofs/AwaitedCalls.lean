import Mathlib.Data.Nat.Find
import Teal.Proofs.Deferral
import Teal.Proofs.Mirrors
import Teal.Proofs.Preservation
import Teal.Proofs.TimeSlice

/-!
# Awaiting a call as a task is calling

A call that is started as a task and awaited at once does what the call does, wherever it stands in
a program and whatever other tasks run meanwhile. With `await async c` in the place of calls `c`, a
program comes to its end if it did so before, under any length of a slice; it has a result if it
had one, which is the same but for the numbers of tasks, and it fails if it failed.

## Main definitions

* `SameEnd`: two programs ended alike.
* `Deferral.Pairs`: a program runs, and the same with some calls as tasks.

## Main statements

* `Network.exists_idle_of_bounded`: a network whose runs are bounded comes to its end.
* `Deferral.Pairs.drains`, `Deferral.Pairs.drains_of_deferred`, `Deferral.Pairs.sameEnd`: one of
  two paired programs comes to its end if the other does, and they end alike.
* `evaluate_of_defers`: from expressions to results.
-/

namespace Teal

open List (Forall₂)
open Network (Runs)
open Scheduler (firstNames)
open View (Realizes)

/-! ## Ends -/

/-- A network whose runs are bounded comes to its end. -/
theorem Network.exists_idle_of_bounded {exe : Executable} {N : Network} {bound : Nat}
    (h : ∀ k M, Runs exe k N M → k ≤ bound) : ∃ k T, Runs exe k N T ∧ T.Idle exe := by
  -- a run that is as long as any cannot be prolonged
  have hbounded : ∀ k, (∃ M, Runs exe k N M) → k ≤ bound := fun k ⟨M, hM⟩ => h k M hM
  classical
  have hlongest := Nat.findGreatest_spec (P := fun k => ∃ M, Runs exe k N M) (Nat.zero_le bound)
    ⟨N, .refl N⟩
  obtain ⟨T, hT⟩ := hlongest
  refine ⟨_, T, hT, fun p => ?_⟩
  rw [Option.eq_none_iff_forall_ne_some]
  intro M hM
  have longer := hT.trans (.head hM (.refl M))
  have hle := Nat.le_findGreatest (P := fun k => ∃ M, Runs exe k N M) (hbounded _ ⟨M, longer⟩)
    ⟨M, longer⟩
  omega

/-- Two programs ended alike: both have a result, and `σ` translates the tasks in one to those in
the other, or both failed. -/
def SameEnd (r r' : Except MachineError Report) : Prop :=
  (∃ p p' σ, r = .ok p ∧ r' = .ok p' ∧ Set.InjOn σ {t | (Value.future t).Part p.result} ∧
    p'.result = p.result.rename σ) ∨ ∃ e e', r = .error e ∧ r' = .error e'

namespace Scheduler

variable {P : List Value → Prop} {ν : TaskId → TaskId} {T : Network} {c : Scheduler}

/-- What is reported of a program is the answer of its first task. -/
theorem report_of_realizes (unblocked : c.Unblocked) (idle : c.world.queue = [])
    (h : Realizes P ν c.world.view T) :
    (∃ p, c.report = .ok p ∧ (T 0).bind Cell.answer? = some (some (p.result.rename ν))) ∨
      ∃ e, c.report = .error e ∧ (T 0).bind Cell.answer? = some none := by
  obtain ⟨top, htop, -, hroot⟩ := h.top
  obtain ⟨s, hs⟩ := unblocked.top
  have htop : c.world.topLevel = some top := htop
  have hs : c.world.session? top = some s := by simpa [topSession?, htop] using hs
  have hview : c.world.view.session top = some s := hs
  have hshow := h.cells top
  rw [hroot] at hshow
  generalize T 0 = cell at hshow
  cases hshow with
  | missing _ hs' | settled _ hs' => simp [hview] at hs'
  | active ht hs' =>
    have hover := (unblocked.sound.fits hs').pending.mp ⟨_, ht⟩
    simp [unblocked.isOver idle hs'] at hover
  | @halted s' v _ ht hs' =>
    obtain rfl : s = s' := Option.some.inj (hview.symm.trans hs')
    obtain ⟨hstatus, hres⟩ := ((unblocked.sound.fits hs').resolved v).mp ht
    obtain ⟨p, hp, hresult⟩ := report_halted htop hs hstatus
    refine .inl ⟨p, hp, ?_⟩
    rw [hresult, hres]
    rfl
  | @failed s' message _ ht hs' =>
    obtain rfl : s = s' := Option.some.inj (hview.symm.trans hs')
    obtain ⟨e, he⟩ := report_failed htop hs (((unblocked.sound.fits hs').failed message).mp ht)
    exact .inr ⟨e, he, rfl⟩

end Scheduler

namespace View.Realizes

variable {P : List Value → Prop} {ν : TaskId → TaskId} {V : View} {T : Network}

end View.Realizes

/-! ## Starts -/

theorem Bindings.rename_of_free {b : Bindings} (h : ∀ t, ¬ (Value.future t).Bound b)
    (ρ : TaskId → TaskId) : b.rename ρ = b := by
  have hid : b.rename id = b := by
    refine (List.map_congr_left fun entry _ => ?_).trans (List.map_id b)
    exact Prod.ext rfl (Value.rename_id entry.2)
  rw [Bindings.rename_congr (τ := id) fun t ht => (h t ht).elim, hid]

namespace Deferral

variable {D : Deferral} {k k' : MachineSettings} {entry : String} {args : List Value}

def called (ip : Nat) (entry : String) (bindings : Bindings) : Network :=
  .initial (Session.image firstNames
    { id := 0, ip, activations := [{ function := entry, bindings }] })

theorem mirrors_called (D : Deferral) {info : FunctionEntry} {bindings : Bindings}
    (hinfo : D.direct.function? entry = some info)
    (hfree : ∀ t, ¬ (Value.future t).Bound bindings) :
    D.Mirrors firstNames (fun _ => {0}) (called info.location entry bindings)
      (called (D.place info.location) entry bindings) := by
  have real :=
    Scheduler.realizes_start (fun _ => True) info.location { function := entry, bindings }
  have himage (ip : Nat) : Session.image firstNames
      { id := 0, ip, activations := [{ function := entry, bindings }] } =
      { id := 0, ip, activations := [{ function := entry, bindings }] } := by
    simp [Session.image, Activation.rename, Bindings.rename_of_free hfree]
  have own {ip : Nat} {p : TaskId} {c : Cell} (hp : called ip entry bindings p = some c) : p = 0 ∧
      c = .active { id := 0, ip, activations := [{ function := entry, bindings }] } 0 [] := by
    rw [called, himage, Network.initial] at hp
    split at hp
    · next e => exact ⟨e, (Option.some.inj hp).symm⟩
    · cases hp
  obtain ⟨hlt, hheight⟩ := D.balanced.entry hinfo
  refine ⟨real.injective, rfl, fun {p} hp => real.odd ?_, fun {p c} hp => ?_,
    fun hp hq _ _ => (own hp).1.trans (own hq).1.symm, fun {x s n log} hx => ?_,
    fun {p u c} hp hu => ?_⟩
  · refine Nat.one_le_iff_ne_zero.mpr ?_
    rintro rfl
    cases hp
  · obtain ⟨rfl, rfl⟩ := own hp
    exact .active (.alone (n := 0) (.entered hlt hheight rfl rfl rfl rfl) rfl)
  · exact ⟨0, _, rfl, (own hx).1⟩
  · obtain ⟨rfl, rfl⟩ := own hp
    refine (hfree u ?_).elim
    simpa [Cell.Holds, Session.Holds] using hu

/-! ## A program and its deferral -/

structure Pairs (D : Deferral) (c c' : Scheduler) : Prop where
  unblocked : c.Unblocked
  unblocked' : c'.Unblocked
  direct : c.executable = D.direct
  deferred : c'.executable = D.deferred
  shows : ∃ μ chain ν ν' N M, Realizes (fun _ => True) ν c.world.view N ∧
    Realizes (fun _ => True) ν' c'.world.view M ∧ D.Mirrors μ chain N M

/-- A program and its deferral start, or neither does. -/
theorem start_cases (D : Deferral) (k k' : MachineSettings) (entry : String)
    (hargs : ∀ v ∈ args, v.FutureFree) :
    (∃ e e', Scheduler.start { executable := D.direct, settings := k } entry args = .error e ∧
      Scheduler.start { executable := D.deferred, settings := k' } entry args = .error e') ∨
    ∃ c c', Scheduler.start { executable := D.direct, settings := k } entry args = .ok (0, c) ∧
      Scheduler.start { executable := D.deferred, settings := k' } entry args = .ok (0, c') ∧
      D.Pairs c c' := by
  have hfunction := D.expands.function? entry
  cases h : Scheduler.start { executable := D.direct, settings := k } entry args with
  | error e =>
    cases h' : Scheduler.start { executable := D.deferred, settings := k' } entry args with
    | error e' => exact .inl ⟨e, e', rfl, rfl⟩
    | ok started =>
      obtain ⟨info', bindings, hinfo', hb, -⟩ := Scheduler.start_eq h'
      rw [hinfo', eq_comm, Option.map_eq_some_iff] at hfunction
      obtain ⟨info, hinfo, rfl⟩ := hfunction
      have starts : D.direct.Starts k entry args _ := Evaluator.starts_entry hinfo hb
      simp [starts.start] at h
  | ok started =>
    obtain ⟨id, c⟩ := started
    have unblocked := Scheduler.Unblocked.start D.plain hargs h
    obtain ⟨info, bindings, hinfo, hb, rfl, direct, -, -, hview⟩ := Scheduler.start_view h
    rw [hinfo, Option.map_some] at hfunction
    have starts : D.deferred.Starts k' entry args _ := Evaluator.starts_entry hfunction hb
    have h' := starts.start
    have unblocked' := Scheduler.Unblocked.start D.plainDeferred hargs h'
    obtain ⟨info', bindings', hinfo', hb', -, deferred, -, -, hview'⟩ := Scheduler.start_view h'
    obtain rfl : info.moved D.place = info' := Option.some.inj (hfunction.symm.trans hinfo')
    obtain rfl : bindings = bindings' := Except.ok.inj (hb.symm.trans hb')
    exact .inr ⟨c, _, rfl, h', unblocked, unblocked', direct, deferred, _, _, _, _, _, _,
      hview ▸ Scheduler.realizes_start _ _ _, hview' ▸ Scheduler.realizes_start _ _ _,
      D.mirrors_called hinfo (not_bound_of_futureFree hargs hb)⟩

namespace Pairs

variable {c c' : Scheduler} {n n' : Nat}

/-- Where a program has come to its end, a run to the end of the network of its deferral mirrors
it. -/
theorem mirrors_end (h : D.Pairs c c') (idle : (c.run n).world.queue = []) :
    ∃ μ chain ν ν' T M M' k, Realizes (fun _ => True) ν (c.run n).world.view T ∧
      Realizes (fun _ => True) ν' c'.world.view M ∧ Runs c'.executable k M M' ∧
      M'.Idle c'.executable ∧ D.Mirrors μ chain T M' := by
  obtain ⟨μ, chain, ν, ν', N, M, real, real', mirrors⟩ := h.shows
  obtain ⟨m, ν₁, T, hruns, real₁⟩ :=
    Scheduler.realizes_run h.unblocked real n fun _ _ => trivial
  have unblocked := h.unblocked.run n
  have stopped := real₁.not_active unblocked.sound fun t s hs => unblocked.isOver idle hs
  rw [h.direct] at hruns
  obtain ⟨k, μ₁, chain₁, M', -, hruns', mirrors₁⟩ := mirrors.runs real.fresh real'.fresh hruns
  rw [h.deferred]
  exact ⟨μ₁, chain₁, ν₁, ν', T, M, M', k, real₁, real', hruns', mirrors₁.idle stopped, mirrors₁⟩

/-- The deferral of a program that comes to its end does so. -/
theorem drains (h : D.Pairs c c') (idle : (c.run n).world.queue = []) :
    ∃ n', (c'.run n').world.queue = [] := by
  obtain ⟨μ, chain, ν, ν', T, M, M', k, -, real', hruns, idle', -⟩ := h.mirrors_end idle
  exact Scheduler.run_drains h.unblocked' real' hruns idle'

/-- A program whose deferral comes to its end does so: no run of its network is longer than a run
to the end of the other. -/
theorem drains_of_deferred (h : D.Pairs c c') (idle : (c'.run n').world.queue = []) :
    ∃ n, (c.run n).world.queue = [] := by
  obtain ⟨μ, chain, ν, ν', N, M, real, real', mirrors⟩ := h.shows
  obtain ⟨m, ν₁, M', hruns, real₁⟩ :=
    Scheduler.realizes_run h.unblocked' real' n' fun _ _ => trivial
  have unblocked := h.unblocked'.run n'
  have idle' : M'.Idle D.deferred :=
    real₁.idle unblocked.sound fun t s hs => unblocked.isOver idle hs
  rw [h.deferred] at hruns
  have bounded (k : Nat) (T : Network) (hT : Runs D.direct k N T) : k ≤ m := by
    obtain ⟨k', -, -, M₁, hle, hruns', -⟩ := mirrors.runs real.fresh real'.fresh hT
    obtain ⟨rest, hm, -⟩ := Runs.complete real'.fresh idle' hruns hruns'
    omega
  obtain ⟨k, T, hT, idleT⟩ := Network.exists_idle_of_bounded bounded
  rw [← h.direct] at hT idleT
  exact Scheduler.run_drains h.unblocked real hT idleT

/-- A program and its deferral end alike. -/
theorem sameEnd (h : D.Pairs c c') (idle : (c.run n).world.queue = [])
    (idle' : (c'.run n').world.queue = []) : SameEnd (c.run n).report (c'.run n').report := by
  obtain ⟨μ, chain, ν, ν₀, T, M, M', k, real, real₀, hruns, idleM', mirrors⟩ := h.mirrors_end idle
  obtain ⟨m, ν', M₁, hruns₁, real'⟩ :=
    Scheduler.realizes_run h.unblocked' real₀ n' fun _ _ => trivial
  have unblocked' := h.unblocked'.run n'
  have idleM₁ : M₁.Idle c'.executable :=
    real'.idle unblocked'.sound fun t s hs => unblocked'.isOver idle' hs
  obtain ⟨j, -, hrest⟩ := Runs.complete real₀.fresh idleM' hruns hruns₁
  obtain rfl : M₁ = M' := hrest.eq_of_idle idleM₁
  -- the answer of the first task is reported, and it is mirrored
  have reported := Scheduler.report_of_realizes (h.unblocked.run n) idle real
  have reported' := Scheduler.report_of_realizes unblocked' idle' real'
  rcases reported with ⟨p, hp, answer⟩ | ⟨e, he, answer⟩ <;>
    have mirrored := mirrors.answer answer <;> rw [mirrors.root] at mirrored <;>
    rcases reported' with ⟨p', hp', answer'⟩ | ⟨e', he', answer'⟩ <;>
    rw [mirrored] at answer'
  · have hresult : p.result.rename (μ ∘ ν) = p'.result.rename ν' := by
      rw [← Value.rename_rename]
      simpa using answer'
    refine .inl ⟨p, p', View.Realizes.renumber (μ ∘ ν) ν', hp, hp', ?_,
      real'.rename_renumber hresult⟩
    have partner (t : TaskId) (ht : (Value.future t).Part p.result) :
        ∃ t', ν' t' = (μ ∘ ν) t ∧ View.Realizes.renumber (μ ∘ ν) ν' t = t' := by
      obtain ⟨d, hd, hanswer⟩ := Option.bind_eq_some_iff.mp answer
      obtain ⟨c, hc⟩ := mirrors.known hd (Cell.holds_of_answer hanswer (Value.part_rename ht))
      obtain ⟨c', hc'⟩ := (mirrors.cells hc).exists_cell
      obtain ⟨t', ht'⟩ := real'.named hc'
      exact ⟨t', ht', real'.renumber_eq ht'⟩
    intro t ht u hu heq
    obtain ⟨t', ht', hσ⟩ := partner t ht
    obtain ⟨u', hu', hσ'⟩ := partner u hu
    obtain rfl : t' = u' := by rw [← hσ, ← hσ', heq]
    exact real.injective (mirrors.injective (ht'.symm.trans hu'))
  · simp at answer'
  · simp at answer'
  · exact .inr ⟨e, e', he, he'⟩

end Pairs

end Deferral

/-! ## Programs -/

namespace Deferral

variable {D : Deferral} {entry : String} {args : List Value} {r r' : Except MachineError Report}

theorem returns_iff (D : Deferral) (k k' : MachineSettings) (entry : String)
    (hargs : ∀ v ∈ args, v.FutureFree) :
    (∃ r, D.direct.Returns k entry args r) ↔ ∃ r, D.deferred.Returns k' entry args r := by
  rcases D.start_cases k k' entry hargs with ⟨e, e', h, h'⟩ | ⟨c, c', h, h', pairs⟩
  · exact iff_of_true ⟨_, Evaluator.returns_of_start h⟩ ⟨_, Evaluator.returns_of_start h'⟩
  · simp only [Executable.returns_iff h, Executable.returns_iff h']
    constructor
    · rintro ⟨_, n, idle, -⟩
      obtain ⟨n', idle'⟩ := pairs.drains idle
      exact ⟨_, n', idle', rfl⟩
    · rintro ⟨_, n', idle', -⟩
      obtain ⟨n, idle⟩ := pairs.drains_of_deferred idle'
      exact ⟨_, n, idle, rfl⟩

theorem sameEnd {k k' : MachineSettings} (hargs : ∀ v ∈ args, v.FutureFree)
    (h : D.direct.Returns k entry args r) (h' : D.deferred.Returns k' entry args r') :
    SameEnd r r' := by
  rcases D.start_cases k k' entry hargs with ⟨e, e', hs, hs'⟩ | ⟨c, c', hs, hs', pairs⟩
  · rw [h.unique (Evaluator.returns_of_start hs), h'.unique (Evaluator.returns_of_start hs')]
    exact .inr ⟨e, e', rfl, rfl⟩
  · obtain ⟨n, idle, rfl⟩ := (Executable.returns_iff hs).mp h
    obtain ⟨n', idle', rfl⟩ := (Executable.returns_iff hs').mp h'
    exact pairs.sameEnd idle idle'

end Deferral

/-- A program in which some calls have become tasks that are awaited at once compiles, comes to its
end if it did so before, whatever the length of a slice, and ends alike. -/
theorem evaluate_of_defers {program program' : List Expr} {exe : Executable}
    (hcompile : compile program = .ok exe) (h : Forall₂ Expr.Defers program program') :
    ∃ exe', compile program' = .ok exe' ∧ ∀ k k' entry args, (∀ v ∈ args, v.FutureFree) →
      ((∃ r, exe.Returns k entry args r) ↔ ∃ r, exe'.Returns k' entry args r) ∧
      ∀ r r', exe.Returns k entry args r → exe'.Returns k' entry args r' → SameEnd r r' := by
  obtain ⟨exe', φ, hcompile', expands⟩ := exists_compile_of_defers h hcompile
  obtain ⟨height, balanced⟩ := Executable.exists_balanced hcompile
  let D : Deferral := ⟨exe, exe', φ, height, expands, balanced, futureFree_of_compile hcompile,
    futureFree_of_compile hcompile'⟩
  exact ⟨exe', hcompile', fun k k' entry args hargs => ⟨D.returns_iff k k' entry hargs,
    fun r r' hr hr' => D.sameEnd hargs hr hr'⟩⟩

/-- A program that lists what `next` returns and a task of `next`. The calls that are no tasks are
made by `made`. -/
def listsTask (made : Expr → Expr) : List Expr :=
  let loc : Location := ⟨"", 1, 1, ""⟩
  let next (n : Int64) : Expr := .call loc (.ident loc "next")
    [.argument loc (some (.ident loc "n")) (.literal loc (.integer n))]
  [.definition loc "main" []
      (made (.call loc (.ident loc "list") [made (next 1), .async loc (next 5)])) none,
    .definition loc "next" ["n"]
      (.binary loc (.calculate .add) (.ident loc "n") (.literal loc (.integer 1))) none]

/-- The calls of `next` and of `list` in `listsTask` become tasks. The task in the result is then
the second one that is started, which was the first before. -/
theorem evaluate_of_defers_listsTask : ∃ exe exe' p p' σ, compile (listsTask id) = .ok exe ∧
    Forall₂ Expr.Defers (listsTask id) (listsTask fun c => .await c.loc (.async c.loc c)) ∧
    compile (listsTask fun c => .await c.loc (.async c.loc c)) = .ok exe' ∧
    exe.Returns {} "main" [] (.ok p) ∧ p.result = .list [.integer 2, .future 1] ∧
    exe'.Returns { stepLimit := 1 } "main" [] (.ok p') ∧
    p'.result = .list [.integer 2, .future 2] ∧ p'.result = p.result.rename σ := by
  have hdefers : Forall₂ Expr.Defers (listsTask id)
      (listsTask fun c => .await c.loc (.async c.loc c)) :=
    .cons (.definition (.deferred (.refl _)
      (.cons (.deferred (.refl _) (.cons (.refl _) .nil)) (.cons (.refl _) .nil))))
      (.cons (.refl _) .nil)
  obtain ⟨exe, exe', p, p', hcompile, hcompile', hreturns, hresult, hreturns', hresult'⟩ :
      ∃ exe exe' p p', compile (listsTask id) = .ok exe ∧
        compile (listsTask fun c => .await c.loc (.async c.loc c)) = .ok exe' ∧
        exe.evaluate 10 {} "main" [] = some (.ok p) ∧ p.result = .list [.integer 2, .future 1] ∧
        exe'.evaluate 40 { stepLimit := 1 } "main" [] = some (.ok p') ∧
        p'.result = .list [.integer 2, .future 2] :=
    ⟨_, _, _, _, rfl, rfl, rfl, rfl, rfl, rfl⟩
  obtain ⟨exe₁, hexe₁, same⟩ := evaluate_of_defers hcompile hdefers
  obtain rfl : exe₁ = exe' := Except.ok.inj (hexe₁.symm.trans hcompile')
  obtain ⟨-, ends⟩ := same {} { stepLimit := 1 } "main" [] (by simp)
  rcases ends _ _ ⟨10, hreturns⟩ ⟨40, hreturns'⟩ with ⟨_, _, σ, h, h', -, hσ⟩ | ⟨_, _, h, -⟩
  · cases h
    cases h'
    exact ⟨exe, exe₁, p, p', σ, hcompile, hdefers, hcompile', ⟨10, hreturns⟩, hresult,
      ⟨40, hreturns'⟩, hresult', hσ⟩
  · cases h

end Teal
