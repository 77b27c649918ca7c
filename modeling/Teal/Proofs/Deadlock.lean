import Teal.Compile
import Teal.Proofs.Induction
import Teal.Proofs.Placement

/-!
# Programs that never block

A task holds the handles that occur in its session or in its result. A handle comes from the one
who starts a task, and what a new task holds its maker held before it; so tasks can be ranked
such that each holds only handles of lower rank. A session that waits holds what it waits for,
and one of least rank that is not over would wait for nothing: it is in the queue.

## Main definitions

* `Executable.FutureFree`: no constant of a program has a future in it.
* `View.Holds`, `View.Ranked`: who holds which handles, and that there is a ranking.

## Main statements

* `View.Ranked.isOver_of_idle`: when nothing can run, every session is over.
* `Scheduler.run_never_blocks`: every run of a started program.
-/

namespace Teal

/-- No constant of a program has a future in it, at any depth. -/
def Executable.FutureFree (exe : Executable) : Prop :=
  ∀ i ∈ exe.code, ∀ v, i.op = .pushValue v → v.FutureFree

theorem Executable.FutureFree.not_mentions {exe : Executable} (h : exe.FutureFree) (t : TaskId) :
    ¬ exe.Mentions (.future t) := by
  rintro ⟨i, hi, v, hv, hpart⟩
  exact h i hi v hv t hpart

/-! ## Compiled programs -/

namespace Expr

def Plain (i : Instruction) : Prop :=
  ∀ v, i.op = .pushValue v → v.FutureFree

theorem forall_codeOfAll {P : Instruction → Prop} {args : List Expr}
    (h : ∀ a ∈ args, ∀ next, ∀ i ∈ a.code next, P i) (next : Nat) :
    ∀ i ∈ codeOfAll next args, P i := by
  induction args generalizing next with
  | nil => simp [codeOfAll]
  | cons a args ih =>
    simp only [codeOfAll, List.forall_mem_append]
    exact ⟨h a (by simp) next, ih (fun b hb => h b (by simp [hb])) _⟩

theorem forall_codeOfRest {P : Instruction → Prop} {items : List Expr}
    (hpop : ∀ e : Expr, P (e.emit .pop)) (h : ∀ a ∈ items, ∀ next, ∀ i ∈ a.code next, P i)
    (next : Nat) : ∀ i ∈ codeOfRest next items, P i := by
  induction items generalizing next with
  | nil => simp [codeOfRest]
  | cons a items ih =>
    simp only [codeOfRest, List.forall_mem_append]
    exact ⟨⟨by simpa using hpop a, h a (by simp) next⟩, ih (fun b hb => h b (by simp [hb])) _⟩

/-- Literals and symbols have no futures, and code has no other constants than these and null. -/
theorem plain_code (e : Expr) (next : Nat) : ∀ i ∈ e.code next, Plain i := by
  induction e generalizing next with
  | literal loc value =>
    cases value <;> simp [code, Plain, emit, ofLiteral, Value.FutureFree]
  | symbol loc name => simp [code, Plain, emit, Value.FutureFree]
  | ident loc name => simp [code, Plain, emit]
  | lambda loc params body ih => simp [code, Plain, emit]
  | definition loc name params body tag ih => simp [code, Plain, emit]
  | argument loc keyword value ihKeyword ih => simpa only [code] using ih next
  | binary loc op left right ihLeft ihRight =>
    cases op with
    | assign =>
      simp only [code, List.forall_mem_append]
      exact ⟨ihRight next, by simp [Plain, emit]⟩
    | calculate op =>
      simp only [code, List.forall_mem_append]
      exact ⟨⟨ihLeft next, ihRight _⟩, by simp [Plain, emit]⟩
  | call loc callee args ihCallee ihArgs =>
    simp only [code, List.forall_mem_append]
    exact ⟨⟨forall_codeOfAll ihArgs next, ihCallee _⟩, by simp [Plain, emit]⟩
  | async loc inner ih =>
    cases inner with
    | call loc callee args =>
      have h := ih next
      simp only [code, List.forall_mem_append] at h ⊢
      exact ⟨h.1, by simp [Plain, emit]⟩
    | _ => exact ih next
  | await loc inner ih =>
    simp only [code, List.forall_mem_append]
    exact ⟨ih next, by simp [Plain, emit]⟩
  | conditional loc condition consequence alternative ihCondition ihConsequence ihAlternative =>
    have otherwise (next : Nat) (self : Expr) :
        ∀ i ∈ codeOfElse next (self.emit (.pushValue .null)) alternative, Plain i := by
      cases alternative with
      | none => simp [codeOfElse, Plain, emit, Value.FutureFree]
      | some e => exact ihAlternative e rfl next
    simp only [code, List.forall_mem_append]
    exact ⟨⟨⟨⟨ihCondition next, by simp [Plain, emit]⟩, otherwise _ _⟩, by simp [Plain, emit]⟩,
      ihConsequence _⟩
  | block loc items ih =>
    cases items with
    | nil => simp [code, Plain, emit, Value.FutureFree]
    | cons first rest =>
      simp only [code, List.forall_mem_append]
      exact ⟨ih first (by simp) next,
        forall_codeOfRest (by simp [Plain, emit]) (fun a ha => ih a (by simp [ha])) _⟩

end Expr

/-- No constant of a compiled program has a future in it. -/
theorem futureFree_of_compile {program : List Expr} {exe : Executable}
    (h : compile program = .ok exe) : exe.FutureFree := by
  unfold compile at h
  split at h
  · cases h
  · cases h
    intro i hi
    obtain ⟨r, -, hi⟩ := List.mem_flatMap.mp hi
    simp only [Region.code, Function.code, List.mem_append] at hi
    rcases hi with (hi | hi) | hi
    · split at hi
      · simp only [List.mem_cons, List.not_mem_nil, or_false] at hi
        rcases hi with rfl | rfl | rfl <;> simp [Expr.emit]
      · simp at hi
    · exact r.function.body.plain_code r.next i hi
    · obtain rfl := List.mem_singleton.mp hi
      simp [Expr.emit]

/-! ## Handles -/

theorem Session.holds_push {t : Session} {u v : Value} (h : (t.push v).Holds u) :
    t.Holds u ∨ u.Part v := by
  rcases h with h | h
  · rcases Value.within_cons.mp h with h | h
    · exact .inr h
    · exact .inl (.inl h)
  · exact .inl (.inr h)

namespace View

/-- A handle of the task `u` occurs in the session or in the result of the task `t`. -/
def Holds (V : View) (t u : TaskId) : Prop :=
  (∃ s, V.session t = some s ∧ s.Holds (.future u)) ∨
    ∃ v, V.task t = some (.resolved v) ∧ (Value.future u).Part v

/-- Handles are of known tasks, and each task holds only handles of lower rank. -/
structure Ranked (V : View) : Prop where
  known {t u : TaskId} : V.Holds t u → ∃ state, V.task u = some state
  rank : ∃ r : TaskId → Nat, ∀ t u, V.Holds t u → r u < r t
  /-- A task that has not ended has a session to end it. -/
  owned {t : TaskId} {waiters : List TaskId} :
    V.task t = some (.pending waiters) → ∃ s, V.session t = some s
  /-- A session holds what it waits for. -/
  awaits {id t : TaskId} {s : Session} :
    V.session id = some s → s.status = .suspended t → s.Holds (.future t)

namespace Ranked

variable {V V' : View} {id : TaskId} {s : Session}

/-- A ranking lasts while tasks only take over what the tasks they know hold. -/
theorem of_holds (h : Ranked V)
    (holds : ∀ {t u}, V'.Holds t u → V.Holds t u ∨ ∃ m, V.Holds t m ∧ V.Holds m u)
    (task : ∀ {t state}, V.task t = some state → ∃ state', V'.task t = some state')
    (owned : ∀ {t waiters}, V'.task t = some (.pending waiters) → ∃ s, V'.session t = some s)
    (awaits : ∀ {id t s}, V'.session id = some s → s.status = .suspended t →
      s.Holds (.future t)) : Ranked V' := by
  obtain ⟨r, hr⟩ := h.rank
  refine ⟨fun hold => ?_, ⟨r, fun t u hold => ?_⟩, owned, awaits⟩
  · rcases holds hold with hold | ⟨m, -, hold⟩ <;>
    · obtain ⟨state, hstate⟩ := h.known hold
      exact task hstate
  · rcases holds hold with hold | ⟨m, hm, hold⟩
    · exact hr t u hold
    · exact Nat.lt_trans (hr m u hold) (hr t m hm)

/-- A new task is ranked between its maker and what its maker holds. -/
theorem of_fresh (h : Ranked V) {new : TaskId} (hid : id ≠ new)
    (fresh : V.task new = none ∧ V.session new = none)
    (holds : ∀ {t u}, V'.Holds t u →
      V.Holds t u ∨ (t = id ∧ u = new) ∨ (t = new ∧ V.Holds id u))
    (task : ∀ {t}, t = new ∨ (∃ state, V.task t = some state) → ∃ state, V'.task t = some state)
    (owned : ∀ {t waiters}, V'.task t = some (.pending waiters) → ∃ s, V'.session t = some s)
    (awaits : ∀ {id t s}, V'.session id = some s → s.status = .suspended t →
      s.Holds (.future t)) : Ranked V' := by
  obtain ⟨r, hr⟩ := h.rank
  have old {t u : TaskId} (hold : V.Holds t u) : t ≠ new ∧ u ≠ new := by
    refine ⟨?_, ?_⟩
    · rintro rfl
      rcases hold with ⟨s, hs, -⟩ | ⟨v, hv, -⟩
      · simp [fresh.2] at hs
      · simp [fresh.1] at hv
    · rintro rfl
      obtain ⟨state, hstate⟩ := h.known hold
      simp [fresh.1] at hstate
  refine ⟨fun hold => ?_, ⟨fun x => if x = new then 2 * r id + 1 else 2 * r x + 2, ?_⟩, owned,
    awaits⟩
  · rcases holds hold with hold | ⟨-, rfl⟩ | ⟨-, hold⟩
    · exact task (.inr (h.known hold))
    · exact task (.inl rfl)
    · exact task (.inr (h.known hold))
  · intro t u hold
    rcases holds hold with hold | ⟨rfl, rfl⟩ | ⟨rfl, hold⟩
    · obtain ⟨ht, hu⟩ := old hold
      have := hr t u hold
      simp only [ht, hu, if_false]
      omega
    · simp [hid]
    · have := hr id u hold
      simp only [(old hold).2, if_true, if_false]
      omega

/-- The session that has its turn is written back, and holds no more than it could know. -/
theorem put (h : Ranked V) (hrun : s.status = .running)
    (holds : ∀ {u}, s.Holds (.future u) → V.Holds id u ∨ ∃ m, V.Holds id m ∧ V.Holds m u) :
    Ranked (V.put id s) := by
  refine h.of_holds ?_ (fun ht => ⟨_, ht⟩) ?_ ?_
  · rintro t u (⟨s', hs', hold⟩ | ⟨v, hv, hold⟩)
    · rw [put_session] at hs'
      split at hs'
      · next e =>
        cases hs'
        exact e ▸ holds hold
      · exact .inl (.inl ⟨s', hs', hold⟩)
    · exact .inl (.inr ⟨v, hv, hold⟩)
  · intro t waiters ht
    rw [put_session]
    split
    · exact ⟨s, rfl⟩
    · exact h.owned ht
  · intro x t s' hs' hsus
    rw [put_session] at hs'
    split at hs'
    · cases hs'
      simp [hrun] at hsus
    · exact h.awaits hs' hsus

/-- A session starts a task of which it keeps the handle, with values that it holds. -/
theorem spawn (h : Ranked V) (sound : V.Sound) (hs : V.session id = some s) {t : Session}
    {ip : Nat} {first : Activation} (hrun : t.status = .running)
    (holds : ∀ {u}, t.Holds (.future u) ∨ (Value.future u).Bound first.bindings →
      s.Holds (.future u)) :
    Ranked ((V.spawn ip first).put id (t.push (.future V.nextId))) := by
  obtain ⟨hsession, htask, -⟩ := sound.fresh
  have hid : id ≠ V.nextId := Nat.ne_of_lt (sound.fits hs).below
  refine h.of_fresh hid ⟨htask, hsession⟩ ?_ ?_ ?_ ?_
  · rintro x u (⟨s', hs', hold⟩ | ⟨v, hv, hold⟩)
    · rw [put_session, spawn_session] at hs'
      split at hs'
      · next e =>
        cases hs'
        subst e
        rcases Session.holds_push hold with hold | hold
        · exact .inl (.inl ⟨s, hs, holds (.inl hold)⟩)
        · exact .inr (.inl ⟨rfl, by simpa using hold⟩)
      · split at hs'
        · next e =>
          cases hs'
          have hold : (Value.future u).Bound first.bindings := by simpa [Session.Holds] using hold
          exact .inr (.inr ⟨e, .inl ⟨s, hs, holds (.inr hold)⟩⟩)
        · exact .inl (.inl ⟨s', hs', hold⟩)
    · rw [put_task, spawn_task] at hv
      split at hv
      · cases hv
      · exact .inl (.inr ⟨v, hv, hold⟩)
  · intro x hx
    rw [put_task, spawn_task]
    split
    · exact ⟨_, rfl⟩
    · next e => exact hx.resolve_left e
  · intro x waiters hx
    rw [put_session, spawn_session]
    rw [put_task, spawn_task] at hx
    split
    · exact ⟨_, rfl⟩
    · split
      · exact ⟨_, rfl⟩
      · next e => exact h.owned (by simpa [e] using hx)
  · intro x y s' hs' hsus
    rw [put_session, spawn_session] at hs'
    split at hs'
    · cases hs'
      exact absurd (hrun.symm.trans hsus) nofun
    · split at hs'
      · cases hs'
        cases hsus
      · exact h.awaits hs' hsus

/-- A session makes a task with a result that it holds, and keeps the handle. -/
theorem addSettled (h : Ranked V) (sound : V.Sound) (hs : V.session id = some s) {t : Session}
    {v : Value} (hrun : t.status = .running)
    (holds : ∀ {u}, t.Holds (.future u) ∨ (Value.future u).Part v → s.Holds (.future u)) :
    Ranked ((V.addSettled v).put id (t.push (.future V.nextId))) := by
  obtain ⟨hsession, htask, -⟩ := sound.fresh
  have hid : id ≠ V.nextId := Nat.ne_of_lt (sound.fits hs).below
  refine h.of_fresh hid ⟨htask, hsession⟩ ?_ ?_ ?_ ?_
  · rintro x u (⟨s', hs', hold⟩ | ⟨v', hv, hold⟩)
    · rw [put_session, addSettled_session] at hs'
      split at hs'
      · next e =>
        cases hs'
        subst e
        rcases Session.holds_push hold with hold | hold
        · exact .inl (.inl ⟨s, hs, holds (.inl hold)⟩)
        · exact .inr (.inl ⟨rfl, by simpa using hold⟩)
      · exact .inl (.inl ⟨s', hs', hold⟩)
    · rw [put_task, addSettled_task] at hv
      split at hv
      · next e =>
        cases hv
        exact .inr (.inr ⟨e, .inl ⟨s, hs, holds (.inr hold)⟩⟩)
      · exact .inl (.inr ⟨v', hv, hold⟩)
  · intro x hx
    rw [put_task, addSettled_task]
    split
    · exact ⟨_, rfl⟩
    · next e => exact hx.resolve_left e
  · intro x waiters hx
    rw [put_session, addSettled_session]
    rw [put_task, addSettled_task] at hx
    split
    · exact ⟨_, rfl⟩
    · split at hx
      · cases hx
      · exact h.owned hx
  · intro x y s' hs' hsus
    rw [put_session, addSettled_session] at hs'
    split at hs'
    · cases hs'
      exact absurd (hrun.symm.trans hsus) nofun
    · exact h.awaits hs' hsus

/-- A session is over, and its task has no more in it than the session held. -/
theorem finish (h : Ranked V) (hs : V.session id = some s) {t : Session} {outcome : TaskState}
    {queue : List TaskId} (hover : t.isOver)
    (holds : ∀ {u}, (t.Holds (.future u) ∨ ∃ v, outcome = .resolved v ∧ (Value.future u).Part v) →
      s.Holds (.future u)) : Ranked (V.finish id t outcome queue) := by
  refine h.of_holds ?_ ?_ ?_ ?_
  · rintro x u (⟨s', hs', hold⟩ | ⟨v, hv, hold⟩)
    · rw [finish_session] at hs'
      split at hs'
      · next e =>
        cases hs'
        exact .inl (.inl ⟨s, e ▸ hs, holds (.inl hold)⟩)
      · exact .inl (.inl ⟨s', hs', hold⟩)
    · rw [finish_task] at hv
      split at hv
      · next e => exact .inl (.inl ⟨s, e ▸ hs, holds (.inr ⟨v, Option.some.inj hv, hold⟩)⟩)
      · exact .inl (.inr ⟨v, hv, hold⟩)
  · intro x state hx
    rw [finish_task]
    split
    · exact ⟨_, rfl⟩
    · exact ⟨state, hx⟩
  · intro x waiters hx
    rw [finish_task] at hx
    rw [finish_session]
    split
    · exact ⟨_, rfl⟩
    · next e => exact h.owned (by simpa [e] using hx)
  · intro x y s' hs' hsus
    rw [finish_session] at hs'
    split at hs'
    · cases hs'
      simp [Session.isOver, hsus] at hover
    · exact h.awaits hs' hsus

/-- A session waits for a task of which it holds the handle. -/
theorem suspend (h : Ranked V) (hs : V.session id = some s) {task : TaskId}
    {waiters queue : List TaskId} (ht : V.task task = some (.pending waiters))
    (holds : s.Holds (.future task)) : Ranked (V.suspend id s task queue) := by
  refine h.of_holds ?_ ?_ ?_ ?_
  · rintro x u (⟨s', hs', hold⟩ | ⟨v, hv, hold⟩)
    · rw [suspend_session] at hs'
      split at hs'
      · next e =>
        cases hs'
        exact .inl (.inl ⟨s, e ▸ hs, hold⟩)
      · exact .inl (.inl ⟨s', hs', hold⟩)
    · simp only [View.suspend, Function.update_apply] at hv
      split at hv
      · cases hv
      · exact .inl (.inr ⟨v, hv, hold⟩)
  · intro x state hx
    simp only [View.suspend, Function.update_apply]
    split
    · exact ⟨_, rfl⟩
    · exact ⟨state, hx⟩
  · intro x ws hx
    simp only [View.suspend, Function.update_apply] at hx ⊢
    split
    · exact ⟨_, rfl⟩
    · split at hx
      · next e => exact h.owned (e ▸ ht)
      · exact h.owned hx
  · intro x y s' hs' hsus
    rw [suspend_session] at hs'
    split at hs'
    · cases hs'
      cases hsus
      exact holds
    · exact h.awaits hs' hsus

/-- When nothing can run, every session is over: one that is not would wait for a task of lower
rank, whose session is not over either. -/
theorem isOver_of_idle (h : Ranked V) (sound : V.Sound) (idle : V.queue = [])
    (hs : V.session id = some s) : s.isOver := by
  obtain ⟨r, hr⟩ := h.rank
  induction hn : r id using Nat.strongRecOn generalizing id s with
  | ind n ih =>
    by_contra hover
    rw [Bool.not_eq_true] at hover
    have fit := sound.fits hs
    rcases fit.placed hover with hrun | ⟨-, t, waiters, hsus, htask, -⟩
    · have := hrun.1
      simp [idle] at this
    · obtain ⟨s', hs'⟩ := h.owned htask
      have lower := hr id t (.inl ⟨s, hs, h.awaits hs hsus⟩)
      have hover' := (sound.fits hs').pending.mp ⟨waiters, htask⟩
      simp [ih (r t) (hn ▸ lower) hs' rfl] at hover'

end Ranked

end View

/-! ## Quanta -/

section Quanta

variable {exe : Executable} {V V' : View} {id : TaskId} {s t : Session} {o : Outcome}

/-- A request of a program without futures carries only handles that its session held. -/
theorem Session.holds_of_request (hexe : exe.FutureFree) {u : TaskId}
    (h : (request exe s).Holds (.future u)) : s.Holds (.future u) :=
  (request_holds Executable.not_makes_future h).resolve_right (hexe.not_mentions u)

theorem Session.holds_of_await {task : TaskId} {rest : List Value}
    (hr : request exe s = .await t task rest) : s.Holds (.future task) := by
  obtain ⟨-, hstack⟩ := request_await hr
  exact .inl (by simp [hstack])

/-- What a session holds without the value that it waited for. -/
theorem Session.holds_of_rest {task : TaskId} {rest : List Value}
    (hr : request exe s = .await t task rest) {u : Value}
    (h : (s.withStack rest).Holds u) : s.Holds u := by
  obtain ⟨-, hstack⟩ := request_await hr
  exact h.imp_left fun h => h.mono (by simp [hstack, Session.withStack])

theorem View.Ranked.step (hexe : exe.FutureFree) (h : V.Ranked) (sound : V.Sound)
    (hrun : V.Running id) (hstep : V.Step exe id V') : V'.Ranked := by
  have status {s : Session} {r : Request} (hs : V.session id = some s)
      (hr : request exe s = r) : r.session.status = .running :=
    (Session.keeps_of_request hr).status.trans (hrun.status hs)
  have held {s : Session} {r : Request} (hr : request exe s = r) {u : TaskId}
      (hold : r.Holds (.future u)) : s.Holds (.future u) :=
    Session.holds_of_request hexe (hr ▸ hold)
  cases hstep with
  | goOn hs hr =>
    exact h.put (status hs hr :) fun hold => .inl (.inl ⟨_, hs, held hr (.inl hold)⟩)
  | spawn hs hr =>
    exact h.spawn sound hs (status hs hr) fun hold => held hr (hold.imp_right .inr)
  | @settle _ t _ prints hs hr =>
    exact h.addSettled sound hs (t := t.print prints) (status hs hr) fun hold =>
      held hr (hold.imp_right .inr)
  | @resume s _ _ _ hs hr ht =>
    refine h.put (status hs hr :) fun hold => ?_
    have hold : _ ∨ _ := Session.holds_push (t := s.withStack _) hold
    rcases hold with hold | hold
    · exact .inl (.inl ⟨s, hs, Session.holds_of_rest hr hold⟩)
    · exact .inr ⟨_, .inl ⟨s, hs, Session.holds_of_await hr⟩, .inr ⟨_, ht, hold⟩⟩

theorem View.Ranked.steps {n : Nat} {prints : List (List Value)} (hexe : exe.FutureFree)
    (h : V.Ranked) (sound : V.Sound) (hrun : V.Running id)
    (hsteps : View.Steps exe id n prints V V') : V'.Ranked :=
  (sound.steps_preserve hrun hsteps
    (fun sound hrun h hstep => h.step hexe sound hrun hstep) h).2.2

theorem View.Ranked.concludes (hexe : exe.FutureFree) (h : V.Ranked)
    (hc : V.Concludes exe id o V') : V'.Ranked := by
  cases hc with
  | preempted hq => exact ⟨h.known, h.rank, h.owned, h.awaits⟩
  | halted hq hs hr =>
    refine h.finish hs rfl fun hold => Session.holds_of_request hexe ?_
    rw [hr]
    refine hold.imp_right fun ⟨v, hv, hold⟩ => .inr ?_
    cases hv
    exact hold
  | failed hq hs hf =>
    refine h.finish hs rfl fun hold => ?_
    have hold := hold.resolve_right fun ⟨v, hv, _⟩ => nomatch hv
    cases hf with
    | itself hr =>
      refine Session.holds_of_request hexe ?_
      rw [hr]
      exact .inl hold
    | awaited hr | unknown hr => exact Session.holds_of_rest hr hold
  | suspended hq hs hr ht => exact h.suspend hs ht (Session.holds_of_await hr)

/-- A session never waits for a task that there is not. -/
theorem View.Ranked.error_ne {e : MachineError} (h : V.Ranked) (hs : V.session id = some s)
    (hf : V.Fails exe s t e) (task : TaskId) (waiting : List TaskId) :
    e ≠ .unknownTask task ∧ e ≠ .deadlock waiting := by
  cases hf with
  | itself hr =>
    have hlocal := request_error_local hr
    constructor <;> rintro rfl <;> cases hlocal
  | awaited => simp
  | unknown hr ht =>
    obtain ⟨state, hstate⟩ := h.known (.inl ⟨s, hs, Session.holds_of_await hr⟩)
    simp [ht] at hstate

/-- No session disappears, and the one of the program stays the same. -/
def View.Keeps (V V' : View) : Prop :=
  V'.topLevel = V.topLevel ∧ ∀ x, (V.session x).isSome → (V'.session x).isSome

theorem View.Keeps.step (hstep : V.Step exe id V') : V.Keeps V' := by
  cases hstep <;> refine ⟨rfl, fun x hx => ?_⟩ <;> simp only [put_session, spawn_session,
    addSettled_session] <;> grind

theorem View.Keeps.steps {n : Nat} {prints : List (List Value)}
    (hsteps : View.Steps exe id n prints V V') : V.Keeps V' := by
  induction hsteps with
  | refl V => exact ⟨rfl, fun _ hx => hx⟩
  | head _ hstep _ ih =>
    obtain ⟨htop, hkeep⟩ := View.Keeps.step hstep
    exact ⟨ih.1.trans htop, fun x hx => ih.2 x (hkeep x hx)⟩

theorem View.Keeps.concludes (hc : V.Concludes exe id o V') : V.Keeps V' := by
  cases hc <;> refine ⟨rfl, fun x hx => ?_⟩ <;> simp only [finish_session, suspend_session] <;>
    grind

end Quanta

namespace Scheduler

variable {exe : Executable} {settings : MachineSettings} {entry : String} {args : List Value}
  {c d : Scheduler} {id : TaskId} {o : Outcome}

theorem topSession?_eq (c : Scheduler) :
    c.topSession? = c.world.view.topLevel.bind c.world.view.session := rfl

/-- What quanta of a program without futures keep. -/
structure Unblocked (c : Scheduler) : Prop where
  plain : c.executable.FutureFree
  sound : c.world.view.Sound
  ranked : c.world.view.Ranked
  /-- The session of the program is there. -/
  top : ∃ s, c.topSession? = some s
  /-- Sessions did not fail for want of a task, or of something to run. -/
  failures {x : TaskId} {e : MachineError} : c.failures.get? x = some e →
    ∀ task waiting, e ≠ .unknownTask task ∧ e ≠ .deadlock waiting

/-- At the last step of a quantum there still is a ranking. -/
theorem Unblocked.quantum_spec (h : c.Unblocked) (hq : c.quantum = some ((id, o), d)) :
    ∃ V, V.Sound ∧ V.Ranked ∧ V.Concludes c.executable id o d.world.view ∧
      c.world.view.Keeps V := by
  obtain ⟨s, n, V, hs, hsteps, hc, -, sound, -⟩ := quantum_sound_spec h.sound hq
  obtain ⟨queue, hqueue, -⟩ := quantum_eq_some hq
  obtain ⟨hsound, hrun⟩ := sound_running h.sound hqueue (h.sound.fits hs).own
  have ranked : (c.world.view.put id { s with status := .running }).Ranked :=
    h.ranked.put rfl fun hold => .inl (.inl ⟨s, hs, hold⟩)
  have keeps := View.Keeps.steps hsteps
  refine ⟨V, sound, ranked.steps h.plain hsound hrun hsteps, hc, keeps.1, fun x hx => ?_⟩
  refine keeps.2 x ?_
  rw [View.put_session]
  split
  · rfl
  · exact hx

/-- A quantum fails neither for want of a task nor of something to run. -/
theorem Unblocked.quantum_error (h : c.Unblocked) (hq : c.quantum = some ((id, o), d))
    (task : TaskId) (waiting : List TaskId) :
    o ≠ .failed (.unknownTask task) ∧ o ≠ .failed (.deadlock waiting) := by
  obtain ⟨V, sound, ranked, hc, -⟩ := h.quantum_spec hq
  generalize d.world.view = V' at hc
  cases hc with
  | failed _ hs hf => simpa using ranked.error_ne hs hf task waiting
  | _ => simp

theorem Unblocked.quantum (h : c.Unblocked) (hq : c.quantum = some ((id, o), d)) :
    d.Unblocked := by
  obtain ⟨V, sound, ranked, hc, keeps⟩ := h.quantum_spec hq
  obtain ⟨hexe, -, hfail⟩ := quantum_fields hq
  have keeps' := View.Keeps.concludes hc
  refine ⟨hexe ▸ h.plain, quantum_sound h.sound hq, ranked.concludes h.plain hc, ?_, ?_⟩
  · obtain ⟨s, hs⟩ := h.top
    obtain ⟨top, htop, hs⟩ := Option.bind_eq_some_iff.mp hs
    have there := keeps'.2 top (keeps.2 top (Option.isSome_of_eq_some hs))
    obtain ⟨s', hs'⟩ := Option.isSome_iff_exists.mp there
    exact ⟨s', Option.bind_eq_some_iff.mpr ⟨top, keeps'.1.trans (keeps.1.trans htop), hs'⟩⟩
  · intro x e hx task waiting
    rcases hfail x e hx with hx | ⟨-, rfl⟩
    · exact h.failures hx task waiting
    · simpa using h.quantum_error hq task waiting

theorem Unblocked.start (hexe : exe.FutureFree) (hargs : ∀ v ∈ args, v.FutureFree)
    (h : start { executable := exe, settings } entry args = .ok (id, c)) : c.Unblocked := by
  have sound := start_sound h
  obtain ⟨info, bindings, -, hb, rfl, rfl, -, hfail, hview⟩ := start_view h
  -- the first session holds nothing but its arguments
  have none (t u : TaskId) : ¬ c.world.view.Holds t u := by
    rw [hview]
    rintro (⟨s, hs, hold⟩ | ⟨v, hv, -⟩)
    · rw [View.spawn_session] at hs
      split at hs
      · cases hs
        have hold : (Value.future u).Bound bindings := by simpa [Session.Holds] using hold
        exact not_bound_of_futureFree hargs hb u hold
      · simp [World.session?] at hs
    · rw [View.spawn_task] at hv
      split at hv
      · cases hv
      · simp [World.task?] at hv
  refine ⟨hexe, sound, ⟨fun hold => (none _ _ hold).elim, ⟨fun _ => 0, fun t u hold =>
    (none t u hold).elim⟩, ?_, ?_⟩, ?_, ?_⟩
  · intro t waiters ht
    rw [hview] at ht ⊢
    rw [View.spawn_task] at ht
    rw [View.spawn_session]
    split
    · exact ⟨_, rfl⟩
    · next e =>
      rw [if_neg e] at ht
      simp [World.task?] at ht
  · intro x t s hs hsus
    rw [hview, View.spawn_session] at hs
    split at hs
    · cases hs
      cases hsus
    · simp [World.session?] at hs
  · rw [topSession?_eq, hview]
    exact Option.isSome_iff_exists.mp rfl
  · simp [hfail]

theorem Unblocked.run (h : c.Unblocked) (n : Nat) : (c.run n).Unblocked :=
  run_induction (fun h hq => Unblocked.quantum h hq) n h

theorem Unblocked.isOver (h : c.Unblocked) (idle : c.world.queue = []) {x : TaskId} {s : Session}
    (hs : c.world.session? x = some s) : s.isOver :=
  h.ranked.isOver_of_idle h.sound idle hs

theorem Unblocked.progress_ne (h : c.Unblocked) (waiting : List TaskId) :
    c.progress ≠ .blocked waiting := by
  obtain ⟨s, hs⟩ := h.top
  obtain ⟨top, -, hs'⟩ := Option.bind_eq_some_iff.mp hs
  simp only [progress, hs]
  intro hp
  split at hp
  · cases hp
  · cases hp
  · next hhalted hfailed =>
    split at hp
    · next hidle =>
      have hover := h.isOver (List.isEmpty_iff.mp hidle) hs'
      unfold Session.isOver at hover
      grind
    · cases hp

/-- The report of a program never tells of a deadlock. -/
theorem Unblocked.report_ne (h : c.Unblocked) (waiting : List TaskId) :
    c.report ≠ .error (.deadlock waiting) := by
  obtain ⟨s, hs⟩ := h.top
  obtain ⟨top, htop, hs'⟩ := Option.bind_eq_some_iff.mp hs
  simp only [report, htop]
  intro hr
  split at hr
  · cases hr
  · next message _ =>
    cases hf : c.failures.get? top with
    | none => simp [hf] at hr
    | some e => simp [hf, (h.failures hf 0 waiting).2] at hr
  · simp at hr
  · next hp => exact h.progress_ne _ hp

/-- Compiled programs have no futures among their constants. A program without such constants,
called with arguments that have no futures in them, never blocks: when nothing can run every
session is over, and no session fails because a task that it waits for is not there. -/
theorem run_never_blocks (hexe : exe.FutureFree) (hargs : ∀ v ∈ args, v.FutureFree)
    (h : start { executable := exe, settings } entry args = .ok (id, c)) (n : Nat) :
    (∀ program compiled, compile program = .ok compiled → compiled.FutureFree) ∧
      ((c.run n).world.queue = [] → ∀ x s, (c.run n).world.session? x = some s → s.isOver) ∧
      (∀ waiting, (c.run n).progress ≠ .blocked waiting) ∧
      (∀ x o d task, (c.run n).quantum = some ((x, o), d) → o ≠ .failed (.unknownTask task)) ∧
      (∀ x task, (c.run n).failures.get? x ≠ some (.unknownTask task)) ∧
      ∀ report d waiting, c.drain n = some (report, d) → report ≠ .error (.deadlock waiting) := by
  have unblocked := (Unblocked.start hexe hargs h).run n
  refine ⟨fun _ _ => futureFree_of_compile, fun idle x s => unblocked.isOver idle,
    unblocked.progress_ne, fun x o d task hq => (unblocked.quantum_error hq task []).1,
    fun x task hx => (unblocked.failures hx task []).1 rfl, fun report d waiting hd => ?_⟩
  obtain ⟨-, -, rfl⟩ := drain_eq_some hd
  exact unblocked.report_ne waiting

theorem awaitOnce_futureFree : awaitOnce.FutureFree := by
  simp [Executable.FutureFree, awaitOnce, Value.FutureFree]

/-- Three quanta bring `awaitOnce` to its end: its first session waits, the second one ends, and
the first one has its value. -/
theorem run_never_blocks_awaitOnce :
    awaitOnce.FutureFree ∧ ∃ c,
      start { executable := awaitOnce, settings := {} } "main" [] = .ok (0, c) ∧
      (c.run 3).world.queue = [] ∧
      (∀ program compiled, compile program = .ok compiled → compiled.FutureFree) ∧
      ((c.run 3).world.queue = [] → ∀ x s, (c.run 3).world.session? x = some s → s.isOver) ∧
      (∀ waiting, (c.run 3).progress ≠ .blocked waiting) ∧
      (∀ x o d task, (c.run 3).quantum = some ((x, o), d) → o ≠ .failed (.unknownTask task)) ∧
      (∀ x task, (c.run 3).failures.get? x ≠ some (.unknownTask task)) ∧
      ∀ report d waiting, c.drain 3 = some (report, d) → report ≠ .error (.deadlock waiting) := by
  obtain ⟨c, h, idle⟩ : ∃ c, start { executable := awaitOnce, settings := {} } "main" [] =
      .ok (0, c) ∧ (c.run 3).world.queue = [] := ⟨_, rfl, by decide +kernel⟩
  exact ⟨awaitOnce_futureFree, c, h, idle, run_never_blocks awaitOnce_futureFree (by simp) h 3⟩

end Scheduler

end Teal
