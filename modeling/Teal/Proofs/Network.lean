import Mathlib.Data.Nat.Pairing
import Teal.Proofs.Request

/-!
# Networks

A network is what remains of a world when all that depends on the order of its quanta is left
out: queue, waiters and the numbers of tasks. A task is named after the task that started it and
how many this one had started before, so its name does not depend on what other tasks did
meanwhile. Steps of two different tasks of a network commute, since a task reads another one only
when that one has ended. All runs to the end of a network are therefore equally long and end
alike.

## Main definitions

* `Cell`, `Network`: a task, and tasks by their names.
* `Network.fire`: a step of a task.
* `Network.Fresh`: the names of tasks that will be started are not in use.

## Main statements

* `Network.fire_comm`: steps of different tasks commute.
* `Network.Runs.complete`: every run leads on to the end, in the steps that remain.
-/

namespace Teal

/-- A task and the session that ends it, if there is one. -/
inductive Cell
  /-- A session that is not over, the number of tasks it has started and what it has printed. -/
  | active (s : Session) (children : Nat) (log : List (List Value))
  | halted (value : Value) (log : List (List Value))
  | failed (log : List (List Value))
  | settled (value : Value)

/-- What a task that has ended gives to one that waits for it: a value, or none if it failed. -/
def Cell.answer? : Cell → Option (Option Value)
  | .active .. => none
  | .halted v _ | .settled v => some (some v)
  | .failed _ => some none

abbrev Network := TaskId → Option Cell

namespace Network

/-- The name of the task that a task starts after `n` others. The names are even and not null. -/
def child (p : TaskId) (n : Nat) : TaskId :=
  (2 * (Nat.pair p n + 1) : Nat)

theorem child_inj {p q : TaskId} {m n : Nat} : child p m = child q n ↔ p = q ∧ m = n := by
  constructor
  · intro h
    have h : 2 * (Nat.pair p m + 1) = 2 * (Nat.pair q n + 1) := h
    exact Nat.pair_eq_pair.mp (by omega)
  · rintro ⟨rfl, rfl⟩
    rfl

def next (exe : Executable) (N : Network) (p : TaskId) :
    Cell → Option (Cell × Option (TaskId × Cell))
  | .active s n log =>
    match request exe s with
    | .goOn t prints => some (.active t n (log ++ prints), none)
    | .halt _ v => some (.halted v log, none)
    | .fail _ _ => some (.failed log, none)
    | .spawn t ip first =>
      some (.active (t.push (.future (child p n))) (n + 1) log,
        some (child p n, .active { id := 0, ip, activations := [first] } 0 []))
    | .settle t v prints =>
      some (.active (t.push (.future (child p n))) (n + 1) (log ++ prints),
        some (child p n, .settled v))
    | .await t task rest =>
      match (N task).bind Cell.answer? with
      | none => none
      | some (some v) => some (.active (t.advance.withStack (v :: rest)) n log, none)
      | some none => some (.failed log, none)
  | _ => none

def put (N : Network) (p : TaskId) (r : Cell × Option (TaskId × Cell)) : Network :=
  fun q => if q = p then some r.1
    else match r.2 with
      | some (new, cell) => if q = new then some cell else N q
      | none => N q

def fire (exe : Executable) (N : Network) (p : TaskId) : Option Network :=
  ((N p).bind (N.next exe p)).map (N.put p)

/-- A task is known if one that it started is, and will give new names to those it starts. -/
def Fresh (N : Network) : Prop :=
  ∀ p i cell, N (child p i) = some cell →
    ∃ parent, N p = some parent ∧ ∀ s n log, parent = .active s n log → i < n

def initial (s : Session) : Network :=
  fun p => if p = 0 then some (.active s 0 []) else none

theorem fresh_initial (s : Session) : Fresh (initial s) := by
  intro p i cell h
  have hne : child p i ≠ 0 := Nat.succ_ne_zero _
  simp [initial, hne] at h

def Idle (exe : Executable) (N : Network) : Prop :=
  ∀ p, N.fire exe p = none

inductive Runs (exe : Executable) : Nat → Network → Network → Prop
  | refl (N : Network) : Runs exe 0 N N
  | head {n : Nat} {p : TaskId} {N M K : Network} :
      N.fire exe p = some M → Runs exe n M K → Runs exe (n + 1) N K

variable {exe : Executable} {N M A B T : Network} {p q : TaskId} {cell : Cell}
  {r : Cell × Option (TaskId × Cell)}

theorem fire_eq_some (h : N.fire exe p = some M) :
    ∃ cell r, N p = some cell ∧ N.next exe p cell = some r ∧ M = N.put p r := by
  obtain ⟨r, hr, rfl⟩ := Option.map_eq_some_iff.mp h
  obtain ⟨cell, hcell, hr⟩ := Option.bind_eq_some_iff.mp hr
  exact ⟨cell, r, hcell, hr, rfl⟩

theorem fire_of_next (hcell : N p = some cell) (hr : N.next exe p cell = some r) :
    N.fire exe p = some (N.put p r) := by
  simp [fire, hcell, hr]

/-- Only a session that is not over makes a step. It keeps count of the tasks that it starts. -/
theorem next_eq_some (h : N.next exe p cell = some r) :
    ∃ s n log, cell = .active s n log ∧
      ((r.2 = none ∧ ∀ s' n' log', r.1 = .active s' n' log' → n' = n) ∨
        ∃ new, r.2 = some (child p n, new) ∧
          ∀ s' n' log', r.1 = .active s' n' log' → n' = n + 1) := by
  cases cell with
  | active s n log =>
    refine ⟨s, n, log, rfl, ?_⟩
    simp only [next] at h
    split at h
    case h_4 | h_5 =>
      cases h
      exact .inr ⟨_, rfl, by simp_all⟩
    case h_6 =>
      split at h <;> cases h
      · exact .inl ⟨rfl, by simp_all⟩
      · exact .inl ⟨rfl, by simp_all⟩
    all_goals
      cases h
      exact .inl ⟨rfl, by simp_all⟩
  | _ => cases h

/-- A step reads nothing but tasks that have ended. -/
theorem next_congr (h : N.next exe p cell = some r)
    (ended : ∀ t c, N t = some c → c.answer?.isSome → M t = some c) :
    M.next exe p cell = some r := by
  cases cell with
  | active s n log =>
    simp only [next] at h ⊢
    split at h
    case h_6 t task rest hreq =>
      cases ht : (N task).bind Cell.answer? with
      | none => simp [ht] at h
      | some answer =>
        obtain ⟨c, hc, hanswer⟩ := Option.bind_eq_some_iff.mp ht
        have hM : (M task).bind Cell.answer? = some answer := by
          rw [ended task c hc (by simp [hanswer])]
          exact hanswer
        rw [ht] at h
        rw [hM]
        exact h
    all_goals exact h
  | _ => cases h

/-- The name of a task that is started is not in use. -/
theorem Fresh.unused (hN : N.Fresh) {s : Session} {n : Nat} {log : List (List Value)}
    (h : N p = some (.active s n log)) : N (child p n) = none := by
  rw [Option.eq_none_iff_forall_ne_some]
  intro cell hcell
  obtain ⟨parent, hparent, hlt⟩ := hN p n cell hcell
  rw [h] at hparent
  exact Nat.lt_irrefl n (hlt s n log (Option.some.inj hparent).symm)

/-- A step changes no other task that is there. -/
theorem put_of_known (hN : N.Fresh) (hcell : N p = some cell) (hr : N.next exe p cell = some r)
    {c : Cell} (hq : N q = some c) (hpq : q ≠ p) : N.put p r q = some c := by
  obtain ⟨s, n, log, rfl, h⟩ := next_eq_some hr
  rcases h with ⟨hnone, -⟩ | ⟨new, hnew, -⟩
  · simp [put, hpq, hnone, hq]
  · have : q ≠ child p n := by
      rintro rfl
      simp [hN.unused hcell] at hq
    simp [put, hpq, hnew, this, hq]

theorem put_comm (N : Network) {r u : Cell × Option (TaskId × Cell)} (hpq : p ≠ q)
    (hq : ∀ new ∈ r.2, new.1 ≠ q) (hp : ∀ new ∈ u.2, new.1 ≠ p)
    (hne : ∀ new ∈ r.2, ∀ new' ∈ u.2, new.1 ≠ new'.1) :
    (N.put q u).put p r = (N.put p r).put q u := by
  obtain ⟨a, _ | ⟨s, c⟩⟩ := r <;> obtain ⟨b, _ | ⟨t, d⟩⟩ := u <;>
    simp only [Option.mem_def, Option.some.injEq, forall_eq', reduceCtorEq, false_implies,
      implies_true] at hq hp hne <;>
    funext x <;> simp only [put] <;> grind

/-- Steps of different tasks commute. -/
theorem fire_comm (hN : N.Fresh) (hpq : p ≠ q) (hA : N.fire exe p = some A)
    (hB : N.fire exe q = some B) : ∃ C, A.fire exe q = some C ∧ B.fire exe p = some C := by
  obtain ⟨c, r, hc, hr, rfl⟩ := fire_eq_some hA
  obtain ⟨d, u, hd, hu, rfl⟩ := fire_eq_some hB
  have ended {x : TaskId} {cell : Cell} {r : Cell × Option (TaskId × Cell)} (hc : N x = some cell)
      (hr : N.next exe x cell = some r) (t : TaskId) (e : Cell) (he : N t = some e)
      (hanswer : e.answer?.isSome) : N.put x r t = some e := by
    refine put_of_known hN hc hr he ?_
    rintro rfl
    obtain ⟨s, n, log, rfl, -⟩ := next_eq_some hr
    obtain rfl : e = .active s n log := by simpa [hc] using he.symm
    simp [Cell.answer?] at hanswer
  have first := fire_of_next (put_of_known hN hc hr hd (Ne.symm hpq))
    (next_congr hu (ended hc hr))
  have second := fire_of_next (put_of_known hN hd hu hc hpq) (next_congr hr (ended hd hu))
  refine ⟨_, first, second.trans (congrArg some ?_)⟩
  -- the two steps write different names
  obtain ⟨s, m, log, rfl, writes⟩ := next_eq_some hr
  obtain ⟨s', n, log', rfl, writes'⟩ := next_eq_some hu
  have hp := hN.unused hc
  have hq := hN.unused hd
  have hne : child p m ≠ child q n := fun h => hpq (child_inj.mp h).1
  have hpn : p ≠ child q n := by
    rintro rfl
    simp [hq] at hc
  have hqm : q ≠ child p m := by
    rintro rfl
    simp [hp] at hd
  refine put_comm N hpq ?_ ?_ ?_
  · rcases writes with ⟨hr, -⟩ | ⟨new, hr, -⟩ <;> simp [hr, hqm.symm]
  · rcases writes' with ⟨hu, -⟩ | ⟨new', hu, -⟩ <;> simp [hu, hpn.symm]
  · rcases writes with ⟨hr, -⟩ | ⟨new, hr, -⟩
    · simp [hr]
    · rcases writes' with ⟨hu, -⟩ | ⟨new', hu, -⟩ <;> simp [hr, hu, hne]

theorem Fresh.fire (hN : N.Fresh) (h : N.fire exe p = some M) : M.Fresh := by
  obtain ⟨cell, r, hcell, hr, rfl⟩ := fire_eq_some h
  obtain ⟨s, m, log, rfl, writes⟩ := next_eq_some hr
  intro q i c hc
  -- a task that was there before has its parent, which counts on
  have old {c : Cell} (hc : N (child q i) = some c) :
      ∃ parent, N.put p r q = some parent ∧ ∀ s n log, parent = .active s n log → i < n := by
    obtain ⟨parent, hparent, hlt⟩ := hN q i c hc
    by_cases e : q = p
    · subst e
      obtain rfl : parent = .active s m log := by simpa [hcell] using hparent.symm
      have := hlt s m log rfl
      refine ⟨r.1, by simp [put], fun s' n' log' hr => ?_⟩
      rcases writes with ⟨-, count⟩ | ⟨-, -, count⟩ <;> have := count s' n' log' hr <;> omega
    · exact ⟨parent, put_of_known hN hcell hr hparent e, hlt⟩
  rcases writes with ⟨hnone, -⟩ | ⟨new, hnew, count⟩
  · by_cases e : child q i = p
    · exact old (e ▸ hcell)
    · exact old (by simpa [put, e, hnone] using hc)
  · by_cases e : child q i = p
    · exact old (e ▸ hcell)
    · by_cases e' : child q i = child p m
      · obtain ⟨rfl, rfl⟩ := child_inj.mp e'
        refine ⟨r.1, by simp [put], fun s' n' log' hr => ?_⟩
        have := count s' n' log' hr
        omega
      · exact old (by simpa [put, e, e', hnew] using hc)

theorem Runs.trans {m n : Nat} (h : Runs exe m A B) (h' : Runs exe n B T) :
    Runs exe (m + n) A T := by
  induction h with
  | refl A => simpa using h'
  | head hfire _ ih => exact Nat.succ_add _ _ ▸ .head hfire (ih h')

theorem Runs.eq_of_idle {n : Nat} (h : Runs exe n A B) (idle : Idle exe A) : A = B := by
  cases h with
  | refl => rfl
  | @head _ p _ _ _ hfire => simp [idle p] at hfire

/-- Of a run to the end, one step can be made first. -/
theorem Runs.strip {n : Nat} (hN : N.Fresh) (idle : Idle exe T) (h : Runs exe n N T)
    (hM : N.fire exe p = some M) : ∃ m, n = m + 1 ∧ Runs exe m M T := by
  induction n generalizing N M p with
  | zero =>
    cases h
    simp [idle p] at hM
  | succ n ih =>
    refine ⟨n, rfl, ?_⟩
    cases h with
    | @head _ q _ A _ hA h =>
      by_cases hpq : p = q
      · subst hpq
        obtain rfl : M = A := by simpa [hM] using hA
        exact h
      · obtain ⟨C, hC, hC'⟩ := fire_comm hN hpq hM hA
        obtain ⟨m, rfl, hrest⟩ := ih (hN.fire hA) h hC'
        exact .head hC hrest

/-- Every run leads on to the end, in the steps that remain. -/
theorem Runs.complete {m n : Nat} (hN : N.Fresh) (idle : Idle exe T) (h : Runs exe n N T)
    (hM : Runs exe m N M) : ∃ k, n = m + k ∧ Runs exe k M T := by
  induction hM generalizing n with
  | refl N => exact ⟨n, by omega, h⟩
  | head hfire _ ih =>
    obtain ⟨n, rfl, hrest⟩ := h.strip hN idle hfire
    obtain ⟨k, rfl, hend⟩ := ih (hN.fire hfire) hrest
    exact ⟨k, by omega, hend⟩

end Network

end Teal
