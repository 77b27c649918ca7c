import Mathlib.Data.Set.Insert
import Teal.Proofs.Callers
import Teal.Proofs.Deadlock
import Teal.Proofs.Network
import Teal.Proofs.Rename

/-!
# Chains of tasks

Where calls are made as tasks that are awaited at once, the activations of one session are shared
out among several tasks: each waits for the next, and the last one runs. Such a chain does what the
session does. It makes a step of the session in one step or more: at the end of a function its last
task ends and the one before goes on, and when the session fails all its tasks fail.

## Main definitions

* `Network.Changes`, `Network.Moves`: tasks that steps change, and those that run afterwards.
* `Deferral`: a program, and the same with some calls as tasks.
* `Deferral.Stands`: a chain of tasks stands for a session.
* `Deferral.Serves`: a chain does what its session asks for.

## Main statements

* `Deferral.Stands.serves`: a chain does what its session asks for, whatever that is.
-/

namespace Teal

/-! ## Steps and the tasks they change -/

namespace Network

/-- Only tasks of `X` and new ones change, and of these only tasks of `Y` can go on. -/
structure Changes (X Y : Set TaskId) (M M' : Network) : Prop where
  keeps {x : TaskId} {c : Cell} : M x = some c → x ∉ X → M' x = some c
  active {x : TaskId} {s : Session} {n : Nat} {log : List (List Value)} :
    M' x = some (.active s n log) → x ∈ Y ∨ (x ∉ X ∧ M x = some (.active s n log))
  known {x : TaskId} : x ∈ Y → x ∈ X ∨ M x = none

structure Moves (exe : Executable) (X Y : Set TaskId) (M M' : Network) : Prop extends
    Changes X Y M M' where
  runs : ∃ k, Runs exe (k + 1) M M'

variable {exe : Executable} {X Y X' Y' : Set TaskId} {M M' M'' : Network} {q r : TaskId}
  {cell : Cell} {res : Cell × Option (TaskId × Cell)}

theorem Fresh.runs {k : Nat} (h : M.Fresh) (hruns : Runs exe k M M') : M'.Fresh := by
  induction hruns with
  | refl => exact h
  | head hfire _ ih => exact ih (h.fire hfire)

theorem Moves.fresh (h : Moves exe X Y M M') (fresh : M.Fresh) : M'.Fresh := by
  obtain ⟨k, hruns⟩ := h.runs
  exact fresh.runs hruns

/-- What cannot change in the first steps, and what the second steps change. -/
theorem Moves.trans (h : Moves exe X Y M M') (h' : Moves exe X' Y' M' M'') (sub : Y ⊆ X') :
    Moves exe (X ∪ X') Y' M M'' := by
  obtain ⟨k, hruns⟩ := h.runs
  obtain ⟨k', hruns'⟩ := h'.runs
  refine ⟨⟨fun hx hX => ?_, fun hx => ?_, fun {x} hx => ?_⟩, k + 1 + k', hruns.trans hruns'⟩
  · rw [Set.mem_union, not_or] at hX
    exact h'.keeps (h.keeps hx hX.1) hX.2
  · refine (h'.active hx).imp_right fun ⟨hX', hx'⟩ => ?_
    rcases h.active hx' with hY | ⟨hX, hx⟩
    · exact absurd (sub hY) hX'
    · exact ⟨by simp [hX, hX'], hx⟩
  · rcases h'.known hx with hX' | hnone
    · exact .inl (.inr hX')
    · by_cases hX : x ∈ X
      · exact .inl (.inl hX)
      · refine .inr (Option.eq_none_iff_forall_ne_some.mpr fun c hc => ?_)
        simp [h.keeps hc hX] at hnone

/-- A task that does nothing. -/
theorem Moves.insert {s : Session} {n : Nat} {log : List (List Value)} (h : Moves exe X Y M M')
    (hq : M q = some (.active s n log)) (hX : q ∉ X) :
    Moves exe (insert q X) (insert q Y) M M' := by
  refine ⟨⟨fun hx hX' => ?_, fun {x} _ _ _ hx => ?_, fun hx => ?_⟩, h.runs⟩
  · rw [Set.mem_insert_iff, not_or] at hX'
    exact h.keeps hx hX'.2
  · by_cases e : x = q
    · exact .inl (.inl e)
    · exact (h.active hx).imp .inr fun ⟨hX, hx⟩ => ⟨by simp [e, hX], hx⟩
  · rcases hx with rfl | hx
    · exact .inl (.inl rfl)
    · exact (h.known hx).imp_left .inr

/-- One step. -/
theorem moves_of_next (fresh : M.Fresh) (hcell : M r = some cell)
    (hnext : M.next exe r cell = some res)
    (own : ∀ s n log, res.1 = .active s n log → r ∈ Y)
    (new : ∀ c s n log, res.2 = some (c, .active s n log) → c ∈ Y)
    (sub : ∀ x ∈ Y, x = r ∨ ∃ c, res.2 = some (x, c)) : Moves exe {r} Y M (M.put r res) := by
  obtain ⟨s, n, log, rfl, writes⟩ := next_eq_some hnext
  refine ⟨⟨fun hx hX => put_of_known fresh hcell hnext hx hX, fun {x s' n' log'} hx => ?_,
    fun {x} hx => ?_⟩, 0, .head (fire_of_next hcell hnext) (.refl _)⟩
  · by_cases e : x = r
    · subst e
      exact .inl (own s' n' log' (by simpa [put] using hx))
    · rcases hres : res.2 with _ | ⟨c, cell⟩
      · exact .inr ⟨e, by simpa [put, e, hres] using hx⟩
      · by_cases e' : x = c
        · subst e'
          have hcell : cell = .active s' n' log' := by simpa [put, e, hres] using hx
          exact .inl (new x s' n' log' (hcell ▸ hres))
        · exact .inr ⟨e, by simpa [put, e, e', hres] using hx⟩
  · refine (sub x hx).imp_right fun h => ?_
    obtain ⟨c, hc⟩ := h
    rcases writes with ⟨hnone, -⟩ | ⟨new, hnew, -⟩
    · simp [hnone] at hc
    · obtain ⟨rfl, -⟩ : child r n = x ∧ new = c := by simpa [hnew] using hc
      exact fresh.unused hcell

/-- One step after which the task goes on, and no other is started. -/
theorem moves_of_active (fresh : M.Fresh) (hcell : M r = some cell) {s : Session} {n : Nat}
    {log : List (List Value)} (hnext : M.next exe r cell = some (.active s n log, none)) :
    Moves exe {r} {r} M (M.put r (.active s n log, none)) :=
  moves_of_next fresh hcell hnext (fun _ _ _ _ => rfl) nofun fun _ hx => .inl hx

/-- One step with which the task ends. -/
theorem moves_of_ended (fresh : M.Fresh) (hcell : M r = some cell) {c : Cell}
    (hc : c.answer?.isSome) (hnext : M.next exe r cell = some (c, none)) :
    Moves exe {r} ∅ M (M.put r (c, none)) := by
  refine moves_of_next fresh hcell hnext (fun s n log hactive => ?_) nofun nofun
  obtain rfl : c = .active s n log := hactive
  cases hc

theorem put_self : M.put r res r = some res.1 := by simp [put]

theorem put_new {c : TaskId} {new : Cell} (h : res.2 = some (c, new)) (hne : c ≠ r) :
    M.put r res c = some new := by
  simp [put, h, hne]

end Network

/-! ## Chains -/

/-- A program, the same with some calls as tasks, the places of its code and its heights. -/
structure Deferral where
  direct : Executable
  deferred : Executable
  place : Nat → Nat
  height : Nat → Nat
  expands : direct.Expands place deferred
  balanced : direct.Balanced height
  plain : direct.FutureFree
  plainDeferred : deferred.FutureFree

namespace Deferral

open Network

def image (D : Deferral) (μ : TaskId → TaskId) (s : Session) : Session :=
  (s.moved D.place).image μ

def waiting (D : Deferral) (μ : TaskId → TaskId) (c : Caller) (task : TaskId) : Session :=
  (Session.image μ { id := 0, ip := D.place c.site + 1, stack := c.stack
                     activations := c.activations.map (Activation.moved D.place) }).push
    (.future task)

structure Suspends (D : Deferral) (c : Caller) : Prop where
  accounted : c.Accounted D.direct D.height
  wait : ∃ i, D.deferred.instruction? (D.place c.site + 1) = some i ∧ i.op = .wait
  next : D.place (c.site + 1) = D.place c.site + 2

/-- The tasks `ts` of a network stand for a session: `q` runs it alone, or it waits for a task that
is the first of those that stand for what is above the caller. -/
inductive Stands (D : Deferral) (μ : TaskId → TaskId) (M : Network) :
    (q : TaskId) → Session → (ts : Set TaskId) → Prop
  | alone {q : TaskId} {s : Session} {n : Nat} {log : List (List Value)}
      (above : s.Above D.direct D.height {}) (hcell : M q = some (.active (D.image μ s) n log)) :
      Stands D μ M q s {q}
  | calling {q r : TaskId} {s : Session} {c : Caller} {ts : Set TaskId} {n : Nat}
      {log : List (List Value)} (suspends : D.Suspends c)
      (hcell : M q = some (.active (D.waiting μ c r) n log)) (callee : Stands D μ M r s ts)
      (apart : q ∉ ts) : Stands D μ M q (s.over c) (insert q ts)

variable {D : Deferral} {μ μ' : TaskId → TaskId} {M M' : Network} {q r : TaskId} {s t : Session}
  {ts : Set TaskId} {c : Caller} {n : Nat} {log : List (List Value)} {v : Value}

namespace Stands

theorem above (h : D.Stands μ M q s ts) : s.Above D.direct D.height {} := by
  induction h with
  | alone above => exact above
  | calling suspends _ _ _ ih => exact ih.over suspends.accounted

theorem mem (h : D.Stands μ M q s ts) : q ∈ ts := by
  cases h with
  | alone => rfl
  | calling => exact .inl rfl

/-- The tasks of a chain can go on. -/
theorem active (h : D.Stands μ M q s ts) {x : TaskId} (hx : x ∈ ts) :
    ∃ s n log, M x = some (.active s n log) := by
  induction h with
  | alone _ hcell => exact ⟨_, _, _, hx ▸ hcell⟩
  | calling _ hcell _ _ ih =>
    rcases hx with rfl | hx
    · exact ⟨_, _, _, hcell⟩
    · exact ih hx

theorem frame (h : D.Stands μ M q s ts) (keeps : ∀ x ∈ ts, ∀ c, M x = some c → M' x = some c) :
    D.Stands μ M' q s ts := by
  induction h with
  | alone above hcell => exact .alone above (keeps _ rfl _ hcell)
  | calling suspends hcell _ apart ih =>
    exact .calling suspends (keeps _ (.inl rfl) _ hcell) (ih fun x hx => keeps x (.inr hx)) apart

end Stands

theorem holds_moved {φ : Nat → Nat} {u : Value} (h : (s.moved φ).Holds u) : s.Holds u := by
  rcases h with h | ⟨a, ha, h⟩
  · exact .inl h
  · obtain ⟨b, hb, rfl⟩ := List.mem_map.mp ha
    exact .inr ⟨b, hb, h⟩

theorem image_congr (agree : ∀ u, s.Holds (.future u) → μ u = μ' u) :
    D.image μ s = D.image μ' s :=
  Session.image_congr fun u hu => agree u (holds_moved hu)

theorem waiting_congr (agree : ∀ u, (s.over c).Holds (.future u) → μ u = μ' u) (task : TaskId) :
    D.waiting μ c task = D.waiting μ' c task := by
  unfold waiting
  rw [Session.image_congr fun u hu => agree u ?_]
  rcases hu with ⟨v, hv, hu⟩ | ⟨a, ha, hu⟩
  · exact .inl ⟨v, List.mem_append_right _ hv, hu⟩
  · obtain ⟨b, hb, rfl⟩ := List.mem_map.mp ha
    exact .inr ⟨b, List.mem_append_right _ hb, hu⟩

theorem holds_over {u : Value} (h : s.Holds u) : (s.over c).Holds u := by
  rcases h with ⟨v, hv, h⟩ | ⟨a, ha, h⟩
  · exact .inl ⟨v, List.mem_append_left _ hv, h⟩
  · exact .inr ⟨a.over c, List.mem_append_left _ (List.mem_map_of_mem ha), h⟩

/-- A chain stands for its session under all names that agree on the tasks it knows. -/
theorem Stands.congr (h : D.Stands μ M q s ts) (agree : ∀ u, s.Holds (.future u) → μ u = μ' u) :
    D.Stands μ' M q s ts := by
  induction h with
  | alone above hcell => exact .alone above (image_congr agree ▸ hcell)
  | calling suspends hcell _ apart ih =>
    exact .calling suspends (waiting_congr agree _ ▸ hcell)
      (ih fun u hu => agree u (holds_over hu)) apart

/-! ## What a chain does -/

/-- After some steps a chain stands for another state of its session. -/
def Continues (D : Deferral) (μ : TaskId → TaskId) (M : Network) (q : TaskId) (ts : Set TaskId)
    (s : Session) : Prop :=
  ∃ M' ts', Moves D.deferred ts ts' M M' ∧ D.Stands μ M' q s ts'

def Ends (D : Deferral) (M : Network) (q : TaskId) (ts : Set TaskId)
    (answer : Option Value) : Prop :=
  ∃ M', Moves D.deferred ts ∅ M M' ∧ (M' q).bind Cell.answer? = some answer

/-- After some steps there is a new task, and a chain stands for its session with a future of that
task. The first program may have any name `x` for it. -/
def Starts (D : Deferral) (μ : TaskId → TaskId) (M : Network) (q : TaskId) (ts : Set TaskId)
    (s : Session) (new : Cell) : Prop :=
  ∃ M' ts' r, M r = none ∧ r % 2 = 0 ∧ M' r = some new ∧ r ∉ ts' ∧
    Moves D.deferred ts (insert r ts') M M' ∧
    ∀ μ' x, μ' x = r → (∀ u, s.Holds (.future u) → μ u = μ' u) →
      D.Stands μ' M' q (s.push (.future x)) ts'

/-- A chain does what its session asks for. -/
def Serves (D : Deferral) (μ : TaskId → TaskId) (M : Network) (q : TaskId) (ts : Set TaskId) :
    Request → Prop
  | .goOn s _ => D.Continues μ M q ts s
  | .halt _ v => D.Ends M q ts (some (v.rename μ))
  | .fail _ _ => D.Ends M q ts none
  | .spawn s ip first => D.Starts μ M q ts s
      (.active (D.image μ { id := 0, ip, activations := [first] }) 0 [])
  | .settle s v _ => D.Starts μ M q ts s (.settled (v.rename μ))
  | .await s task rest =>
    (∀ v, (M (μ task)).bind Cell.answer? = some (some (v.rename μ)) →
      D.Continues μ M q ts (s.advance.withStack (v :: rest))) ∧
    ((M (μ task)).bind Cell.answer? = some none → D.Ends M q ts none)

/-! ## A caller that waits -/

theorem request_waiting (suspends : D.Suspends c) (task : TaskId) :
    request D.deferred (D.waiting μ c task) =
      .await (D.waiting μ c task) task (c.stack.map (Value.rename μ)) := by
  obtain ⟨i, hi, hop⟩ := suspends.wait
  exact request_of_wait hi hop rfl

/-- A caller whose task has a result goes on with it. -/
theorem moves_resume (fresh : M.Fresh) (suspends : D.Suspends c)
    (hcell : M q = some (.active (D.waiting μ c r) n log))
    (answer : (M r).bind Cell.answer? = some (some (v.rename μ))) (s : Session) :
    ∃ M', Moves D.deferred {q} {q} M M' ∧ D.Stands μ M' q (c.resume s v) {q} := by
  have hsession : (D.waiting μ c r).advance.withStack
      (v.rename μ :: c.stack.map (Value.rename μ)) = D.image μ (c.resume s v) := by
    simp [waiting, image, Session.image, Session.push, Session.advance, Session.withStack,
      Session.moved, Caller.resume, suspends.next]
  have hnext : M.next D.deferred q (.active (D.waiting μ c r) n log) =
      some (.active (D.image μ (c.resume s v)) n log, none) := by
    simp only [Network.next, request_waiting suspends, answer, hsession]
  exact ⟨_, moves_of_active fresh hcell hnext, .alone (suspends.accounted.resume s v) put_self⟩

/-- A caller whose task has failed fails. -/
theorem moves_fail (fresh : M.Fresh) (suspends : D.Suspends c)
    (hcell : M q = some (.active (D.waiting μ c r) n log))
    (answer : (M r).bind Cell.answer? = some none) : D.Ends M q {q} none := by
  have hnext : M.next D.deferred q (.active (D.waiting μ c r) n log) =
      some (.failed log, none) := by
    simp only [Network.next, request_waiting suspends, answer]
  exact ⟨_, moves_of_ended fresh hcell rfl hnext, by rw [put_self]; rfl⟩

section Calling

variable (suspends : D.Suspends c) (hcell : M q = some (.active (D.waiting μ c r) n log))
  (apart : q ∉ ts)

include hcell apart

theorem apart_of_moves {Y : Set TaskId} (moves : Moves D.deferred ts Y M M') : q ∉ Y := by
  intro hY
  rcases moves.known hY with hq | hq
  · exact apart hq
  · simp [hcell] at hq

include suspends

theorem Continues.over (h : D.Continues μ M r ts s) :
    D.Continues μ M q (insert q ts) (s.over c) := by
  obtain ⟨M', ts', moves, stands⟩ := h
  exact ⟨M', insert q ts', moves.insert hcell apart,
    .calling suspends (moves.keeps hcell apart) stands (apart_of_moves hcell apart moves)⟩

theorem Starts.over {new : Cell} (h : D.Starts μ M r ts s new) :
    D.Starts μ M q (insert q ts) (s.over c) new := by
  obtain ⟨M', ts', x, hx, heven, hnew, hx', moves, stands⟩ := h
  have hq := apart_of_moves hcell apart moves
  rw [Set.mem_insert_iff, not_or] at hq
  refine ⟨M', insert q ts', x, hx, heven, hnew, ?_, ?_, fun μ' y hy agree => ?_⟩
  · rw [Set.mem_insert_iff, not_or]
    exact ⟨Ne.symm hq.1, hx'⟩
  · rw [Set.insert_comm]
    exact moves.insert hcell apart
  · have hcell' := moves.keeps hcell apart
    rw [waiting_congr agree] at hcell'
    exact .calling suspends hcell' (stands μ' y hy fun u hu => agree u (holds_over hu)) hq.2

theorem Ends.fails (fresh : M.Fresh) (h : D.Ends M r ts none) : D.Ends M q (insert q ts) none := by
  obtain ⟨M', moves, answer⟩ := h
  obtain ⟨M'', moves', answer'⟩ :=
    moves_fail (moves.fresh fresh) suspends (moves.keeps hcell apart) answer
  refine ⟨M'', ?_, answer'⟩
  rw [Set.insert_eq, Set.union_comm]
  exact moves.trans moves' (Set.empty_subset _)

theorem Ends.returns (fresh : M.Fresh) (h : D.Ends M r ts (some (v.rename μ))) (s : Session) :
    D.Continues μ M q (insert q ts) (c.resume s v) := by
  obtain ⟨M', moves, answer⟩ := h
  obtain ⟨M'', moves', stands⟩ :=
    moves_resume (moves.fresh fresh) suspends (moves.keeps hcell apart) answer s
  refine ⟨M'', {q}, ?_, stands⟩
  rw [Set.insert_eq, Set.union_comm]
  exact moves.trans moves' (Set.empty_subset _)

end Calling

/-! ## A task that runs alone -/

theorem request_image_of_moved (hμ : Function.Injective μ) {req : Request}
    (h : request D.deferred (s.moved D.place) = req) :
    request D.deferred (D.image μ s) = req.image μ :=
  (request_image hμ D.plainDeferred.not_mentions _).trans (congrArg (Request.image μ) h)

theorem child_ne {n : Nat} (fresh : M.Fresh) (hcell : M q = some (.active s n log)) :
    child q n ≠ q := by
  intro h
  have hnone := fresh.unused hcell
  rw [h, hcell] at hnone
  cases hnone

/-- A task that starts another one. -/
theorem starts_alone (fresh : M.Fresh) (hcell : M q = some (.active (D.image μ s) n log))
    {log' : List (List Value)} {new : Cell} (above : ∀ v, (t.push v).Above D.direct D.height {})
    (hnext : M.next D.deferred q (.active (D.image μ s) n log) =
      some (.active ((D.image μ t).push (.future (child q n))) (n + 1) log',
        some (child q n, new))) : D.Starts μ M q {q} t new := by
  have hne := child_ne fresh hcell
  refine ⟨_, {q}, child q n, fresh.unused hcell, Nat.mul_mod_right 2 _, put_new rfl hne, hne,
    moves_of_next fresh hcell hnext ?_ ?_ ?_, fun μ' x hx agree => ?_⟩
  · exact fun _ _ _ _ => .inr rfl
  · rintro c s n log h
    cases h
    exact .inl rfl
  · rintro x (rfl | rfl)
    · exact .inr ⟨new, rfl⟩
    · exact .inl rfl
  · have himage : (D.image μ t).push (.future (child q n)) = D.image μ' (t.push (.future x)) := by
      rw [image_congr agree, ← hx]
      rfl
    have hown : M.put q (.active ((D.image μ t).push (.future (child q n))) (n + 1) log',
        some (child q n, new)) q =
          some (.active (D.image μ' (t.push (.future x))) (n + 1) log') := by
      rw [put_self, himage]
    exact .alone (above _) hown

/-- A task that starts the task of its call and waits for it. -/
theorem continues_enter (fresh : M.Fresh) (hcell : M q = some (.active s n log))
    (suspends : D.Suspends c) {log' : List (List Value)} (above : t.Above D.direct D.height {})
    (hnext : M.next D.deferred q (.active s n log) =
      some (.active (D.waiting μ c (child q n)) (n + 1) log',
        some (child q n, .active (D.image μ t) 0 []))) : D.Continues μ M q {q} (t.over c) := by
  have hne := child_ne fresh hcell
  refine ⟨_, insert q {child q n}, moves_of_next fresh hcell hnext (fun _ _ _ _ => .inl rfl) ?_ ?_,
    .calling suspends put_self (.alone above (put_new rfl hne)) (Ne.symm hne)⟩
  · rintro c s n log h
    cases h
    exact .inr rfl
  · rintro x (rfl | rfl)
    · exact .inl rfl
    · exact .inr ⟨_, rfl⟩

/-- A task that finds the task of its call settled at once. -/
theorem continues_settle (fresh : M.Fresh) (hcell : M q = some (.active s n log))
    (suspends : D.Suspends c) {log' : List (List Value)}
    (hnext : M.next D.deferred q (.active s n log) =
      some (.active (D.waiting μ c (child q n)) (n + 1) log',
        some (child q n, .settled (v.rename μ)))) (t : Session) :
    D.Continues μ M q {q} (c.resume t v) := by
  have moves : Moves D.deferred {q} {q} M _ :=
    moves_of_next fresh hcell hnext (fun _ _ _ _ => rfl) nofun fun x hx => .inl hx
  have settled : ((M.put q (.active (D.waiting μ c (child q n)) (n + 1) log',
      some (child q n, .settled (v.rename μ)))) (child q n)).bind Cell.answer? =
        some (some (v.rename μ)) := by
    rw [put_new rfl (child_ne fresh hcell)]
    rfl
  obtain ⟨M', moves', stands⟩ := moves_resume (moves.fresh fresh) suspends put_self settled t
  refine ⟨M', {q}, ?_, stands⟩
  have both := moves.trans moves' (Set.Subset.refl _)
  rwa [Set.union_self] at both

/-- A task at an operation that has moved. -/
theorem serves_moved (hμ : Function.Injective μ) (fresh : M.Fresh)
    (above : s.Above D.direct D.height {}) (hcell : M q = some (.active (D.image μ s) n log))
    (hplace : D.place (s.ip + 1) = D.place s.ip + 1)
    (hmoved : request D.deferred (s.moved D.place) = (request D.direct s).moved D.place) :
    D.Serves μ M q {q} (request D.direct s) := by
  have hreq := request_image_of_moved hμ hmoved
  have safe := request_safe D.balanced above
  cases hr : request D.direct s with
  | goOn t prints =>
    rw [hr] at hreq safe
    have hnext : M.next D.deferred q (.active (D.image μ s) n log) =
        some (.active (D.image μ t) n (log ++ prints.map (List.map (Value.rename μ))), none) := by
      simp only [Network.next, hreq]
      rfl
    refine ⟨_, _, moves_of_active fresh hcell hnext, .alone ?_ put_self⟩
    exact safe.resolve_right fun h => by cases h.1
  | halt t v =>
    rw [hr] at hreq
    have hnext : M.next D.deferred q (.active (D.image μ s) n log) =
        some (.halted (v.rename μ) log, none) := by
      simp only [Network.next, hreq]
      rfl
    exact ⟨_, moves_of_ended fresh hcell rfl hnext, by rw [put_self]; rfl⟩
  | fail t e =>
    rw [hr] at hreq
    have hnext : M.next D.deferred q (.active (D.image μ s) n log) = some (.failed log, none) := by
      simp only [Network.next, hreq]
      rfl
    exact ⟨_, moves_of_ended fresh hcell rfl hnext, by rw [put_self]; rfl⟩
  | spawn t ip first =>
    rw [hr] at hreq safe
    obtain ⟨pushed, -, -, hfirst⟩ := safe
    have hrename : first.rename μ = (first.moved D.place).rename μ := by
      simp [Activation.moved, hfirst, Activation.rename]
    have hnext : M.next D.deferred q (.active (D.image μ s) n log) =
        some (.active ((D.image μ t).push (.future (child q n))) (n + 1) log, some (child q n,
          .active (D.image μ { id := 0, ip, activations := [first] }) 0 [])) := by
      simp only [Network.next, hreq, Request.moved, Request.image, hrename]
      rfl
    exact starts_alone fresh hcell pushed hnext
  | settle t v prints =>
    rw [hr] at hreq safe
    have hnext : M.next D.deferred q (.active (D.image μ s) n log) =
        some (.active ((D.image μ t).push (.future (child q n))) (n + 1)
          (log ++ prints.map (List.map (Value.rename μ))),
          some (child q n, .settled (v.rename μ))) := by
      simp only [Network.next, hreq]
      rfl
    exact starts_alone fresh hcell safe hnext
  | await t task rest =>
    obtain ⟨rfl, -⟩ := request_await hr
    rw [hr] at hreq safe
    refine ⟨fun v answer => ?_, fun answer => ?_⟩
    · have hsession : (D.image μ t).advance.withStack (v.rename μ :: rest.map (Value.rename μ)) =
          D.image μ (t.advance.withStack (v :: rest)) := by
        rw [image, image, ← Session.moved_advance hplace]
        rfl
      have hnext : M.next D.deferred q (.active (D.image μ t) n log) =
          some (.active (D.image μ (t.advance.withStack (v :: rest))) n log, none) := by
        rw [← hsession]
        simp only [Network.next, hreq, Request.moved, Request.image, answer]
        rfl
      exact ⟨_, _, moves_of_active fresh hcell hnext, .alone (safe v) put_self⟩
    · have hnext : M.next D.deferred q (.active (D.image μ t) n log) =
          some (.failed log, none) := by
        simp only [Network.next, hreq, Request.moved, Request.image, answer]
      exact ⟨_, moves_of_ended fresh hcell rfl hnext, by rw [put_self]; rfl⟩

/-- A task at a call that has become a task. -/
theorem serves_deferred (hμ : Function.Injective μ) (fresh : M.Fresh)
    (above : s.Above D.direct D.height {}) (hcell : M q = some (.active (D.image μ s) n log))
    {i : Instruction} (hi : D.direct.instruction? s.ip = some i) {count : Int}
    {keywords : List Value} (hop : i.op = .call count keywords) {j k : Instruction}
    (hj : D.deferred.instruction? (D.place s.ip) = some j)
    (hcall : j.op = .asyncCall count keywords)
    (hk : D.deferred.instruction? (D.place s.ip + 1) = some k) (hwait : k.op = .wait)
    (hplace : D.place (s.ip + 1) = D.place s.ip + 2) :
    D.Serves μ M q {q} (request D.direct s) := by
  have fits := D.balanced.fits hi
  rw [hop] at fits
  obtain ⟨-, call, htake, -, -, hstack⟩ := above.operands fits (.inl rfl)
  have suspends : D.Suspends ⟨s.ip, call.stack, s.activations⟩ :=
    ⟨above.accounted fits hstack, ⟨k, hk, hwait⟩, hplace⟩
  have hdirect : request D.direct s = Request.ofCall D.direct s call keywords := by
    simp only [request, hi, hop, Request.ofOp, htake]
  have hdeferred : request D.deferred (s.moved D.place) =
      Request.ofAsyncCall D.deferred (s.moved D.place) call keywords := by
    have ip : (s.moved D.place).ip = D.place s.ip := rfl
    have stack : (s.moved D.place).stack = s.stack := rfl
    simp only [request, ip, hj, hcall, Request.ofOp, stack, htake]
  rw [hdirect]
  rcases Request.deferred_cases D.expands s (s.moved D.place) call keywords with
    ⟨e, hr, hr'⟩ | ⟨name, info, bindings, hinfo, hr, hr'⟩ | ⟨v, prints, hr, hr'⟩ <;>
    rw [hr] <;> have hreq := request_image_of_moved hμ (hdeferred.trans hr')
  · have hnext : M.next D.deferred q (.active (D.image μ s) n log) = some (.failed log, none) := by
      simp only [Network.next, hreq]
      rfl
    exact ⟨_, moves_of_ended fresh hcell rfl hnext, by rw [put_self]; rfl⟩
  · have hnext : M.next D.deferred q (.active (D.image μ s) n log) =
        some (.active (D.waiting μ ⟨s.ip, call.stack, s.activations⟩ (child q n)) (n + 1) log,
          some (child q n, .active (D.image μ { s with
            ip := info.location, stack := []
            activations := [{ function := name, bindings }] }) 0 [])) := by
      simp only [Network.next, hreq]
      rfl
    obtain ⟨hlt, hheight⟩ := D.balanced.entry hinfo
    exact continues_enter fresh hcell suspends (.entered hlt hheight rfl rfl rfl rfl) hnext
  · have hnext : M.next D.deferred q (.active (D.image μ s) n log) =
        some (.active (D.waiting μ ⟨s.ip, call.stack, s.activations⟩ (child q n)) (n + 1)
          (log ++ prints.map (List.map (Value.rename μ))),
          some (child q n, .settled (v.rename μ))) := by
      simp only [Network.next, hreq]
      rfl
    exact continues_settle fresh hcell suspends hnext s

/-! ## A chain -/

/-- A chain does what its session asks for. -/
theorem Stands.serves (hμ : Function.Injective μ) (fresh : M.Fresh) (h : D.Stands μ M q s ts) :
    D.Serves μ M q ts (request D.direct s) := by
  induction h with
  | alone above hcell =>
    obtain ⟨i, hi⟩ : ∃ i, D.direct.instruction? _ = some i := ⟨_, List.getElem?_eq_getElem above.1⟩
    have copied := D.expands.copied hi
    generalize hop : i.op = op at copied
    cases copied with
    | plain offset hj hjop hplace hjump =>
      subst hop
      exact serves_moved hμ fresh above hcell hplace
        (request_moved D.expands D.balanced above hi hj hjop hplace hjump)
    | deferred hj hcall hk hwait hplace =>
      exact serves_deferred hμ fresh above hcell hi hop hj hcall hk hwait hplace
  | @calling q r s c ts n log suspends hcell callee apart ih =>
    rw [request_over D.balanced callee.above]
    cases hr : request D.direct s with
    | goOn t prints =>
      rw [hr] at ih
      exact Continues.over suspends hcell apart ih
    | halt t v =>
      rw [hr] at ih
      exact Ends.returns suspends hcell apart fresh ih t
    | fail t e =>
      rw [hr] at ih
      exact Ends.fails suspends hcell apart fresh ih
    | spawn t ip first =>
      rw [hr] at ih
      exact Starts.over suspends hcell apart ih
    | settle t v prints =>
      rw [hr] at ih
      exact Starts.over suspends hcell apart ih
    | await t task rest =>
      rw [hr] at ih
      exact ⟨fun v answer => Continues.over suspends hcell apart (ih.1 v answer),
        fun answer => Ends.fails suspends hcell apart fresh (ih.2 answer)⟩

end Deferral

end Teal
