import Teal.Proofs.Chains

/-!
# Networks with calls as tasks

The network of a program with some calls as tasks mirrors the network of the program itself: each
task that runs has a chain of tasks that stands for it, each task that has ended has one that ended
alike, and no other task runs. A step of the one is one step or more of the other, so a complete
run is mirrored by a complete run.

## Main definitions

* `Deferral.Mirrored`, `Deferral.Mirrors`: a task and a network that are mirrored.

## Main statements

* `Deferral.Mirrors.fire`, `Deferral.Mirrors.runs`: a step and a run, mirrored.
* `Deferral.Mirrors.idle`: where all tasks have ended, their mirrors have.
-/

namespace Teal

open Network (Changes Runs)

def Cell.Holds (u : TaskId) : Cell → Prop
  | .active s _ _ => s.Holds (.future u)
  | .halted v _ | .settled v => (Value.future u).Part v
  | .failed _ => False

theorem Cell.answer_rename_congr {c : Cell} {a : Option Value} (h : c.answer? = some a)
    {μ μ' : TaskId → TaskId} (agree : ∀ u, c.Holds u → μ u = μ' u) :
    a.map (Value.rename μ) = a.map (Value.rename μ') := by
  cases c with
  | active => cases h
  | failed => cases h; rfl
  | halted v | settled v =>
    cases h
    exact congrArg some (Value.rename_congr agree)

theorem Cell.holds_of_answer {c : Cell} {v : Value} {u : TaskId} (h : c.answer? = some (some v))
    (hu : (Value.future u).Part v) : c.Holds u := by
  cases c with
  | active | failed => cases h
  | halted | settled =>
    cases h
    exact hu

namespace Network

theorem put_none (N : Network) (p : TaskId) (c : Cell) :
    N.put p (c, none) = Function.update N p (some c) := by
  funext q
  simp [put, Function.update_apply]

theorem put_some (N : Network) (p x : TaskId) (c new : Cell) :
    N.put p (c, some (x, new)) =
      Function.update (Function.update N x (some new)) p (some c) := by
  funext q
  simp [put, Function.update_apply]

/-- Changes with which a new task comes, seen after that task has come. -/
theorem Changes.after_add {X Y : Set TaskId} {M M' : Network} {r : TaskId} {new : Cell}
    (h : Changes X (insert r Y) M M') (hr : M r = none) (hnew : M' r = some new) (hX : r ∉ X)
    (hY : r ∉ Y) : Changes X Y (Function.update M r (some new)) M' := by
  refine ⟨fun {x c} hx hxX => ?_, fun {x s n log} hx => ?_, fun {x} hx => ?_⟩
  · by_cases e : x = r
    · rw [e, Function.update_self] at hx
      rw [e, hnew, hx]
    · rw [Function.update_of_ne e] at hx
      exact h.keeps hx hxX
  · by_cases e : x = r
    · rw [e, hnew] at hx
      rw [e, Function.update_self]
      exact .inr ⟨hX, hx⟩
    · rw [Function.update_of_ne e]
      exact (h.active hx).imp_left fun hmem => hmem.resolve_left e
  · have e : x ≠ r := by
      rintro rfl
      exact hY hx
    rw [Function.update_of_ne e]
    exact h.known (.inr hx)

end Network

namespace Deferral

/-- A task, and how the tasks `ts` and the task `q` of another network mirror it. -/
inductive Mirrored (D : Deferral) (μ : TaskId → TaskId) (M : Network) (q : TaskId) :
    (ts : Set TaskId) → Cell → Prop
  | active {s : Session} {n : Nat} {log : List (List Value)} {ts : Set TaskId}
      (stands : D.Stands μ M q s ts) : Mirrored D μ M q ts (.active s n log)
  | ended {c : Cell} {a : Option Value} (ha : c.answer? = some a)
      (answer : (M q).bind Cell.answer? = some (a.map (Value.rename μ))) : Mirrored D μ M q ∅ c

/-- A network is mirrored by another one: `μ` gives the names of its tasks and `chain` the tasks
that stand for each of them. -/
structure Mirrors (D : Deferral) (μ : TaskId → TaskId) (chain : TaskId → Set TaskId)
    (N M : Network) : Prop where
  injective : Function.Injective μ
  root : μ 0 = 0
  unknown {p : TaskId} : N p = none → μ p % 2 = 1
  cells {p : TaskId} {c : Cell} : N p = some c → D.Mirrored μ M (μ p) (chain p) c
  apart {p q x : TaskId} {c d : Cell} : N p = some c → N q = some d → x ∈ chain p → x ∈ chain q →
    p = q
  covers {x : TaskId} {s : Session} {n : Nat} {log : List (List Value)} :
    M x = some (.active s n log) → ∃ p c, N p = some c ∧ x ∈ chain p
  known {p u : TaskId} {c : Cell} : N p = some c → c.Holds u → ∃ d, N u = some d

variable {D : Deferral} {μ μ' : TaskId → TaskId} {chain : TaskId → Set TaskId}
  {N N' M M' T : Network} {p q r x : TaskId} {s t : Session} {n : Nat} {log : List (List Value)}
  {ts : Set TaskId} {c : Cell}

theorem Mirrored.frame (h : D.Mirrored μ M q ts c)
    (keeps : ∀ x ∈ ts, ∀ d, M x = some d → M' x = some d)
    (ended : ∀ d, M q = some d → d.answer?.isSome → M' q = some d)
    (agree : ∀ u, c.Holds u → μ u = μ' u) : D.Mirrored μ' M' q ts c := by
  cases h with
  | active stands => exact .active ((stands.frame keeps).congr agree)
  | ended ha answer =>
    obtain ⟨d, hd, hanswer⟩ := Option.bind_eq_some_iff.mp answer
    refine .ended ha ?_
    rw [ended d hd (by simp [hanswer]), Option.bind_some, hanswer,
      Cell.answer_rename_congr ha agree]

/-- The tasks of a chain can go on. -/
theorem Mirrored.active_of_mem (h : D.Mirrored μ M q ts c) (hx : x ∈ ts) :
    ∃ s n log, M x = some (.active s n log) := by
  cases h with
  | active stands => exact stands.active hx
  | ended => cases hx

theorem Mirrored.exists_cell (h : D.Mirrored μ M q ts c) : ∃ d, M q = some d := by
  cases h with
  | active stands =>
    obtain ⟨s, n, log, hcell⟩ := stands.active stands.mem
    exact ⟨_, hcell⟩
  | ended _ answer =>
    obtain ⟨d, hd, -⟩ := Option.bind_eq_some_iff.mp answer
    exact ⟨d, hd⟩

namespace Mirrors

theorem stands (h : D.Mirrors μ chain N M) (hp : N p = some (.active s n log)) :
    D.Stands μ M (μ p) s (chain p) := by
  have cell := h.cells hp
  generalize chain p = ts at cell
  cases cell with
  | active stands => exact stands
  | ended ha => cases ha

theorem answer (h : D.Mirrors μ chain N M) {a : Option Value}
    (ha : (N p).bind Cell.answer? = some a) :
    (M (μ p)).bind Cell.answer? = some (a.map (Value.rename μ)) := by
  obtain ⟨c, hp, hc⟩ := Option.bind_eq_some_iff.mp ha
  have cell := h.cells hp
  generalize chain p = ts at cell
  cases cell with
  | active => cases hc
  | ended ha answer =>
    obtain rfl := Option.some.inj (ha.symm.trans hc)
    exact answer

/-- Chains stay apart when one of them changes and meets no other. -/
theorem apart_update (h : D.Mirrors μ chain N M)
    (other : ∀ {q y d}, N q = some d → q ≠ p → y ∈ chain q → y ∉ ts) {q q' y : TaskId}
    {d d' : Cell} (hq : Function.update N p (some c) q = some d)
    (hq' : Function.update N p (some c) q' = some d') (hy : y ∈ Function.update chain p ts q)
    (hy' : y ∈ Function.update chain p ts q') : q = q' := by
  by_cases e : q = p <;> by_cases e' : q' = p
  · rw [e, e']
  · rw [Function.update_of_ne e'] at hq' hy'
    rw [e, Function.update_self] at hy
    exact absurd hy (other hq' e' hy')
  · rw [Function.update_of_ne e] at hq hy
    rw [e', Function.update_self] at hy'
    exact absurd hy' (other hq e hy)
  · rw [Function.update_of_ne e] at hq hy
    rw [Function.update_of_ne e'] at hq' hy'
    exact h.apart hq hq' hy hy'

/-- Cells hold futures of known tasks still when one of them is written. -/
theorem known_update (h : D.Mirrors μ chain N M) (known : ∀ u, c.Holds u → ∃ d, N u = some d)
    {q u : TaskId} {d : Cell} (hq : Function.update N p (some c) q = some d) (hu : d.Holds u) :
    ∃ d, Function.update N p (some c) u = some d := by
  have hknown : ∃ d, N u = some d := by
    by_cases e : q = p
    · rw [e, Function.update_self] at hq
      exact known u (Option.some.inj hq ▸ hu)
    · rw [Function.update_of_ne e] at hq
      exact h.known hq hu
  by_cases e : u = p
  · exact ⟨c, by rw [e, Function.update_self]⟩
  · rwa [Function.update_of_ne e]

/-- The cell of a task that makes a step is written. -/
theorem replace (h : D.Mirrors μ chain N M) (hp : N p = some (.active s n log))
    (changes : Changes (chain p) ts M M') (cell : D.Mirrored μ M' (μ p) ts c)
    (known : ∀ u, c.Holds u → ∃ d, N u = some d) :
    D.Mirrors μ (Function.update chain p ts) (Function.update N p (some c)) M' := by
  -- the tasks of the other chains are there, and none of them is changed
  have other {q : TaskId} {d : Cell} (hq : N q = some d) (hne : q ≠ p) {x : TaskId}
      (hx : x ∈ chain q) : x ∉ chain p ∧ x ∉ ts := by
    have hchain : x ∉ chain p := fun hx' => hne (h.apart hq hp hx hx')
    refine ⟨hchain, fun hts => ?_⟩
    obtain ⟨s, n, log, hactive⟩ := (h.cells hq).active_of_mem hx
    rcases changes.known hts with hx' | hnone
    · exact hchain hx'
    · simp [hactive] at hnone
  have hroot (q : TaskId) (hq : Function.update N p (some c) q = none) : N q = none := by
    rw [Function.update_apply] at hq
    split at hq
    · cases hq
    · exact hq
  refine ⟨h.injective, h.root, fun hq => h.unknown (hroot _ hq), fun {q d} hq => ?_,
    h.apart_update fun hq hne hx => (other hq hne hx).2, fun {x s n log} hx => ?_,
    h.known_update known⟩
  · by_cases e : q = p
    · subst e
      rw [Function.update_self] at hq ⊢
      exact Option.some.inj hq ▸ cell
    · rw [Function.update_of_ne e] at hq ⊢
      refine (h.cells hq).frame (fun x hx d hd => changes.keeps hd (other hq e hx).1)
        (fun d hd ha => changes.keeps hd fun hx => ?_) fun _ _ => rfl
      obtain ⟨s, n, log, hactive⟩ := (h.cells hp).active_of_mem hx
      obtain rfl := Option.some.inj (hd.symm.trans hactive)
      cases ha
  · rcases changes.active hx with hts | ⟨hchain, hx⟩
    · exact ⟨p, c, Function.update_self .., by rwa [Function.update_self]⟩
    · obtain ⟨q, d, hq, hmem⟩ := h.covers hx
      have e : q ≠ p := by
        rintro rfl
        exact hchain hmem
      exact ⟨q, d, by rwa [Function.update_of_ne e], by rwa [Function.update_of_ne e]⟩

/-- A new task, and a mirror of its own. -/
theorem add (h : D.Mirrors μ chain N M) (hx : N x = none) (hx0 : x ≠ 0) (hr : M r = none)
    (heven : r % 2 = 0) {new : Cell}
    (cell : D.Mirrored (Function.update μ x r) (Function.update M r (some new)) r ts c)
    (sub : ts ⊆ {r}) (active : ∀ s n log, new = .active s n log → r ∈ ts)
    (known : ∀ u, c.Holds u → ∃ d, N u = some d) :
    D.Mirrors (Function.update μ x r) (Function.update chain x ts) (Function.update N x (some c))
      (Function.update M r (some new)) := by
  have ne_new {q : TaskId} {d : Cell} (hq : N q = some d) : q ≠ x := by
    rintro rfl
    simp [hx] at hq
  have ne_task {y : TaskId} {d : Cell} (hy : M y = some d) : y ≠ r := by
    rintro rfl
    simp [hr] at hy
  have agree {u : TaskId} (hu : ∃ d, N u = some d) : μ u = Function.update μ x r u := by
    obtain ⟨d, hd⟩ := hu
    rw [Function.update_of_ne (ne_new hd)]
  -- no task has the new name
  have unnamed (q : TaskId) : μ q ≠ r := by
    rintro rfl
    cases hq : N q with
    | none =>
      have hodd := h.unknown hq
      rw [heven] at hodd
      cases hodd
    | some d =>
      obtain ⟨d', hd'⟩ := (h.cells hq).exists_cell
      simp [hr] at hd'
  have other {q y : TaskId} {d : Cell} (hq : N q = some d) (hy : y ∈ chain q) : y ∉ ts := by
    intro hts
    obtain ⟨s, n, log, hactive⟩ := (h.cells hq).active_of_mem hy
    exact ne_task hactive (sub hts)
  refine ⟨injective_update h.injective unnamed x, ?_, fun {q} hq => ?_, fun {q d} hq => ?_,
    h.apart_update fun hq _ hy => other hq hy, fun {y s n log} hy => ?_, h.known_update known⟩
  · rw [Function.update_of_ne (Ne.symm hx0), h.root]
  · have e : q ≠ x := by
      rintro rfl
      simp at hq
    rw [Function.update_of_ne e] at hq ⊢
    exact h.unknown hq
  · by_cases e : q = x
    · subst e
      rw [Function.update_self] at hq ⊢
      rw [Function.update_self]
      exact Option.some.inj hq ▸ cell
    · rw [Function.update_of_ne e] at hq
      rw [Function.update_of_ne e, Function.update_of_ne e]
      refine (h.cells hq).frame (fun y _ d hd => ?_) (fun d hd _ => ?_)
        fun u hu => agree (h.known hq hu)
      · rwa [Function.update_of_ne (ne_task hd)]
      · rwa [Function.update_of_ne (ne_task hd)]
  · by_cases e : y = r
    · subst e
      rw [Function.update_self] at hy
      exact ⟨x, c, Function.update_self .., by
        rw [Function.update_self]
        exact active s n log (Option.some.inj hy)⟩
    · rw [Function.update_of_ne e] at hy
      obtain ⟨q, d, hq, hmem⟩ := h.covers hy
      exact ⟨q, d, by rwa [Function.update_of_ne (ne_new hq)],
        by rwa [Function.update_of_ne (ne_new hq)]⟩

/-- A task goes on. -/
theorem continues (h : D.Mirrors μ chain N M) (hp : N p = some (.active s n log))
    (serves : D.Continues μ M (μ p) (chain p) t)
    (known : ∀ u, t.Holds (.future u) → ∃ d, N u = some d) (m : Nat)
    (log' : List (List Value)) :
    ∃ k μ' chain' M', Runs D.deferred (k + 1) M M' ∧
      D.Mirrors μ' chain' (N.put p (.active t m log', none)) M' := by
  obtain ⟨M', ts, moves, stands⟩ := serves
  obtain ⟨k, hruns⟩ := moves.runs
  rw [Network.put_none]
  exact ⟨k, μ, _, M', hruns, h.replace hp moves.toChanges (.active stands) known⟩

/-- A task ends. -/
theorem ends (h : D.Mirrors μ chain N M) (hp : N p = some (.active s n log)) {a : Option Value}
    (ha : c.answer? = some a) (serves : D.Ends M (μ p) (chain p) (a.map (Value.rename μ)))
    (known : ∀ u, c.Holds u → ∃ d, N u = some d) :
    ∃ k μ' chain' M', Runs D.deferred (k + 1) M M' ∧
      D.Mirrors μ' chain' (N.put p (c, none)) M' := by
  obtain ⟨M', moves, answer⟩ := serves
  obtain ⟨k, hruns⟩ := moves.runs
  rw [Network.put_none]
  exact ⟨k, μ, _, M', hruns, h.replace hp moves.toChanges (.ended ha answer) known⟩

/-- A task starts another one. -/
theorem starts (h : D.Mirrors μ chain N M) (fresh : N.Fresh) (hp : N p = some (.active s n log))
    {new : Cell} (serves : D.Starts μ M (μ p) (chain p) t new)
    (cell : ∀ r, ∃ ts, D.Mirrored (Function.update μ (Network.child p n) r)
      (Function.update M r (some new)) r ts c ∧ ts ⊆ {r} ∧
      ∀ s n log, new = .active s n log → r ∈ ts)
    (known : ∀ u, t.Holds (.future u) ∨ c.Holds u → ∃ d, N u = some d) (m : Nat)
    (log' : List (List Value)) :
    ∃ k μ' chain' M', Runs D.deferred (k + 1) M M' ∧ D.Mirrors μ' chain'
      (N.put p (.active (t.push (.future (Network.child p n))) m log',
        some (Network.child p n, c))) M' := by
  obtain ⟨M', ts', r, hr, heven, hnew, hr', moves, stands⟩ := serves
  obtain ⟨k, hruns⟩ := moves.runs
  obtain ⟨ts, mirrored, sub, active⟩ := cell r
  have hx := fresh.unused hp
  have hne : p ≠ Network.child p n := Ne.symm (child_ne fresh hp)
  have added := h.add hx (Nat.succ_ne_zero _) hr heven mirrored sub active
    fun u hu => known u (.inr hu)
  have hchain : r ∉ chain p := by
    intro hmem
    obtain ⟨s, n, log, hactive⟩ := (h.cells hp).active_of_mem hmem
    simp [hr] at hactive
  have hp' : Function.update N (Network.child p n) (some c) p = some (.active s n log) := by
    rwa [Function.update_of_ne hne]
  have changes : Changes (Function.update chain (Network.child p n) ts p) ts'
      (Function.update M r (some new)) M' := by
    rw [Function.update_of_ne hne]
    exact moves.toChanges.after_add hr hnew hchain hr'
  have own : D.Mirrored (Function.update μ (Network.child p n) r) M'
      (Function.update μ (Network.child p n) r p) ts'
      (.active (t.push (.future (Network.child p n))) m log') := by
    have hstands := stands (Function.update μ (Network.child p n) r) (Network.child p n)
      (Function.update_self ..) fun u hu => ?_
    · rw [Function.update_of_ne hne]
      exact .active hstands
    · obtain ⟨d, hd⟩ := known u (.inl hu)
      rw [Function.update_of_ne]
      rintro rfl
      simp [hx] at hd
  rw [Network.put_some]
  refine ⟨k, _, _, M', hruns, added.replace hp' changes own fun u hu => ?_⟩
  rcases Session.holds_push hu with hu | hu
  · obtain ⟨d, hd⟩ := known u (.inl hu)
    refine ⟨d, ?_⟩
    rw [Function.update_of_ne, hd]
    rintro rfl
    simp [hx] at hd
  · obtain rfl : u = Network.child p n := by simpa using hu
    exact ⟨c, Function.update_self ..⟩

/-- A step of a task is mirrored by one step or more. -/
theorem fire (h : D.Mirrors μ chain N M) (fresh : N.Fresh) (fresh' : M.Fresh)
    (hfire : N.fire D.direct p = some N') :
    ∃ k μ' chain' M', Runs D.deferred (k + 1) M M' ∧ D.Mirrors μ' chain' N' M' := by
  obtain ⟨cell, res, hp, hnext, rfl⟩ := Network.fire_eq_some hfire
  obtain ⟨s, n, log, rfl, -⟩ := Network.next_eq_some hnext
  have stands := h.stands hp
  have serves := stands.serves h.injective fresh'
  have safe := request_safe D.balanced stands.above
  have held {u : TaskId} (hu : (request D.direct s).Holds (.future u)) : ∃ d, N u = some d :=
    h.known hp (Session.holds_of_request D.plain hu)
  -- the new name of a task is that of no task which is known
  have agree {u : TaskId} (hu : ∃ d, N u = some d) (r : TaskId) :
      μ u = Function.update μ (Network.child p n) r u := by
    obtain ⟨d, hd⟩ := hu
    rw [Function.update_of_ne]
    rintro rfl
    simp [fresh.unused hp] at hd
  simp only [Network.next] at hnext
  split at hnext
  · next t prints hreq =>
    rw [hreq] at serves held
    cases hnext
    exact h.continues hp serves (fun u hu => held (.inl hu)) _ _
  · next t v hreq =>
    rw [hreq] at serves held
    cases hnext
    exact h.ends hp (a := some v) rfl serves fun u hu => held (.inr (.inr hu))
  · next t e hreq =>
    rw [hreq] at serves
    cases hnext
    exact h.ends hp (a := none) rfl serves fun _ hu => by cases hu
  · next t ip first hreq =>
    rw [hreq] at serves held safe
    cases hnext
    obtain ⟨-, hlt, hheight, hfirst⟩ := safe
    have bound {u : TaskId} (hu : Session.Holds { id := 0, ip, activations := [first] }
        (.future u)) : (Value.future u).Bound first.bindings := by
      simpa [Session.Holds] using hu
    refine h.starts fresh hp serves (fun r => ⟨{r}, ?_, subset_rfl, fun _ _ _ _ => rfl⟩)
      (fun u hu => ?_) _ _
    · rw [image_congr fun u hu => agree (held (.inr (.inr (bound hu)))) r]
      exact .active (.alone (.entered hlt hheight hfirst rfl rfl rfl) (Function.update_self ..))
    · exact hu.elim (fun hu => held (.inl hu)) fun hu => held (.inr (.inr (bound hu)))
  · next t v prints hreq =>
    rw [hreq] at serves held
    cases hnext
    refine h.starts fresh hp serves (fun r => ⟨∅, .ended (a := some v) rfl ?_,
      Set.empty_subset _, fun _ _ _ hactive => by cases hactive⟩) (fun u hu => ?_) _ _
    · rw [Function.update_self, Option.map_some,
        ← Value.rename_congr fun u hu => agree (held (.inr (.inr hu))) r]
      rfl
    · exact hu.elim (fun hu => held (.inl hu)) fun hu => held (.inr (.inr hu))
  · next t task rest hreq =>
    obtain ⟨rfl, hstack⟩ := request_await hreq
    rw [hreq] at serves
    split at hnext
    · cases hnext
    · next v ha =>
      cases hnext
      refine h.continues hp (serves.1 v (h.answer ha)) (fun u hu => ?_) _ _
      obtain ⟨c, hc, hanswer⟩ := Option.bind_eq_some_iff.mp ha
      rcases Session.holds_push (t := t.advance.withStack rest) hu with hu | hu
      · exact h.known hp (Session.holds_of_rest hreq hu)
      · exact h.known hc (Cell.holds_of_answer hanswer hu)
    · next ha =>
      cases hnext
      exact h.ends hp (a := none) rfl (serves.2 (h.answer ha)) fun _ hu => by cases hu

/-- A run is mirrored by a run that is not shorter. -/
theorem runs {k : Nat} (h : D.Mirrors μ chain N M) (fresh : N.Fresh) (fresh' : M.Fresh)
    (hruns : Runs D.direct k N T) :
    ∃ k' μ' chain' M', k ≤ k' ∧ Runs D.deferred k' M M' ∧ D.Mirrors μ' chain' T M' := by
  induction hruns generalizing μ chain M with
  | refl N => exact ⟨0, μ, chain, M, Nat.le_refl 0, .refl M, h⟩
  | head hfire _ ih =>
    obtain ⟨k₁, μ₁, chain₁, M₁, hruns₁, h₁⟩ := h.fire fresh fresh' hfire
    obtain ⟨k₂, μ₂, chain₂, M₂, hle, hruns₂, h₂⟩ :=
      ih h₁ (fresh.fire hfire) (fresh'.runs hruns₁)
    exact ⟨k₁ + 1 + k₂, μ₂, chain₂, M₂, by omega, hruns₁.trans hruns₂, h₂⟩

/-- Where no task runs any more, no mirror does. -/
theorem idle (h : D.Mirrors μ chain N M)
    (ended : ∀ p s n log, N p ≠ some (.active s n log)) : M.Idle D.deferred := by
  intro x
  rw [Option.eq_none_iff_forall_ne_some]
  intro M' hfire
  obtain ⟨cell, res, hx, hnext, -⟩ := Network.fire_eq_some hfire
  obtain ⟨s, n, log, rfl, -⟩ := Network.next_eq_some hnext
  obtain ⟨p, c, hp, hmem⟩ := h.covers hx
  have cell := h.cells hp
  generalize chain p = ts at cell hmem
  cases cell with
  | active => exact ended p _ _ _ hp
  | ended => cases hmem

end Mirrors

end Deferral

end Teal
