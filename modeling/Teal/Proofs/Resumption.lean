import Mathlib.Algebra.Ring.Nat
import Teal.Invocation
import Teal.Proofs.Upkeep
import Teal.Proofs.History

/-!
# Runs that are saved and resumed

A run that is cut into pieces, each of them loaded from a store and saved to it again, leaves the
world that the run has in memory. For that, every world of the run must have a document from which
it is read back, and the rest of a scheduler must not count: what it has recorded since it was
made.

## Main definitions

* `Scheduler.Alike`: schedulers that differ only in their records.
* `Invocation.resumes`: a run in pieces.

## Main statements

* `Invocation.resume_of_saved`: one piece.
* `Invocation.resumes_eq_resume`: any pieces.
-/

namespace Teal

namespace Scheduler

variable {c d : Scheduler}

/-! ## What a scheduler records -/

/-- Schedulers that differ only in what they have recorded. -/
structure Alike (c d : Scheduler) : Prop where
  executable : c.executable = d.executable
  settings : c.settings = d.settings
  world : c.world = d.world

theorem Alike.conclude (h : Alike c d) (id : TaskId) (o : Outcome) :
    Alike (c.conclude id o) (d.conclude id o) := by
  obtain ⟨hexe, hsettings, hworld⟩ := h
  cases o <;> simp [Scheduler.conclude, hexe, hsettings, hworld] <;> constructor <;> rfl

/-- Records have no influence on a run. -/
theorem Alike.run (h : Alike c d) (n : Nat) : Alike (c.run n) (d.run n) := by
  induction n generalizing c d with
  | zero => exact h
  | succ n ih =>
    obtain ⟨exe, settings, w, _, _, _⟩ := c
    obtain ⟨_, _, _, _, _, _⟩ := d
    obtain ⟨rfl, rfl, rfl⟩ := h
    simp only [Scheduler.run, quantum]
    cases w.queue with
    | nil => exact ⟨rfl, rfl, rfl⟩
    | cons id queue =>
      refine ih (Alike.conclude ?_ id _)
      exact ⟨rfl, rfl, rfl⟩

/-- A run of at most `n` quanta makes `n` of them, or as many as it takes to empty the queue. -/
theorem exists_run_eq (c : Scheduler) (n : Nat) :
    ∃ k ≤ n, c.run n = c.run k ∧ (∀ m < k, (c.run m).world.queue ≠ []) ∧
      (k < n → (c.run k).world.queue = []) := by
  induction n with
  | zero => exact ⟨0, Nat.le_refl _, rfl, by omega, by omega⟩
  | succ n ih =>
    obtain ⟨k, hk, hrun, hbusy, hidle⟩ := ih
    by_cases hqueue : (c.run n).world.queue = []
    · refine ⟨k, by omega, ?_, hbusy, fun _ => hrun ▸ hqueue⟩
      rw [run_add, ← hrun]
      exact run_of_stuck (by simp [quantum, hqueue]) 1
    · obtain rfl : k = n := by
        by_contra hne
        exact hqueue (hrun ▸ hidle (by omega))
      refine ⟨k + 1, Nat.le_refl _, rfl, fun m hm => ?_, by omega⟩
      rcases Nat.lt_succ_iff_lt_or_eq.mp hm with hm | rfl
      · exact hbusy m hm
      · exact hqueue

end Scheduler

/-! ## Pieces of a run -/

namespace Invocation

variable {σ : Type} [Store σ] {inv : Invocation} {store : σ} {id : String} {w : World}
  {c : Scheduler}

def Saved (store : σ) (id : String) (w : World) : Prop :=
  ∃ j, w.toJson = .ok j ∧ Store.load store id = .ok j

/-- A world can be saved and is read back. -/
def Durable (σ : Type) [Store σ] (id : String) (w : World) : Prop :=
  ∃ j, w.toJson = .ok j ∧ World.ofJson? j = some w ∧ Store.Keeps σ id j

theorem checkpoint_of_durable (h : Durable σ id w) (store : σ) :
    ∃ store', checkpoint store id w = .ok store' ∧ Saved store' id w := by
  obtain ⟨j, hj, -, keeps⟩ := h
  obtain ⟨store', hsave, hload⟩ := keeps store
  exact ⟨store', by simp [checkpoint, hj, hsave, Except.mapError], j, hj, hload⟩

theorem restore_of_saved (h : Durable σ id w) (saved : Saved store id w) :
    restore store id = .ok w := by
  obtain ⟨j, hj, hread, -⟩ := h
  obtain ⟨j', hj', hload⟩ := saved
  obtain rfl : j = j' := by simpa [hj] using hj'
  simp [restore, hload, hread]

/-- Where a program stands depends on its world only. -/
theorem statusOf_alike {d : Scheduler} (h : Scheduler.Alike c d) : statusOf c = statusOf d := by
  simp [statusOf, Scheduler.progress, Scheduler.topSession?, Scheduler.waiting, Scheduler.output,
    h.world]

/-- A world that is loaded again goes on with the run from which it was saved. -/
theorem advance_of_restore {n : Nat} (hexe : (c.run n).executable = inv.executable)
    (hsettings : (c.run n).settings = inv.settings)
    (hrestore : restore store id = .ok (c.run n).world) (q : Nat) :
    ∃ d, inv.advance store id q = .ok d ∧ Scheduler.Alike d (c.run (n + q)) := by
  let loaded : Scheduler :=
    { executable := inv.executable, settings := inv.settings, world := (c.run n).world }
  have same : Scheduler.Alike loaded (c.run n) := ⟨hexe.symm, hsettings.symm, rfl⟩
  refine ⟨loaded.run q, ?_, ?_⟩
  · simp [advance, hrestore, bind, Except.bind, loaded]
  · rw [Scheduler.run_add]
    exact same.run q

/-- Resuming a saved world goes on with the run from which it was saved. -/
theorem resume_of_saved {n q : Nat} (hexe : (c.run n).executable = inv.executable)
    (hsettings : (c.run n).settings = inv.settings) (saved : Saved store id (c.run n).world)
    (before : Durable σ id (c.run n).world) (after : Durable σ id (c.run (n + q)).world) :
    (inv.resume store id q).1 = statusOf (c.run (n + q)) ∧
      Saved (inv.resume store id q).2 id (c.run (n + q)).world := by
  obtain ⟨d, hadvance, alike⟩ :=
    advance_of_restore hexe hsettings (restore_of_saved before saved) q
  obtain ⟨store', hcheckpoint, saved'⟩ := checkpoint_of_durable after store
  rw [← alike.world] at hcheckpoint
  simp [resume, hadvance, hcheckpoint, statusOf_alike alike, saved']

def resumes (inv : Invocation) (store : σ) (id : String) :
    List Nat → List (Except InvocationError Standing) × σ
  | [] => ([], store)
  | q :: qs =>
    let (result, store) := inv.resume store id q
    let (results, store) := resumes inv store id qs
    (result :: results, store)

/-- Resuming a saved world several times goes on with the run as well. -/
theorem resumes_of_saved (qs : List Nat) {n : Nat}
    (hexe : ∀ k, (c.run k).executable = inv.executable)
    (hsettings : ∀ k, (c.run k).settings = inv.settings) (saved : Saved store id (c.run n).world)
    (durable : ∀ k ≤ n + qs.sum, Durable σ id (c.run k).world) :
    (∀ r ∈ (inv.resumes store id qs).1.getLast?, r = statusOf (c.run (n + qs.sum))) ∧
      Saved (inv.resumes store id qs).2 id (c.run (n + qs.sum)).world := by
  induction qs generalizing n store with
  | nil => exact ⟨by simp [resumes], saved⟩
  | cons q qs ih =>
    simp only [List.sum_cons] at durable ⊢
    obtain ⟨hresult, saved'⟩ := resume_of_saved (hexe n) (hsettings n) saved
      (durable n (by omega)) (durable (n + q) (by omega))
    obtain ⟨hlast, hsaved⟩ := ih saved' fun k hk => durable k (by omega)
    rw [Nat.add_assoc] at hlast hsaved
    refine ⟨fun r hr => ?_, hsaved⟩
    rw [resumes, List.getLast?_cons] at hr
    cases qs with
    | nil =>
      obtain rfl : (inv.resume store id q).1 = r := by simpa [resumes] using hr
      simpa using hresult
    | cons q' qs =>
      refine hlast r ?_
      simpa [resumes, List.getLast?_cons] using hr

/-- Cutting a run into pieces, each of them loaded from a store and saved to it again, changes
nothing: the last piece ends where a single one would, with the same document in the store, and
this is the document of the world that the run has in memory, after as many quanta as the pieces
allow or as there are until the queue is empty. -/
theorem resumes_eq_resume {entry : String} {args : List Value} {top : TaskId}
    (hexe : inv.executable.Finite) (hargs : ∀ v ∈ args, v.Finite)
    (h : Scheduler.start { executable := inv.executable, settings := inv.settings } entry args =
      .ok (top, c)) (qs : List Nat) (hids : (c.run qs.sum).world.nextId ≤ UInt64.size)
    (keeps : ∀ n ≤ qs.sum, ∀ j, (c.run n).world.toJson = .ok j → Store.Keeps σ id j) (store : σ) :
    ∃ begun k j, inv.start store id entry args = .ok begun ∧ k ≤ qs.sum ∧
      (∀ m < k, (c.run m).world.queue ≠ []) ∧ (k < qs.sum → (c.run k).world.queue = []) ∧
      (c.run k).world.toJson = .ok j ∧
      Store.load (inv.resumes begun id qs).2 id = .ok j ∧
      Store.load (inv.resume begun id qs.sum).2 id = .ok j ∧
      (inv.resume begun id qs.sum).1 = statusOf (c.run k) ∧
      ∀ r ∈ (inv.resumes begun id qs).1.getLast?, r = (inv.resume begun id qs.sum).1 := by
  have durable (n : Nat) (hn : n ≤ qs.sum) : Durable σ id (c.run n).world := by
    have regular := Scheduler.run_regular h (Nat.le_trans (Scheduler.run_nextId_le h hn) hids)
    obtain ⟨j, hj, hread⟩ := (World.writes regular).isOk fun x hx =>
      Scheduler.run_finite hexe hargs h n hx
    exact ⟨j, hj, hread, keeps n hn j hj⟩
  obtain ⟨begun, hbegun, saved⟩ := checkpoint_of_durable (durable 0 (Nat.zero_le _)) store
  have hfields (n : Nat) := Scheduler.run_fields h n
  obtain ⟨hlast, j, hj, hmany⟩ := resumes_of_saved qs (n := 0) (fun n => (hfields n).1)
    (fun n => (hfields n).2) saved (by simpa using durable)
  obtain ⟨hresult, j', hj', honce⟩ := resume_of_saved (q := qs.sum) (hfields 0).1 (hfields 0).2
    saved (durable 0 (Nat.zero_le _)) (by simpa using durable _ (Nat.le_refl _))
  rw [Nat.zero_add] at hlast hj hresult hj'
  obtain ⟨k, hk, hrun, hbusy, hidle⟩ := c.exists_run_eq qs.sum
  obtain rfl : j = j' := by simpa [hj] using hj'
  refine ⟨begun, k, j, ?_, hk, hbusy, hidle, hrun ▸ hj, hmany, honce, hrun ▸ hresult, ?_⟩
  · simp only [start, h]
    exact hbegun
  · exact fun r hr => (hlast r hr).trans hresult.symm

end Invocation

/-! ## A program that waits -/

namespace Scheduler

/-- The documents of a run are kept by a store of texts if the constants of its program are
integers, no collection stands in its worlds and they do not nest too deep. -/
theorem keeps_of_integers {exe : Executable} {entry : String} {top : TaskId} {c : Scheduler}
    (sized : exe.Sized)
    (constants : ∀ i ∈ exe.code, ∀ v, i.op = .pushValue v → v.kind = .integer)
    (h : start { executable := exe, settings := {} } entry [] = .ok (top, c)) {n : Nat}
    (hids : (c.run n).world.nextId < UInt64.size)
    (hvalues : ∀ v ∈ (c.run n).world.values,
      v.kind = .integer ∨ v.kind = .future ∨ v.kind = .null)
    (hdepth : (c.run n).world.toJson.toOption.all (·.depth ≤ Json.maxDepth)) (id : String)
    {j : Json} (hj : (c.run n).world.toJson = .ok j) : Store.Keeps TableStore id j := by
  have floats (x : Float) (hx : (c.run n).world.Shows (.float x)) : Json.Number.Exact x := by
    obtain ⟨v, hv, hx⟩ := World.within_of_shows hx
    have kind := hvalues v hv
    cases v <;> simp_all [Value.kind]
  have formed (u : Value) (hu : exe.Mentions u) : u.Formed := by
    obtain ⟨i, hi, v, hv, hu⟩ := hu
    have kind := constants i hi v hv
    cases v with
    | integer k =>
      obtain rfl : u = .integer k := by simpa using hu
      trivial
    | _ => cases kind
  have storable := run_storable sized formed (by simp) h hids floats
  refine (TableStore.keepsTexts id).keeps (World.faithful storable hj) ?_
  simpa [hj, Except.toOption] using hdepth

theorem sized_awaitOnce : awaitOnce.Sized :=
  Executable.sized_of_forall (by decide) (by decide)

/-- The one constant of `awaitOnce` is an integer. -/
theorem awaitOnce_constant {v : Value} {i : Instruction} (hi : i ∈ awaitOnce.code)
    (hv : i.op = .pushValue v) : v = .integer 7 := by
  simp only [awaitOnce, List.mem_cons, List.not_mem_nil, or_false] at hi
  rcases hi with rfl | rfl | rfl | rfl | rfl | rfl <;> cases hv
  rfl

/-- The documents of the worlds of `awaitOnce` are kept by a store of texts. -/
theorem keeps_awaitOnce : ∃ c, start { executable := awaitOnce, settings := {} } "main" [] =
    .ok (0, c) ∧ (c.run 3).world.nextId ≤ UInt64.size ∧
      ∀ n ≤ 3, ∀ j, (c.run n).world.toJson = .ok j → Store.Keeps TableStore "s" j := by
  obtain ⟨c, h, hvalues, hids, hdepth⟩ :
      ∃ c, start { executable := awaitOnce, settings := {} } "main" [] = .ok (0, c) ∧
        (∀ n < 4, ∀ v ∈ (c.run n).world.values,
          v.kind = .integer ∨ v.kind = .future ∨ v.kind = .null) ∧
        (∀ n < 4, (c.run n).world.nextId < UInt64.size) ∧
        ∀ n < 4, (c.run n).world.toJson.toOption.all (·.depth ≤ Json.maxDepth) :=
    ⟨_, rfl, by decide +kernel, by decide +kernel, by decide +kernel⟩
  refine ⟨c, h, Nat.le_of_lt (hids 3 (by omega)), fun n hn j hj => ?_⟩
  have constants (i : Instruction) (hi : i ∈ awaitOnce.code) (v : Value)
      (hv : i.op = .pushValue v) : v.kind = .integer := by
    rw [awaitOnce_constant hi hv]
    rfl
  exact keeps_of_integers sized_awaitOnce constants h (hids n (by omega)) (hvalues n (by omega))
    (hdepth n (by omega)) "s" hj

end Scheduler

namespace Invocation

def waiting : Invocation where
  executable := Scheduler.awaitOnce
  settings := {}

/-- Cutting `awaitOnce` after its first quantum changes nothing. -/
theorem resumes_eq_resume_awaitOnce :
    ∃ c begun k j, Scheduler.start { executable := waiting.executable, settings := {} } "main" [] =
        .ok (0, c) ∧
      waiting.start ({} : TableStore) "s" "main" [] = .ok begun ∧
      (c.run k).world.toJson = .ok j ∧
      Store.load (waiting.resumes begun "s" [1, 2]).2 "s" = .ok j ∧
      Store.load (waiting.resume begun "s" 3).2 "s" = .ok j ∧
      (waiting.resume begun "s" 3).1 = statusOf (c.run k) := by
  obtain ⟨c, h, hids, keeps⟩ := Scheduler.keeps_awaitOnce
  have finite : waiting.executable.Finite := by
    intro i hi v hv x hx
    simp [Scheduler.awaitOnce_constant hi hv] at hx
  obtain ⟨begun, k, j, hbegun, -, -, -, hj, hmany, honce, hresult, -⟩ :=
    resumes_eq_resume finite (by simp) h [1, 2] hids keeps {}
  exact ⟨c, begun, k, j, h, hbegun, hj, hmany, honce, hresult⟩

end Invocation

end Teal
