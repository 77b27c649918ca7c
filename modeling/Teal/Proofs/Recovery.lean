import Teal.Proofs.Discipline
import Teal.Proofs.Resumption

/-!
# Checkpoints that are read back, and those that are not

A store of texts takes every document, but reads back only those that nest at most
`Json.maxDepth` deep. So a session whose last call succeeded goes on from the world that was saved
then, unless the document of that world nests deeper: then the session is lost, since each further
call to resume it is refused and leaves the store as it is.

## Main definitions

* `Invocation.Call`, `Invocation.call`: starting and resuming a session.
* `Invocation.GoesOn`: what resuming a session answers after a checkpoint.
* `Invocation.LeavesCheckpoint`: a call that succeeds leaves one.

## Main statements

* `Invocation.goesOn_of_written`: resuming from a text.
* `Invocation.call_cases`: what one call does to a store.
* `Invocation.resume_after_calls`: resuming after any calls.
-/

namespace Teal

/-- Compiled code has its functions inside, and its constants are no references. -/
theorem sized_of_compile {program : List Expr} {exe : Executable}
    (hcompile : compile program = .ok exe) (hcode : exe.code.length < UInt64.size) :
    exe.Sized ∧ ∀ u, exe.Mentions u → u.Formed := by
  obtain ⟨height, balanced⟩ := Executable.exists_balanced hcompile
  refine ⟨⟨hcode, fun hf => Nat.lt_trans (balanced.entry hf).1 hcode⟩, fun u hu => ?_⟩
  have plain := balanced.isReference_of_mentions hu
  cases u with
  | closure | future => cases plain
  | _ => trivial

namespace Invocation

variable {σ : Type} [Store σ] {inv : Invocation} {store : σ} {id entry : String}
  {args : List Value} {w : World} {c : Scheduler}

/-! ## Checkpoints of storable worlds -/

def Written (store : σ) (id : String) (w : World) : Prop :=
  ∃ j, w.toJson = .ok j ∧
    Store.load store id = if j.depth ≤ Json.maxDepth then .ok j else .error .malformed

/-- A world is written, or it has no document. -/
theorem checkpoint_cases (texts : Store.KeepsTexts σ id) (w : World) (store : σ) :
    (∃ cause, w.toJson = .error cause ∧ checkpoint store id w = .error (.checkpoint cause)) ∨
      ∃ j store', w.toJson = .ok j ∧ checkpoint store id w = .ok store' ∧
        (w.Storable → Written store' id w) := by
  cases hj : w.toJson with
  | error cause => exact .inl ⟨cause, rfl, by simp [checkpoint, hj]⟩
  | ok j =>
    obtain ⟨store', hsave, hload⟩ := texts store j
    have hcheckpoint : checkpoint store id w = .ok store' := by
      simp [checkpoint, hj, hsave, Except.mapError]
    exact .inr ⟨j, store', rfl, hcheckpoint, fun storable =>
      ⟨j, hj, hload (World.faithful storable hj)⟩⟩

/-- A world that is written is read back if it does not nest too deep. -/
theorem restore_of_load {j : Json} (regular : w.Regular) (hj : w.toJson = .ok j)
    (hload : Store.load store id = if j.depth ≤ Json.maxDepth then .ok j else .error .malformed) :
    restore store id = if j.depth ≤ Json.maxDepth then .ok w else .error (.store .malformed) := by
  have writes := World.writes regular
  rw [hj] at writes
  by_cases hdepth : j.depth ≤ Json.maxDepth <;> simp [restore, hload, hdepth, writes.2]

/-- What resuming a session answers once its world was saved after `n` quanta of a run: the run
goes on if the document of that world is read back, and the session is lost if it is not. -/
def GoesOn (inv : Invocation) (c : Scheduler) (store : σ) (id : String) (n : Nat) : Prop :=
  ∃ j, (c.run n).world.toJson = .ok j ∧
    if j.depth ≤ Json.maxDepth then
      restore store id = .ok (c.run n).world ∧
        ∀ q, (inv.resume store id q).1 = match (c.run (n + q)).world.toJson with
          | .ok _ => statusOf (c.run (n + q))
          | .error cause => .error (.checkpoint cause)
    else ∀ q, inv.resume store id q = (.error (.store .malformed), store)

/-- Resuming from a text that is read back. -/
theorem resume_of_restore (texts : Store.KeepsTexts σ id) {n : Nat}
    (hexe : (c.run n).executable = inv.executable) (hsettings : (c.run n).settings = inv.settings)
    (hrestore : restore store id = .ok (c.run n).world) (q : Nat) :
    (∃ cause, (c.run (n + q)).world.toJson = .error cause ∧
        inv.resume store id q = (.error (.checkpoint cause), store)) ∨
      ∃ j store', (c.run (n + q)).world.toJson = .ok j ∧
        inv.resume store id q = (statusOf (c.run (n + q)), store') ∧
        ((c.run (n + q)).world.Storable → Written store' id (c.run (n + q)).world) := by
  obtain ⟨d, hadvance, alike⟩ := advance_of_restore hexe hsettings hrestore q
  rcases checkpoint_cases texts (c.run (n + q)).world store with ⟨cause, hj, hcheckpoint⟩ |
    ⟨j, store', hj, hcheckpoint, written⟩
  · refine .inl ⟨cause, hj, ?_⟩
    rw [← alike.world] at hcheckpoint
    simp [resume, hadvance, hcheckpoint]
  · refine .inr ⟨j, store', hj, ?_, written⟩
    rw [← alike.world] at hcheckpoint
    simp [resume, hadvance, hcheckpoint, statusOf_alike alike]

/-- Nothing is resumed, and nothing saved, where no world is read. -/
theorem resume_of_not_restored {e : InvocationError} (h : restore store id = .error e) (q : Nat) :
    inv.resume store id q = (.error e, store) := by
  simp [resume, advance, h, bind, Except.bind]

theorem goesOn_of_written (texts : Store.KeepsTexts σ id) {n : Nat}
    (hexe : (c.run n).executable = inv.executable) (hsettings : (c.run n).settings = inv.settings)
    (regular : (c.run n).world.Regular) (written : Written store id (c.run n).world) :
    inv.GoesOn c store id n := by
  obtain ⟨j, hj, hload⟩ := written
  have hrestore := restore_of_load regular hj hload
  refine ⟨j, hj, ?_⟩
  split
  · next hdepth =>
    rw [if_pos hdepth] at hrestore
    refine ⟨hrestore, fun q => ?_⟩
    rcases resume_of_restore texts hexe hsettings hrestore q with ⟨cause, hj, hresume⟩ |
      ⟨j, store', hj, hresume, -⟩ <;> simp [hj, hresume]
  · next hdepth =>
    rw [if_neg hdepth] at hrestore
    exact resume_of_not_restored hrestore

/-! ## Calls on a session -/

inductive Call
  | start
  | resume (quanta : Nat)

def Call.quanta : Call → Nat
  | .start => 0
  | .resume quanta => quanta

/-- What a call answers, and the store after it: nothing if the session is started, and where its
program stands if it is resumed. -/
def call (inv : Invocation) (id entry : String) (args : List Value) (store : σ) :
    Call → Except InvocationError (Option Standing) × σ
  | .start =>
    match inv.start store id entry args with
    | .error e => (.error e, store)
    | .ok store => (.ok none, store)
  | .resume quanta =>
    let (result, store) := inv.resume store id quanta
    (result.map some, store)

def calls (inv : Invocation) (id entry : String) (args : List Value) (store : σ) :
    List Call → σ
  | [] => store
  | call :: rest => calls inv id entry args (inv.call id entry args store call).2 rest

/-- A store holds the text of a world of a run, after at most `n` quanta, or nothing that can be
read. -/
def Holds (c : Scheduler) (store : σ) (id : String) (n : Nat) : Prop :=
  (∀ j, Store.load store id ≠ .ok j) ∨ ∃ m ≤ n, Written store id (c.run m).world

/-- The answer of a call is about the world of a run after `n` quanta. -/
def Tells (c : Scheduler) (n : Nat) : Option Standing → Prop
  | none => n = 0
  | some standing => statusOf (c.run n) = .ok standing

section Calls

variable {top : TaskId}

/-- A call fails and leaves the store as it is, or it leaves the text of the world that its answer
is about. -/
theorem call_cases (texts : Store.KeepsTexts σ id)
    (h : Scheduler.start { executable := inv.executable, settings := inv.settings } entry args =
      .ok (top, c)) {n : Nat} (call : Call)
    (storable : ∀ m ≤ n + call.quanta, (c.run m).world.Storable) (holds : Holds c store id n) :
    (∃ e, inv.call id entry args store call = (.error e, store)) ∨
      ∃ m ≤ n + call.quanta, Written (inv.call id entry args store call).2 id (c.run m).world ∧
        ∀ r, (inv.call id entry args store call).1 = .ok r → Tells c m r := by
  cases call with
  | start =>
    rcases checkpoint_cases texts c.world store with ⟨cause, -, hcheckpoint⟩ |
      ⟨j, store', -, hcheckpoint, written⟩
    · exact .inl ⟨.checkpoint cause, by simp [Invocation.call, start, h, hcheckpoint]⟩
    · refine .inr ⟨0, Nat.zero_le _, ?_⟩
      simp only [Invocation.call, start, h, hcheckpoint]
      refine ⟨written (storable 0 (Nat.zero_le _)), fun r hr => ?_⟩
      cases hr
      rfl
  | resume q =>
    have failed {e : InvocationError} (he : inv.resume store id q = (.error e, store)) :
        inv.call id entry args store (.resume q) = (.error e, store) := by
      simp [Invocation.call, he, Except.map]
    -- an unreadable text stays, and so does one that is read but whose next world has no document
    rcases holds with unread | ⟨m, hm, j, hj, hload⟩
    · have hrestore : ∃ e, restore store id = .error e := by
        cases hload : Store.load store id with
        | error e => exact ⟨.store e, by simp [restore, hload]⟩
        | ok j => exact absurd hload (unread j)
      obtain ⟨e, hrestore⟩ := hrestore
      exact .inl ⟨e, failed (resume_of_not_restored hrestore q)⟩
    · have hrestore := restore_of_load (storable m (by omega)).toRegular hj hload
      obtain ⟨hexe, hsettings⟩ := Scheduler.run_fields h m
      split at hrestore
      · rcases resume_of_restore texts hexe hsettings hrestore q with ⟨cause, -, hresume⟩ |
          ⟨j', store', -, hresume, written⟩
        · exact .inl ⟨_, failed hresume⟩
        · have hmq : m + q ≤ n + q := Nat.add_le_add_right hm q
          refine .inr ⟨m + q, hmq, ?_⟩
          simp only [Invocation.call, hresume]
          refine ⟨written (storable _ hmq), fun r hr => ?_⟩
          obtain ⟨standing, hstanding, rfl⟩ := exists_of_map_eq_ok hr
          exact hstanding
      · exact .inl ⟨_, failed (resume_of_not_restored hrestore q)⟩

theorem call_holds (texts : Store.KeepsTexts σ id)
    (h : Scheduler.start { executable := inv.executable, settings := inv.settings } entry args =
      .ok (top, c)) {n : Nat} (call : Call)
    (storable : ∀ m ≤ n + call.quanta, (c.run m).world.Storable) (holds : Holds c store id n) :
    Holds c (inv.call id entry args store call).2 id (n + call.quanta) := by
  rcases call_cases texts h call storable holds with ⟨e, he⟩ | ⟨m, hm, written, -⟩
  · rw [he]
    exact holds.imp_right fun ⟨m, hm, written⟩ => ⟨m, by omega, written⟩
  · exact .inr ⟨m, hm, written⟩

/-- What calls leave in a store. -/
theorem calls_hold (texts : Store.KeepsTexts σ id)
    (h : Scheduler.start { executable := inv.executable, settings := inv.settings } entry args =
      .ok (top, c)) {n : Nat} (calls : List Call)
    (storable : ∀ m ≤ n + (calls.map Call.quanta).sum, (c.run m).world.Storable)
    (holds : Holds c store id n) :
    Holds c (inv.calls id entry args store calls) id (n + (calls.map Call.quanta).sum) := by
  induction calls generalizing n store with
  | nil => exact holds
  | cons call rest ih =>
    rw [List.map_cons, List.sum_cons, ← Nat.add_assoc] at storable ⊢
    exact ih storable (call_holds texts h call (fun m hm => storable m (by omega)) holds)

/-- A call that succeeds leaves a checkpoint from which the session goes on. -/
def LeavesCheckpoint (σ : Type) [Store σ] (inv : Invocation) (c : Scheduler) (id entry : String)
    (args : List Value) (before : List Call) (last : Call) : Prop :=
  ∀ store : σ, (∀ j, Store.load store id ≠ .ok j) → ∀ r store',
    inv.call id entry args (inv.calls id entry args store before) last = (.ok r, store') →
    ∃ n ≤ (before.map Call.quanta).sum + last.quanta, Tells c n r ∧ inv.GoesOn c store' id n

theorem leavesCheckpoint_of_texts (texts : Store.KeepsTexts σ id)
    (h : Scheduler.start { executable := inv.executable, settings := inv.settings } entry args =
      .ok (top, c)) (before : List Call) (last : Call)
    (storable : ∀ n ≤ (before.map Call.quanta).sum + last.quanta, (c.run n).world.Storable) :
    LeavesCheckpoint σ inv c id entry args before last := by
  intro store new r store' hlast
  -- the calls before the last one leave nothing, or the text of some earlier world
  have holds : Holds c (inv.calls id entry args store before) id (before.map Call.quanta).sum := by
    have := calls_hold texts h (n := 0) before (fun m hm => storable m (by omega)) (.inl new)
    rwa [Nat.zero_add] at this
  rcases call_cases texts h last storable holds with ⟨e, he⟩ | ⟨n, hn, written, tells⟩
  · simp [he] at hlast
  · rw [hlast] at written tells
    obtain ⟨hexe, hsettings⟩ := Scheduler.run_fields h n
    exact ⟨n, hn, tells r rfl,
      goesOn_of_written texts hexe hsettings (storable n hn).toRegular written⟩

/-- Every call that succeeds on a session of a compiled program leaves a checkpoint of its run, and
the session goes on from there as long as the document of that checkpoint nests at most
`Json.maxDepth` deep. One that nests deeper takes the place of the last good one all the same, and
from then on the session cannot be resumed. -/
theorem resume_after_calls {program : List Expr} (hcompile : compile program = .ok inv.executable)
    (hcode : inv.executable.code.length < UInt64.size)
    (hargs : ∀ u : Value, u.Within args → u.Formed)
    (h : Scheduler.start { executable := inv.executable, settings := inv.settings } entry args =
      .ok (top, c)) (id : String) (before : List Call) (last : Call)
    (hids : (c.run ((before.map Call.quanta).sum + last.quanta)).world.nextId < UInt64.size)
    (hexact : ∀ n ≤ (before.map Call.quanta).sum + last.quanta, ∀ x,
      (c.run n).world.Shows (.float x) → Json.Number.Exact x) :
    LeavesCheckpoint TableStore inv c id entry args before last ∧
      ∀ name, DirectoryStore.fileName id = .ok name →
        LeavesCheckpoint DirectoryStore inv c id entry args before last := by
  obtain ⟨sized, constants⟩ := sized_of_compile hcompile hcode
  have storable (n : Nat) (hn : n ≤ (before.map Call.quanta).sum + last.quanta) :
      (c.run n).world.Storable :=
    Scheduler.run_storable sized constants hargs h
      (Nat.lt_of_le_of_lt (Scheduler.run_nextId_le h hn) hids) (hexact n hn)
  refine ⟨leavesCheckpoint_of_texts (TableStore.keepsTexts id) h before last storable, ?_⟩
  intro name hid
  exact leavesCheckpoint_of_texts (DirectoryStore.keepsTexts hid) h before last storable

end Calls

/-! ## A session that is lost -/

def nested : Nat → Value
  | 0 => .null
  | n + 1 => .list [nested n]

theorem part_nested {u : Value} {n : Nat} (h : u.Part (nested n)) : ∃ m, u = nested m := by
  induction n with
  | zero => exact ⟨0, Value.part_null.mp h⟩
  | succ n ih =>
    rcases Value.part_list.mp h with rfl | ⟨v, hv, h⟩
    · exact ⟨n + 1, rfl⟩
    · exact ih (List.mem_singleton.mp hv ▸ h)

/-- Each list is an array in an object. -/
theorem toJson_nested (n : Nat) : ∃ j, (nested n).toJson = .ok j ∧ j.depth = 2 * n + 1 := by
  induction n with
  | zero => exact ⟨_, rfl, rfl⟩
  | succ n ih =>
    obtain ⟨j, hj, hdepth⟩ := ih
    refine ⟨Value.typed .list (.arr [j]), ?_, ?_⟩
    · simp [nested, Value.toJson, Value.itemsToJson, hj, Except.map, bind, Except.bind]
    · simp only [Value.typed, Json.depth, Json.fieldsDepth, Json.itemsDepth, hdepth]
      omega

def echo : List Expr :=
  let loc : Location := ⟨"", 1, 1, ""⟩
  [.definition loc "main" ["x"] (.ident loc "x") none]

def called (v : Value) : World where
  sessions :=
    [(0, { id := 0, ip := 0, activations := [{ function := "main", bindings := [("x", v)] }] })]
  tasks := [(0, .pending [])]
  queue := [0]
  topLevel := some 0
  nextId := 1

theorem start_echo {exe : Executable} (h : compile echo = .ok exe) (settings : MachineSettings)
    (v : Value) : ∃ c, Scheduler.start { executable := exe, settings } "main" [v] = .ok (0, c) ∧
      c.world = called v := by
  cases h
  exact ⟨_, rfl, rfl⟩

/-- The document of an argument stands six deep in that of the world. -/
theorem toJson_called {v : Value} {j : Json} (hj : v.toJson = .ok j) :
    ∃ doc, (called v).toJson = .ok doc ∧ doc.depth = j.depth + 6 := by
  let frame : Json :=
    .obj [("bindings", .obj [("x", j)]), ("function", .str "main"), ("return_ip", .null)]
  let session : Json := .obj [("call_frames", .arr [frame]), ("id", .nat 0),
    ("instruction_pointer", .nat 0), ("operand_stack", .arr []), ("output", .strings []),
    ("result", .null), ("status", Session.Status.running.toJson)]
  let task : Json := .obj [("state", .str "pending"), ("waiters", .arr [])]
  refine ⟨.obj [("next_id", .nat 1), ("pending_tasks", .numbered [(0, task)]),
    ("run_queue", .arr [.nat 0]), ("sessions", .numbered [(0, session)]), ("top_level", .nat 0)],
    ?_, ?_⟩
  · have hframe : Activation.toJson { function := "main", bindings := [("x", v)] } = .ok frame := by
      simp [Activation.toJson, Value.entriesToJson, hj, bind, Except.bind, Json.ofOption, frame]
    have hsession : Session.toJson { id := 0, ip := 0, activations :=
        [{ function := "main", bindings := [("x", v)] }] } = .ok session := by
      simp [Session.toJson, Value.itemsToJson, hframe, bind, Except.bind, pure, Except.pure,
        Session.resultToJson, session]
    simp [called, World.toJson, World.entriesToJson, hsession, TaskState.toJson, bind, Except.bind,
      Except.map, pure, Except.pure, Json.ofOption, task]
  · simp [frame, session, task, Json.depth, Json.fieldsDepth, Json.itemsDepth, Json.numbered,
      Json.object, Table.ofEntries, Table.insert, Json.nat, Json.strings, Session.Status.toJson]

/-- Sixty lists inside each other are read back when `echo` is called with them. More are saved all
the same, and then the session cannot be resumed. -/
theorem resume_after_calls_echo : ∃ inv : Invocation, compile echo = .ok inv.executable ∧
    ∀ n, ∃ store, inv.start ({} : TableStore) "s" "main" [nested n] = .ok store ∧
      if n ≤ 60 then restore store "s" = .ok (called (nested n))
      else ∀ q, inv.resume store "s" q = (.error (.store .malformed), store) := by
  obtain ⟨inv, hcompile, hcode⟩ : ∃ inv : Invocation, compile echo = .ok inv.executable ∧
      inv.executable.code.length < UInt64.size := ⟨⟨_, {}⟩, rfl, by decide⟩
  refine ⟨inv, hcompile, fun n => ?_⟩
  obtain ⟨c, h, hworld⟩ := start_echo hcompile inv.settings (nested n)
  obtain ⟨j, hj, hdepth⟩ := toJson_nested n
  obtain ⟨doc, hdoc, hdepth'⟩ := toJson_called hj
  rw [← hworld] at hdoc
  have hstart : inv.start ({} : TableStore) "s" "main" [nested n] =
      .ok (TableStore.save {} "s" doc) := by
    simp [start, h, checkpoint, hdoc, Store.save, Except.mapError]
  have within (u : Value) (hu : u.Within [nested n]) : ∃ m, u = nested m := by
    obtain ⟨v, hv, hu⟩ := hu
    exact part_nested (List.mem_singleton.mp hv ▸ hu)
  have hargs (u : Value) (hu : u.Within [nested n]) : u.Formed := by
    obtain ⟨m, rfl⟩ := within u hu
    cases m <;> trivial
  have hexact (m : Nat) (hm : m ≤ 0) (x : Float) (hx : (c.run m).world.Shows (.float x)) :
      Json.Number.Exact x := by
    obtain rfl : m = 0 := Nat.le_zero.mp hm
    rw [Scheduler.run, hworld] at hx
    obtain ⟨m, hm⟩ := within _ (World.within_of_shows hx)
    cases m <;> cases hm
  have hids : c.world.nextId < UInt64.size := by
    rw [hworld]
    exact (by decide : 1 < UInt64.size)
  obtain ⟨leaves, -⟩ := resume_after_calls hcompile hcode hargs h "s" [] .start hids hexact
  obtain ⟨m, -, rfl, doc', hdoc', goesOn⟩ := leaves {} (by simp [Store.load, TableStore.load]) none
    (TableStore.save {} "s" doc) (by simp [Invocation.call, calls, hstart])
  obtain rfl : doc = doc' := by simpa [Scheduler.run, hdoc] using hdoc'
  refine ⟨_, hstart, ?_⟩
  have hlimit : doc.depth ≤ Json.maxDepth ↔ n ≤ 60 := by
    rw [hdepth', hdepth, Json.maxDepth]
    omega
  simp only [hlimit, Scheduler.run, hworld] at goesOn
  split
  · next hn =>
    rw [if_pos hn] at goesOn
    exact goesOn.1
  · next hn =>
    rwa [if_neg hn] at goesOn

end Invocation

end Teal
