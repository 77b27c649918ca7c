import Teal.Proofs.Files
import Teal.Proofs.Recovery

/-!
# Calls are atomic on the store

A call on a session touches no other session. It saves its world or it leaves the store as it is,
and its answer tells which: every error means that nothing was saved, except that a session is found
to be blocked only after its world was saved. What is saved is the document of the world in which
the call ends, a new one or the loaded one some quanta later.

Nothing is asked of the program, of the texts that the store holds or of the ids.

## Main definitions

* `Store.Textual`: stores of texts under ids.
* `Invocation.Leaves`: the world in which a call ends.
* `Invocation.Call.Saves`: the answers of calls that have saved their world.
* `Invocation.Atomic`: what one call does to a store.

## Main statements

* `Invocation.call_atomic`, `Invocation.text?_calls`: one call, and several.
* `Invocation.invocations_atomic`: both stores, and the files of a directory.
-/

namespace Teal

/-! ## Stores of texts -/

/-- A store that keeps a text for each id: saving a document writes its text, and loading one reads
it back. -/
class Store.Textual (σ : Type) [Store σ] where
  /-- The text under an id. -/
  text? : σ → String → Option String
  /-- The text that is written of a document. -/
  written : Json → String
  text?_of_save {store store' : σ} {id : String} {j : Json} : save store id j = .ok store' →
    ∀ other, text? store' other = if id = other then some (written j) else text? store other
  exists_of_load {store : σ} {id : String} {j : Json} : load store id = .ok j →
    ∃ text, text? store id = some text ∧ Json.parse text = some j

theorem StoreError.parse_of_parsed {text : String} {j : Json} (h : parsed text = .ok j) :
    Json.parse text = some j := by
  unfold parsed at h
  split at h <;> cases h
  assumption

instance TableStore.textual : Store.Textual TableStore where
  text? store id := store.entries.get? id
  written := Json.compact
  text?_of_save := by
    rintro store _ id j ⟨⟩ other
    exact Table.get?_insert ..
  exists_of_load := by
    intro store id j h
    simp only [Store.load, load] at h
    split at h
    · cases h
    · next text htext => exact ⟨text, htext, StoreError.parse_of_parsed h⟩

/-- A directory has the text of a file under the id of the file, and none under an id that is not
taken. -/
instance DirectoryStore.textual : Store.Textual DirectoryStore where
  text? store := textAt (fun name => name) store.files
  written := Json.pretty
  text?_of_save := by
    intro store store' id j h
    obtain ⟨name, hname, h⟩ := exists_of_bind_eq_ok h
    cases h
    exact textAt_insert Function.injective_id hname
  exists_of_load := by
    intro store id j h
    obtain ⟨name, hname, h⟩ := exists_of_bind_eq_ok h
    split at h
    · cases h
    · next text htext =>
      exact ⟨text, (textAt_of_ok hname).trans htext, StoreError.parse_of_parsed h⟩

namespace Invocation

section Errors

variable {σ : Type} [Store σ] {store : σ} {id : String} {w : World} {e : MachineError}

theorem checkpoint_ne_machine : checkpoint store id w ≠ .error (.machine e) := by
  unfold checkpoint
  split
  · simp
  · next j _ => cases Store.save store id j <;> simp [Except.mapError]

theorem restore_ne_machine : restore store id ≠ .error (.machine e) := by
  unfold restore
  split
  · simp
  · split <;> simp

theorem advance_ne_machine {inv : Invocation} {quanta : Nat} :
    inv.advance store id quanta ≠ .error (.machine e) := by
  unfold advance
  cases h : restore store id with
  | error e' =>
    rintro ⟨⟩
    exact restore_ne_machine h
  | ok loaded => simp [bind, Except.bind]

end Errors

/-! ## Calls -/

open Store (Textual)
open Store.Textual (text?)

variable {σ : Type} [Store σ] [Textual σ] {inv : Invocation} {before after store : σ}
  {id entry : String} {args : List Value} {w : World}

/-- The world in which a call ends. If a session is started, it is a new world that is about to call
`entry`. If it is resumed, it is the world of the text under its id, after as many quanta as are
allowed or as there are until the queue is empty. -/
def Leaves (inv : Invocation) (store : σ) (id entry : String) (args : List Value) :
    Call → World → Prop
  | .start, w => ∃ top c,
    Scheduler.start { executable := inv.executable, settings := inv.settings } entry args =
      .ok (top, c) ∧ w = c.world
  | .resume quanta, w => ∃ text j loaded, text? store id = some text ∧ Json.parse text = some j ∧
    World.ofJson? j = some loaded ∧
    let c : Scheduler :=
      { executable := inv.executable, settings := inv.settings, world := loaded }
    ∃ k ≤ quanta, (∀ m < k, (c.run m).world.queue ≠ []) ∧
      (k < quanta → (c.run k).world.queue = []) ∧ w = (c.run k).world

/-- The answers of a call that has saved its world: it succeeds, or the session that was resumed is
blocked. -/
def Call.Saves (call : Call) (answer : Except InvocationError (Option Standing)) : Prop :=
  (∃ result, answer = .ok result) ∨
    ∃ quanta waiting, call = .resume quanta ∧ answer = .error (.machine (.deadlock waiting))

/-- A call touches no other session. It leaves the document of the world in which it ends, or the
store as it is; the answer tells which. -/
structure Atomic (inv : Invocation) (before : σ) (id entry : String) (args : List Value)
    (call : Call) (answer : Except InvocationError (Option Standing)) (after : σ) : Prop where
  others {other : String} : other ≠ id → text? after other = text? before other
  saved : call.Saves answer → ∃ w j, inv.Leaves before id entry args call w ∧ w.toJson = .ok j ∧
    text? after id = some (Textual.written σ j)
  refused : ¬ call.Saves answer → after = before

/-- A world that is loaded is that of the text under the id. -/
theorem exists_of_restore (h : restore store id = .ok w) :
    ∃ text j, text? store id = some text ∧ Json.parse text = some j ∧
      World.ofJson? j = some w := by
  unfold restore at h
  split at h
  · cases h
  · next j hload =>
    obtain ⟨text, htext, hparse⟩ := Textual.exists_of_load hload
    split at h <;> cases h
    exact ⟨text, j, htext, hparse, ‹_›⟩

theorem leaves_of_advance {quanta : Nat} {c : Scheduler}
    (h : inv.advance store id quanta = .ok c) :
    inv.Leaves store id entry args (.resume quanta) c.world := by
  obtain ⟨loaded, hrestore, h⟩ := exists_of_bind_eq_ok h
  cases h
  obtain ⟨text, j, htext, hparse, hread⟩ := exists_of_restore hrestore
  obtain ⟨k, hk, hrun, hbusy, hidle⟩ := Scheduler.exists_run_eq
    { executable := inv.executable, settings := inv.settings, world := loaded } quanta
  exact ⟨text, j, loaded, htext, hparse, hread, k, hk, hbusy, hidle, by rw [hrun]⟩

/-- Once its world is saved, a session that is resumed has an answer or is blocked. -/
theorem saves_statusOf (c : Scheduler) (quanta : Nat) :
    (Call.resume quanta).Saves ((statusOf c).map some) := by
  unfold statusOf
  split
  case h_1 | h_2 | h_3 => exact .inl ⟨_, rfl⟩
  case h_4 waiting _ => exact .inr ⟨quanta, waiting, rfl, rfl⟩

section Atomic

variable {call : Call} {answer : Except InvocationError (Option Standing)}

/-- A call that saves the world in which it ends, and answers so, is atomic. -/
theorem atomic_of_checkpoint (hleaves : inv.Leaves before id entry args call w)
    (hcheckpoint : checkpoint before id w = .ok after) (hsaves : call.Saves answer) :
    Atomic inv before id entry args call answer after := by
  unfold checkpoint at hcheckpoint
  cases hj : w.toJson with
  | error cause => simp [hj] at hcheckpoint
  | ok j =>
    cases hsave : Store.save before id j with
    | error e => simp [hj, hsave, Except.mapError] at hcheckpoint
    | ok store =>
      obtain rfl : store = after := by simpa [hj, hsave, Except.mapError] using hcheckpoint
      have hentry := Textual.text?_of_save hsave
      exact {
        others := fun hne => by rw [hentry, if_neg hne.symm]
        saved := fun _ => ⟨w, j, hleaves, hj, by rw [hentry, if_pos rfl]⟩
        refused := fun h => absurd hsaves h }

/-- So is a call that saves nothing, and answers so. -/
theorem atomic_of_not_saves (h : ¬ call.Saves answer) :
    Atomic inv store id entry args call answer store where
  others _ := rfl
  saved hsaves := absurd hsaves h
  refused _ := rfl

end Atomic

theorem start_atomic (inv : Invocation) (store : σ) (id entry : String) (args : List Value) :
    Atomic inv store id entry args .start (inv.call id entry args store .start).1
      (inv.call id entry args store .start).2 := by
  simp only [call]
  cases hstart : inv.start store id entry args with
  | error e => exact atomic_of_not_saves (by simp [Call.Saves])
  | ok after =>
    unfold start at hstart
    split at hstart
    · cases hstart
    · next top c hc =>
      exact atomic_of_checkpoint ⟨top, c, hc, rfl⟩ hstart (.inl ⟨none, rfl⟩)

theorem resume_atomic (inv : Invocation) (store : σ) (id entry : String) (args : List Value)
    (quanta : Nat) :
    Atomic inv store id entry args (.resume quanta)
      (inv.call id entry args store (.resume quanta)).1
      (inv.call id entry args store (.resume quanta)).2 := by
  have not_saves {e : InvocationError} (h : ∀ m, e ≠ .machine m) :
      ¬ (Call.resume quanta).Saves (.error e) := by
    rintro (⟨_, ⟨⟩⟩ | ⟨_, waiting, -, ⟨⟩⟩)
    exact h _ rfl
  simp only [call, resume]
  cases hadvance : inv.advance store id quanta with
  | error e =>
    refine atomic_of_not_saves (not_saves fun m he => ?_)
    exact advance_ne_machine (he ▸ hadvance)
  | ok c =>
    dsimp only
    cases hcheckpoint : checkpoint store id c.world with
    | error e =>
      refine atomic_of_not_saves (not_saves fun m he => ?_)
      exact checkpoint_ne_machine (he ▸ hcheckpoint)
    | ok after =>
      exact atomic_of_checkpoint (leaves_of_advance hadvance) hcheckpoint (saves_statusOf c quanta)

/-- One call. -/
theorem call_atomic (inv : Invocation) (store : σ) (id entry : String) (args : List Value)
    (call : Call) :
    Atomic inv store id entry args call (inv.call id entry args store call).1
      (inv.call id entry args store call).2 := by
  cases call with
  | start => exact start_atomic inv store id entry args
  | resume quanta => exact resume_atomic inv store id entry args quanta

/-- Calls on a session, one after the other, touch no other session. -/
theorem text?_calls (inv : Invocation) (store : σ) (id entry : String) (args : List Value)
    (calls : List Call) {other : String} (hne : other ≠ id) :
    text? (inv.calls id entry args store calls) other = text? store other := by
  induction calls generalizing store with
  | nil => rfl
  | cons call rest ih =>
    rw [Invocation.calls, ih, (call_atomic inv store id entry args call).others hne]

/-- Calls are atomic on both stores, whatever these hold. In a directory, each id that is taken has
a file of its own and one beside it, all of them different. A store that is opened for a session has
its text; and when the world of a scheduler is saved as a session, the text of that session is
replaced by the document, the other sessions keep theirs, and no state of the files in between
differs in any session from the one before. If that fails, nothing was tried on the disk, or a write
or a rename has failed and all sessions have kept their texts, then and in between. -/
theorem invocations_atomic :
    (∀ (inv : Invocation) (store : TableStore) (id entry : String) (args : List Value)
      (call : Call), Atomic inv store id entry args call (inv.call id entry args store call).1
        (inv.call id entry args store call).2) ∧
    (∀ (inv : Invocation) (store : DirectoryStore) (id entry : String) (args : List Value)
      (call : Call), Atomic inv store id entry args call (inv.call id entry args store call).1
        (inv.call id entry args store call).2) ∧
    (∀ dir id id' name name', DirectoryStore.fileName id = .ok name →
      DirectoryStore.fileName id' = .ok name' → id ≠ id' →
      [Path.join dir name, Path.draft (Path.join dir name), Path.join dir name',
        Path.draft (Path.join dir name')].Nodup) ∧
    ∀ (dir id printed : String) (disk : Disk),
      (∃ opened : DirectoryStore,
        (Cli.openStore (m := StateM Disk) dir id) printed disk = ((.ok opened, printed), disk) ∧
        text? opened id = Disk.text? dir disk.files id) ∧
      ∀ c : Scheduler,
        (∃ failure, (Cli.saveSession (m := StateM Disk) dir id c) printed disk =
          ((.error failure, printed), disk)) ∨
        (∃ j after, c.world.toJson = .ok j ∧
          (Cli.saveSession (m := StateM Disk) dir id c) printed disk = ((.ok (), printed), after) ∧
          Disk.Replaces dir id j.pretty disk after) ∨
        ∃ fault after, some fault ∈ disk.faults ∧
          (Cli.saveSession (m := StateM Disk) dir id c) printed disk =
            ((.error (Cli.storeFailure fault.cause), printed), after) ∧
          Disk.Keeps dir disk after :=
  ⟨call_atomic, call_atomic, fun dir _ _ _ _ h h' hne => DirectoryStore.paths_apart dir h h' hne,
    fun dir id printed disk => ⟨Disk.exists_openStore dir id printed disk,
      fun c => Disk.saveSession_cases dir id c printed disk⟩⟩

/-- A session without a program, written with blanks, and a text that is no document. -/
def idle : TableStore where
  entries := [("other", "nothing"), ("s", "\x7b \"next_id\": 0, \"pending_tasks\": \x7b\x7d, " ++
    "\"run_queue\": [], \"sessions\": \x7b\x7d, \"top_level\": null \x7d")]

/-- The session is found to be blocked, after it was written without blanks: its text has changed,
so it was saved, and the call has no other answer. In a directory it has files of its own. -/
theorem invocations_atomic_idle : ∃ waits after,
    waiting.call "s" "main" [] idle (.resume 3) = (.error (.machine (.deadlock waits)), after) ∧
    text? after "other" = some "nothing" ∧
    text? after "s" = some ("\x7b\"next_id\":0,\"pending_tasks\":\x7b\x7d,\"run_queue\":[]," ++
      "\"sessions\":\x7b\x7d,\"top_level\":null\x7d") ∧
    (∃ w j, waiting.Leaves idle "s" "main" [] (.resume 3) w ∧ w.toJson = .ok j ∧
      text? after "s" = some j.compact) ∧
    ["d/s.json", "d/s.json.tmp", "d/other.json", "d/other.json.tmp"].Nodup := by
  obtain ⟨table, -, paths, -⟩ := invocations_atomic
  have atomic := table waiting idle "s" "main" [] (.resume 3)
  have hfails : (waiting.call "s" "main" [] idle (.resume 3)).1.isOk = false := by decide +kernel
  have htext : text? (waiting.call "s" "main" [] idle (.resume 3)).2 "s" = some
      ("\x7b\"next_id\":0,\"pending_tasks\":\x7b\x7d,\"run_queue\":[]," ++
        "\"sessions\":\x7b\x7d,\"top_level\":null\x7d") := by decide +kernel
  -- the call is not run again
  generalize waiting.call "s" "main" [] idle (.resume 3) = found at atomic hfails htext
  obtain ⟨answer, after⟩ := found
  have hsaves : (Call.resume 3).Saves answer := by
    by_contra hnot
    obtain rfl : after = idle := atomic.refused hnot
    exact absurd (show text? idle "s" = _ from htext) (by decide +kernel)
  obtain ⟨w, j, hleaves, hj, hsaved⟩ := atomic.saved hsaves
  obtain ⟨result, rfl⟩ | ⟨_, waits, -, rfl⟩ := hsaves
  · cases hfails
  · exact ⟨waits, after, rfl, atomic.others (by decide), htext, ⟨w, j, hleaves, hj, hsaved⟩,
      paths "d" "s" "other" _ _ rfl rfl (by decide)⟩

end Invocation

end Teal
