import Teal.Proofs.Documents
import Teal.Proofs.Texts
import Teal.Store

/-!
# Worlds that stores can keep

The text of a document tells it from any other only if its numbers have 64 bits, its objects are
in order and its doubles are read as they were written. The document of a world is like that if
the world is: its tables and bindings are in order, and its numbers have 64 bits. A store of texts
gives such a document back unless it nests too deep.

## Main definitions

* `Value.Kept`: what a value itself must be like.
* `World.Storable`: what a world must be like.
* `Store.Keeps`, `Store.KeepsTexts`: stores that give back a document, and stores of texts.

## Main statements

* `World.faithful`: the documents of storable worlds are faithful.
* `TableStore.keepsTexts`, `DirectoryStore.keepsTexts`: both stores keep texts.
-/

namespace Teal

variable {α β ε : Type}

/-! ## Lists of documents -/

theorem exists_of_map_eq_ok {x : Except ε α} {f : α → β} {b : β} (h : x.map f = .ok b) :
    ∃ a, x = .ok a ∧ f a = b := by
  cases x with
  | error e => cases h
  | ok a => exact ⟨a, rfl, Except.ok.inj h⟩

/-- The entries of a table keep their keys. -/
theorem keys_of_mapM {κ : Type} {write : α → Except ε β} {table : Table κ α} {found : Table κ β}
    (h : table.mapM (fun e => (write e.2).map fun j => (e.1, j)) = .ok found) :
    table.map Prod.fst = found.map Prod.fst := by
  rw [← List.forall₂_eq_eq_eq, List.forall₂_map_left_iff, List.forall₂_map_right_iff]
  refine (mapM_eq_ok_iff.mp h).imp fun e f hf => ?_
  obtain ⟨b, -, rfl⟩ := exists_of_map_eq_ok hf
  rfl

/-! ## Documents of values -/

/-- A record with its names in order. -/
theorem Json.Faithful.record (names : List String) {fields : List (String × Json)}
    (hnames : fields.map Prod.fst = names) (sorted : names.Pairwise (· < ·))
    (all : ∀ f ∈ fields, f.2.Faithful) : (Json.obj fields).Faithful :=
  .obj (List.pairwise_map.mp (hnames ▸ sorted)) all

/-- The document of a natural number of 64 bits. -/
theorem Json.Faithful.nat {n : Nat} (h : n < UInt64.size) : (Json.nat n).Faithful :=
  .int (Int.le_trans (by decide) (Int.natCast_nonneg n)) (Int.ofNat_lt.mpr h)

namespace Value

/-- A closure has its bindings in order, and a future has a number of 64 bits. -/
def Formed : Value → Prop
  | .closure _ captured => Table.Ordered captured
  | .future task => task < UInt64.size
  | _ => True

/-- What a value itself must be like so that its text tells it from any other. -/
structure Kept (v : Value) : Prop where
  formed : v.Formed
  exact {x : Float} : v = .float x → Json.Number.Exact x

theorem faithful_typed (kind : Kind) {content : Json} (h : content.Faithful) :
    (typed kind content).Faithful := by
  refine .record ["type", "value"] rfl (by decide) ?_
  simp [Json.Faithful.str, h]

/-- The document of bindings in order is faithful if those of their values are. -/
theorem faithful_entries {entries : List (String × Value)} {fields : List (String × Json)}
    (hfields : entriesToJson entries = .ok fields) (ordered : Table.Ordered entries)
    (h : ∀ e ∈ entries, ∀ j, e.2.toJson = .ok j → j.Faithful) : (Json.obj fields).Faithful := by
  rw [entriesToJson_eq] at hfields
  refine .obj ?_ fun f hf => ?_
  · have keys := keys_of_mapM hfields
    rw [Table.Ordered, ← List.pairwise_map] at ordered ⊢
    rwa [← keys]
  · obtain ⟨e, he, hj⟩ := exists_of_mem_right (mapM_eq_ok_iff.mp hfields) hf
    obtain ⟨j, hwritten, rfl⟩ := exists_of_map_eq_ok hj
    exact h e he j hwritten

/-- The document of a value is faithful if all its parts can be kept. -/
theorem faithful {v : Value} {j : Json} (h : ∀ u, Part u v → u.Kept) (hj : v.toJson = .ok j) :
    j.Faithful := by
  induction v generalizing j with
  | null =>
    cases hj
    exact .record ["type"] rfl (by decide) (by simp [Json.Faithful.str])
  | boolean b =>
    cases hj
    exact faithful_typed _ (.bool b)
  | integer n =>
    cases hj
    refine faithful_typed _ (.int n.minValue_le_toInt ?_)
    exact Int.lt_trans n.toInt_lt (by decide)
  | float x =>
    rw [toJson] at hj
    split at hj <;> cases hj
    exact faithful_typed _ (.float ((h _ .self).exact rfl))
  | string s | symbol s | function s =>
    cases hj
    exact faithful_typed _ (.str s)
  | future t =>
    cases hj
    exact faithful_typed _ (.nat (h _ .self).formed)
  | list items ih =>
    rw [toJson, itemsToJson_eq] at hj
    obtain ⟨js, hjs, rfl⟩ := exists_of_map_eq_ok hj
    refine faithful_typed _ (.arr fun j hj => ?_)
    obtain ⟨v, hv, hj⟩ := exists_of_mem_right (mapM_eq_ok_iff.mp hjs) hj
    exact ih v hv (fun u hu => h u (.item hv hu)) hj
  | hash pairs ih =>
    rw [toJson, pairsToJson_eq] at hj
    obtain ⟨js, hjs, rfl⟩ := exists_of_map_eq_ok hj
    refine faithful_typed _ (.arr fun j hj => ?_)
    obtain ⟨p, hp, hj⟩ := exists_of_mem_right (mapM_eq_ok_iff.mp hjs) hj
    obtain ⟨key, hkey, hj⟩ := exists_of_bind_eq_ok hj
    obtain ⟨value, hvalue, hj⟩ := exists_of_bind_eq_ok hj
    cases hj
    refine .arr ?_
    simp only [List.mem_cons, List.not_mem_nil, or_false, forall_eq_or_imp, forall_eq]
    exact ⟨(ih p hp).1 (fun u hu => h u (.key hp hu)) hkey,
      (ih p hp).2 (fun u hu => h u (.value hp hu)) hvalue⟩
  | closure name captured ih =>
    rw [toJson] at hj
    obtain ⟨fields, hfields, rfl⟩ := exists_of_map_eq_ok hj
    have content := faithful_entries hfields (h _ .self).formed fun e he j hj =>
      ih e he (fun u hu => h u (.captured he hu)) hj
    refine faithful_typed _ (.record ["captured", "function"] rfl (by decide) ?_)
    simp [Json.Faithful.str, content]

end Value

/-! ## Documents of worlds -/

structure Activation.Orderly (a : Activation) : Prop where
  bindings : a.bindings.Ordered
  returnIp : ∀ ip ∈ a.returnIp, ip < UInt64.size

structure Session.Orderly (s : Session) : Prop where
  ip : s.ip < UInt64.size
  activations : ∀ a ∈ s.activations, a.Orderly

structure Session.Storable (s : Session) : Prop extends s.Orderly where
  id : s.id < UInt64.size
  waits : ∀ t, s.status = .suspended t → t < UInt64.size

def TaskState.Storable (state : TaskState) : Prop :=
  ∀ waiters, state = .pending waiters → ∀ x ∈ waiters, x < UInt64.size

/-- The texts of a world's documents tell them from any other. -/
structure World.Storable (w : World) : Prop extends w.Regular where
  nextId : w.nextId < UInt64.size
  queue : ∀ id ∈ w.queue, id < UInt64.size
  topLevel : ∀ id ∈ w.topLevel, id < UInt64.size
  session : ∀ e ∈ w.sessions, e.2.Storable
  task : ∀ e ∈ w.tasks, e.2.Storable
  values : ∀ u, w.Shows u → u.Kept

namespace Json.Faithful

theorem ofOption {n : Option Nat} (h : ∀ m ∈ n, m < UInt64.size) :
    (Json.ofOption .nat n).Faithful := by
  cases n with
  | none => exact .null
  | some n => exact .nat (h n rfl)

theorem nats {ns : List Nat} (h : ∀ n ∈ ns, n < UInt64.size) :
    (Json.arr (ns.map .nat)).Faithful := by
  refine .arr fun j hj => ?_
  obtain ⟨n, hn, rfl⟩ := List.mem_map.mp hj
  exact .nat (h n hn)

theorem strings (items : List String) : (Json.strings items).Faithful := by
  refine .arr fun j hj => ?_
  obtain ⟨s, -, rfl⟩ := List.mem_map.mp hj
  exact .str s

/-- The entries of a table are put into the order of their names. -/
theorem numbered {entries : Table TaskId Json} (h : ∀ e ∈ entries, e.2.Faithful) :
    (Json.numbered entries).Faithful := by
  refine .obj (Table.ordered_ofEntries _) fun f hf => ?_
  obtain ⟨e, he, rfl⟩ := List.mem_map.mp (Table.mem_ofEntries hf)
  exact h e he

end Json.Faithful

theorem Activation.faithful {f : Activation} {j : Json} (orderly : f.Orderly)
    (h : ∀ u, Value.Bound u f.bindings → u.Kept) (hj : f.toJson = .ok j) : j.Faithful := by
  obtain ⟨fields, hfields, hj⟩ := exists_of_bind_eq_ok hj
  cases hj
  have content := Value.faithful_entries hfields orderly.bindings fun e he j hj =>
    Value.faithful (fun u hu => h u ⟨e, he, hu⟩) hj
  refine .record ["bindings", "function", "return_ip"] rfl (by decide) ?_
  simp [content, Json.Faithful.str, Json.Faithful.ofOption orderly.returnIp]

theorem Session.Status.faithful {status : Session.Status}
    (h : ∀ t, status = .suspended t → t < UInt64.size) : status.toJson.Faithful := by
  cases status with
  | suspended t =>
    refine .record ["on", "state"] rfl (by decide) ?_
    simp [Json.Faithful.str, Json.Faithful.nat (h t rfl)]
  | running | halted => exact .record ["state"] rfl (by decide) (by simp [Json.Faithful.str])
  | failed =>
    refine .record ["message", "state"] rfl (by decide) ?_
    simp [Json.Faithful.str]

theorem TaskState.faithful {state : TaskState} {j : Json} (storable : state.Storable)
    (h : ∀ u, state.Shows u → u.Kept) (hj : state.toJson = .ok j) : j.Faithful := by
  cases state with
  | pending waiters =>
    cases hj
    refine .record ["state", "waiters"] rfl (by decide) ?_
    simp [Json.Faithful.str, Json.Faithful.nats (storable waiters rfl)]
  | resolved v =>
    obtain ⟨content, hcontent, rfl⟩ := exists_of_map_eq_ok hj
    have content_faithful := Value.faithful (fun u hu => h u ⟨v, rfl, hu⟩) hcontent
    refine .record ["state", "value"] rfl (by decide) ?_
    simp [Json.Faithful.str, content_faithful]
  | failed message =>
    cases hj
    refine .record ["message", "state"] rfl (by decide) ?_
    simp [Json.Faithful.str]

theorem Session.faithful {s : Session} {j : Json} (storable : s.Storable)
    (h : ∀ u, s.Shows u → u.Kept) (hj : s.toJson = .ok j) : j.Faithful := by
  obtain ⟨stack, hstack, hj⟩ := exists_of_bind_eq_ok hj
  obtain ⟨activations, hactivations, hj⟩ := exists_of_bind_eq_ok hj
  obtain ⟨result, hresult, hj⟩ := exists_of_bind_eq_ok hj
  cases hj
  rw [Value.itemsToJson_eq] at hstack
  have stack_faithful : (Json.arr stack).Faithful := by
    refine .arr fun j hj => ?_
    obtain ⟨v, hv, hj⟩ := exists_of_mem_right (mapM_eq_ok_iff.mp hstack) hj
    exact Value.faithful (fun u hu => h u (.inl (.inl ⟨v, List.mem_reverse.mp hv, hu⟩))) hj
  have activations_faithful : (Json.arr activations).Faithful := by
    refine .arr fun j hj => ?_
    obtain ⟨a, ha, hj⟩ := exists_of_mem_right (mapM_eq_ok_iff.mp hactivations) hj
    have ha := List.mem_reverse.mp ha
    exact Activation.faithful (storable.activations a ha)
      (fun u hu => h u (.inl (.inr ⟨a, ha, hu⟩))) hj
  have result_faithful : result.Faithful := by
    cases hr : s.result with
    | none =>
      rw [hr] at hresult
      cases hresult
      exact .null
    | some v =>
      rw [hr] at hresult
      exact Value.faithful (fun u hu => h u (.inr ⟨v, hr, hu⟩)) hresult
  refine .record ["call_frames", "id", "instruction_pointer", "operand_stack", "output", "result",
    "status"] rfl (by decide) ?_
  simp [stack_faithful, activations_faithful, result_faithful, Json.Faithful.strings,
    Json.Faithful.nat storable.id, Json.Faithful.nat storable.ip,
    Session.Status.faithful storable.waits]

/-- The document of a storable world is faithful. -/
theorem World.faithful {w : World} {j : Json} (storable : w.Storable) (hj : w.toJson = .ok j) :
    j.Faithful := by
  obtain ⟨sessions, hsessions, hj⟩ := exists_of_bind_eq_ok hj
  obtain ⟨tasks, htasks, hj⟩ := exists_of_bind_eq_ok hj
  cases hj
  have sessions_faithful : (Json.numbered sessions).Faithful := by
    refine .numbered fun f hf => ?_
    obtain ⟨e, he, hf⟩ := exists_of_mem_right (mapM_eq_ok_iff.mp hsessions) hf
    obtain ⟨j, hj, rfl⟩ := exists_of_map_eq_ok hf
    exact Session.faithful (storable.session e he)
      (fun u hu => storable.values u (.inl ⟨e, he, hu⟩)) hj
  have tasks_faithful : (Json.numbered tasks).Faithful := by
    refine .numbered fun f hf => ?_
    obtain ⟨e, he, hf⟩ := exists_of_mem_right (mapM_eq_ok_iff.mp htasks) hf
    obtain ⟨j, hj, rfl⟩ := exists_of_map_eq_ok hf
    exact TaskState.faithful (storable.task e he)
      (fun u hu => storable.values u (.inr ⟨e, he, hu⟩)) hj
  refine .record ["next_id", "pending_tasks", "run_queue", "sessions", "top_level"] rfl
    (by decide) ?_
  simp [sessions_faithful, tasks_faithful, Json.Faithful.nat storable.nextId,
    Json.Faithful.nats storable.queue, Json.Faithful.ofOption storable.topLevel]

/-! ## Stores -/

namespace Store

/-- A store gives back a document that is saved under an id, whatever else it holds. -/
def Keeps (σ : Type) [Store σ] (id : String) (j : Json) : Prop :=
  ∀ store : σ, ∃ store', save store id j = .ok store' ∧ load store' id = .ok j

/-- A store keeps the texts of documents under an id, whatever else it holds: it takes each of
them, and reads back what does not nest too deep. -/
def KeepsTexts (σ : Type) [Store σ] (id : String) : Prop :=
  ∀ (store : σ) (j : Json), ∃ store', save store id j = .ok store' ∧ (j.Faithful →
    load store' id = if j.depth ≤ Json.maxDepth then .ok j else .error .malformed)

theorem KeepsTexts.keeps {σ : Type} [Store σ] {id : String} {j : Json} (h : KeepsTexts σ id)
    (faithful : j.Faithful) (hdepth : j.depth ≤ Json.maxDepth) : Keeps σ id j := by
  intro store
  obtain ⟨store', hsave, hload⟩ := h store j
  exact ⟨store', hsave, by rw [hload faithful, if_pos hdepth]⟩

end Store

theorem StoreError.parsed_of_parse {text : String} {j : Json}
    (h : Json.parse text = if j.depth ≤ Json.maxDepth then some j else none) :
    parsed text = if j.depth ≤ Json.maxDepth then .ok j else .error .malformed := by
  unfold parsed
  rw [h]
  by_cases hdepth : j.depth ≤ Json.maxDepth <;> simp [hdepth]

theorem TableStore.keepsTexts (id : String) : Store.KeepsTexts TableStore id := by
  intro store j
  refine ⟨store.save id j, rfl, fun faithful => ?_⟩
  simp only [Store.load, TableStore.load, TableStore.save, Table.get?_insert_self]
  exact StoreError.parsed_of_parse (Json.parse_compact faithful)

theorem DirectoryStore.keepsTexts {id name : String} (hid : fileName id = .ok name) :
    Store.KeepsTexts DirectoryStore id := by
  intro store j
  refine ⟨{ files := store.files.insert name j.pretty }, ?_, fun faithful => ?_⟩
  · simp [Store.save, DirectoryStore.save, hid, bind, Except.bind]
  · simp only [Store.load, DirectoryStore.load, hid, bind, Except.bind, Table.get?_insert_self]
    exact StoreError.parsed_of_parse (Json.parse_pretty faithful)

end Teal
