import Mathlib.Data.List.Nodup
import Mathlib.Data.List.Perm.Basic
import Teal.Proofs.Induction
import Teal.Proofs.Itemwise
import Teal.Proofs.Provenance
import Teal.World.Document

/-!
# Documents are read back

What is written as a document is read back from it, and only a double that is not finite stops
the writing. This is said once for all that is written, by `Writes`; lists, records and tables
of numbered entries inherit it from their parts.

## Main definitions

* `Writes`: what writing something gives.
* `World.Shows`: a value occurs in a world.
* `World.Regular`: tables in order, numbers of 64 bits.

## Main statements

* `Value.writes`, `Session.writes`, `World.writes`: values, sessions and worlds.
* `documents_read_back`: when values and worlds are written, and that they are read back.
-/

namespace Teal

variable {α β γ δ : Type}

/-- What writing something gives: a document from which it is read back, unless it has a double
that is not finite; such a one is then reported. -/
def Writes (P : Float → Prop) (r : β → Option α) (a : α) : Except NonFinite β → Prop
  | .ok j => (∀ x, P x → x.isFinite = true) ∧ r j = some a
  | .error e => P e.value ∧ e.value.isFinite = false

namespace Writes

variable {P Q R : Float → Prop} {r : β → Option α} {q : δ → Option γ} {a : α} {c : γ}
  {written : Except NonFinite β}

theorem map (h : Writes P r a written) (g : β → δ) (hfloats : ∀ x, Q x ↔ P x)
    (hread : ∀ j, r j = some a → q (g j) = some c) : Writes Q q c (written.map g) := by
  cases written with
  | ok j => exact ⟨fun x hx => h.1 x ((hfloats x).mp hx), hread j h.2⟩
  | error e => exact ⟨(hfloats _).mpr h.1, h.2⟩

theorem imp {q : β → Option γ} (h : Writes P r a written) (hfloats : ∀ x, Q x ↔ P x)
    (hread : ∀ j, r j = some a → q j = some c) : Writes Q q c written := by
  have hmap : written.map id = written := by cases written <;> rfl
  exact hmap ▸ h.map id hfloats hread

/-- What has no doubles is written. -/
theorem plain {j : β} (h : r j = some a) (hfloats : ∀ x, ¬ P x) : Writes P r a (.ok j) :=
  ⟨fun x hx => absurd hx (hfloats x), h⟩

/-- Two parts written one after the other. -/
theorem bind {next : β → Except NonFinite δ} (h : Writes P r a written)
    (hnext : ∀ j, r j = some a → Writes Q q c (next j)) (hfloats : ∀ x, R x ↔ P x ∨ Q x) :
    Writes R q c (written >>= next) := by
  cases written with
  | error e => exact ⟨(hfloats _).mpr (.inl h.1), h.2⟩
  | ok j =>
    specialize hnext j h.2
    change Writes R q c (next j)
    cases hj : next j with
    | error e =>
      rw [hj] at hnext
      exact ⟨(hfloats _).mpr (.inr hnext.1), hnext.2⟩
    | ok k =>
      rw [hj] at hnext
      exact ⟨fun x hx => ((hfloats x).mp hx).elim (h.1 x) (hnext.1 x), hnext.2⟩

/-- The last part of several. -/
theorem last {g : β → δ} (h : Writes P r a written)
    (hread : ∀ j, r j = some a → q (g j) = some c) :
    Writes P q c (written >>= fun j => .ok (g j)) :=
  h.bind (fun j hj => plain (hread j hj) fun _ => id) (by simp)

/-- Items written one after the other. -/
theorem mapM {P : α → Float → Prop} {write : α → Except NonFinite β} (items : List α)
    (h : ∀ a ∈ items, Writes (P a) r a (write a)) :
    Writes (fun x => ∃ a ∈ items, P a x) (List.mapM r) items (items.mapM write) := by
  induction items with
  | nil => exact plain (by simp) (by simp)
  | cons a items ih =>
    have tail := ih fun b hb => h b (by simp [hb])
    rw [List.mapM_cons]
    refine bind (Q := fun x => ∃ a ∈ items, P a x) (h a (by simp)) (fun j hj => ?_) (by simp)
    refine tail.last fun js hjs => ?_
    simp [List.mapM_cons, hj, hjs]

/-- What has finite doubles only is written. -/
theorem isOk (h : Writes P r a written) (hfinite : ∀ x, P x → x.isFinite = true) :
    ∃ j, written = .ok j ∧ r j = some a := by
  cases written with
  | ok j => exact ⟨j, rfl, h.2⟩
  | error e => exact absurd (hfinite _ h.1) (by simp [h.2])

/-- Writing stops at a double that is not finite, and only there. -/
theorem exists_error_iff (h : Writes P r a written) :
    (∃ e, written = .error e) ↔ ∃ x, P x ∧ x.isFinite = false := by
  constructor
  · rintro ⟨e, rfl⟩
    exact ⟨e.value, h⟩
  · rintro ⟨x, hx, hinfinite⟩
    cases written with
    | error e => exact ⟨e, rfl⟩
    | ok j => exact absurd (h.1 x hx) (by simp [hinfinite])

theorem read_of_ok (h : Writes P r a written) {j : β} (hj : written = .ok j) : r j = some a := by
  rw [hj] at h
  exact h.2

end Writes

/-! ## Values -/

namespace Value

theorem itemsToJson_eq (items : List Value) : itemsToJson items = items.mapM toJson := by
  induction items with
  | nil => rfl
  | cons v rest ih =>
    rw [itemsToJson, List.mapM_cons, ih]
    rfl

theorem itemsOfJson?_eq (js : List Json) : itemsOfJson? js = js.mapM ofJson? := by
  induction js with
  | nil => rfl
  | cons j rest ih =>
    rw [itemsOfJson?, List.mapM_cons, ih]
    cases ofJson? j <;> cases rest.mapM ofJson? <;> rfl

def pairToJson (p : Value × Value) : Except NonFinite Json := do
  let key ← toJson p.1
  let value ← toJson p.2
  .ok (.arr [key, value])

def pairOfJson? : Json → Option (Value × Value)
  | .arr [key, value] => (ofJson? key).bind fun k => (ofJson? value).map (k, ·)
  | _ => none

theorem pairsToJson_eq (pairs : List (Value × Value)) :
    pairsToJson pairs = pairs.mapM pairToJson := by
  induction pairs with
  | nil => rfl
  | cons p rest ih =>
    rw [pairsToJson, List.mapM_cons, ih, pairToJson]
    cases toJson p.1 with
    | error e => rfl
    | ok key => cases toJson p.2 <;> rfl

theorem pairsOfJson?_eq (js : List Json) : pairsOfJson? js = js.mapM pairOfJson? := by
  induction js with
  | nil => rfl
  | cons j rest ih =>
    rw [List.mapM_cons]
    match j with
    | .arr [key, value] =>
      simp only [pairsOfJson?, pairOfJson?, ih]
      cases ofJson? key <;> cases ofJson? value <;> cases rest.mapM pairOfJson? <;> rfl
    | .arr [] | .arr [_] | .arr (_ :: _ :: _ :: _) => rfl
    | .null | .bool _ | .int _ | .float _ | .str _ | .obj _ => rfl

theorem entriesToJson_eq (entries : List (String × Value)) :
    entriesToJson entries = entries.mapM fun e => (toJson e.2).map fun j => (e.1, j) := by
  induction entries with
  | nil => rfl
  | cons e rest ih =>
    rw [entriesToJson, List.mapM_cons, ih]
    cases toJson e.2 <;> rfl

theorem entriesOfJson?_eq (fields : List (String × Json)) :
    entriesOfJson? fields = fields.mapM fun f => (ofJson? f.2).map fun v => (f.1, v) := by
  induction fields with
  | nil => rfl
  | cons f rest ih =>
    rw [entriesOfJson?, List.mapM_cons, ih]
    cases ofJson? f.2 with
    | none => rfl
    | some v => cases rest.mapM fun f => (ofJson? f.2).map fun v => (f.1, v) <;> rfl

@[simp] theorem kindOf?_typed (kind : Kind) (fields : List (String × Json)) :
    kindOf? (("type", .str kind.documented) :: fields) = some kind := by
  simp [kindOf?, Json.string?]

theorem ofJson?_typed (kind : Kind) (content : Json) :
    ofJson? (typed kind content) = ofContent? kind content := by
  simp [typed, ofJson?, ofFields?]

/-- The integers of 64 bits are in their range. -/
theorem toInt64?_toInt (n : Int64) : Numeral.toInt64? n.toInt = some n := by
  rw [Numeral.toInt64?, if_pos ⟨n.minValue_le_toInt, n.toInt_le⟩, Int64.ofInt_toInt]

theorem writes_entries {entries : List (String × Value)}
    (h : ∀ e ∈ entries, Writes (fun x => Part (.float x) e.2) ofJson? e.2 e.2.toJson) :
    Writes (fun x => Bound (.float x) entries) entriesOfJson? entries (entriesToJson entries) := by
  rw [entriesToJson_eq, funext entriesOfJson?_eq]
  refine Writes.mapM entries fun e he => (h e he).map _ (fun _ => .rfl) fun j hj => ?_
  simp [hj]

/-- A value is read back from its document. -/
theorem writes (v : Value) : Writes (fun x => Part (.float x) v) ofJson? v v.toJson := by
  induction v with
  | null =>
    refine .plain ?_ (by simp)
    simp [ofJson?, kindOf?, Json.string?, Kind.ofDocumented?, ofFields?]
  | boolean b => exact .plain (by simp [ofJson?_typed, ofContent?, ofScalar?]) (by simp)
  | integer n =>
    exact .plain (by simp [ofJson?_typed, ofContent?, ofScalar?, toInt64?_toInt]) (by simp)
  | float x =>
    rw [toJson]
    split
    · next h => exact ⟨by simp [h], by simp [ofJson?_typed, ofContent?, ofScalar?]⟩
    · next h => exact ⟨by simp, by simpa using h⟩
  | string s | symbol s | function s =>
    exact .plain (by simp [ofJson?_typed, ofContent?, ofScalar?]) (by simp)
  | future t =>
    exact .plain (by simp [ofJson?_typed, Json.nat, ofContent?, ofScalar?, Json.nat?]) (by simp)
  | list items ih =>
    rw [toJson, itemsToJson_eq]
    refine (Writes.mapM items ih).map _ (by simp [part_list, Within]) fun js hjs => ?_
    rw [ofJson?_typed, ofContent?, itemsOfJson?_eq, hjs]
    rfl
  | hash pairs ih =>
    rw [toJson, pairsToJson_eq]
    refine (Writes.mapM (P := fun p x => Part (.float x) p.1 ∨ Part (.float x) p.2)
      (r := pairOfJson?) pairs fun p hp => ?_).map _ (by simp [part_hash]) fun js hjs => ?_
    · obtain ⟨hkey, hvalue⟩ := ih p hp
      refine hkey.bind (fun key hk => hvalue.last fun value hv => ?_) (fun _ => .rfl)
      simp [pairOfJson?, hk, hv]
    · rw [ofJson?_typed, ofContent?, pairsOfJson?_eq, hjs]
      rfl
  | closure name captured ih =>
    rw [toJson]
    refine (writes_entries ih).map _ (by simp [part_closure]) fun fields hfields => ?_
    simp [ofJson?_typed, ofContent?, Json.required, Json.string?, capturedOf?, bindingsOfJson?,
      hfields]

end Value

/-! ## Sessions and tasks -/

namespace Json

@[simp] theorem nat?_nat (n : Nat) : (nat n).nat? = some n := by
  simp [nat, nat?]

@[simp] theorem nats?_nats (ns : List Nat) : (arr (ns.map nat)).nats? = some ns := by
  induction ns with
  | nil => rfl
  | cons n ns ih =>
    simp only [nats?, array?, Option.bind_some] at ih ⊢
    simp [ih]

@[simp] theorem strings?_strings (items : List String) : (strings items).strings? = some items := by
  induction items with
  | nil => rfl
  | cons s items ih =>
    simp only [strings, strings?, array?, Option.bind_some] at ih ⊢
    simp [string?, ih]

/-- Nothing is written as null, and is read back. -/
theorem optional_ofOption {fields : Table String Json} {name : String} {n : Option Nat}
    (h : Table.get? fields name = some (ofOption nat n)) : optional fields name nat? = some n := by
  cases n with
  | none => simp [optional, h, ofOption]
  | some n => simp [optional, h, ofOption, nat, nat?]

end Json

theorem Activation.writes (f : Activation) :
    Writes (fun x => Value.Bound (.float x) f.bindings) ofJson? f f.toJson := by
  refine (Value.writes_entries fun e _ => e.2.writes).last fun fields hfields => ?_
  have hreturn : Json.optional [("bindings", .obj fields), ("function", .str f.function),
      ("return_ip", .ofOption .nat f.returnIp)] "return_ip" Json.nat? = some f.returnIp :=
    Json.optional_ofOption (by simp)
  simp [ofJson?, Json.record?, Json.required, Json.string?, Value.bindingsOfJson?, hfields,
    hreturn]

theorem Session.Status.ofJson?_toJson (status : Session.Status) :
    ofJson? status.toJson = some status := by
  cases status <;>
    simp [toJson, ofJson?, Json.tagged?, Json.string?, Json.record?, Json.required]

def TaskState.Shows (state : TaskState) (u : Value) : Prop :=
  ∃ v, state = .resolved v ∧ u.Part v

theorem TaskState.writes (state : TaskState) :
    Writes (fun x => state.Shows (.float x)) ofJson? state state.toJson := by
  cases state with
  | pending waiters =>
    refine .plain ?_ (by simp [Shows])
    simp [ofJson?, Json.tagged?, Json.string?, Json.record?, Json.required]
  | resolved v =>
    refine v.writes.map _ (by simp [Shows]) fun j hj => ?_
    simp [ofJson?, Json.tagged?, Json.string?, Json.record?, Json.required, hj]
  | failed message =>
    refine .plain ?_ (by simp [Shows])
    simp [ofJson?, Json.tagged?, Json.string?, Json.record?, Json.required]

namespace Session

def resultOfJson? (j : Json) : Option (Option Value) :=
  Json.optional [("result", j)] "result" Value.ofJson?

theorem writes_result (result : Option Value) :
    Writes (fun x => ∃ v, result = some v ∧ Value.Part (.float x) v) resultOfJson? result
      (resultToJson result) := by
  cases result with
  | none => exact .plain rfl (by simp)
  | some v =>
    refine v.writes.imp (by simp) fun j hj => ?_
    cases j with
    | null => cases hj
    | _ => simp [resultOfJson?, Json.optional, hj]

/-- A session is read from a record with its fields. -/
theorem ofJson?_of_fields {s : Session} {fields : Table String Json}
    (hid : Json.required fields "id" Json.nat? = some s.id)
    (hip : Json.required fields "instruction_pointer" Json.nat? = some s.ip)
    (hstack : Json.required fields "operand_stack" valuesOfJson? = some s.stack.reverse)
    (hactivations : Json.required fields "call_frames" activationsOfJson? =
      some s.activations.reverse)
    (hstatus : Json.required fields "status" Status.ofJson? = some s.status)
    (hresult : Json.optional fields "result" Value.ofJson? = some s.result)
    (houtput : Json.defaulted fields "output" [] Json.strings? = some s.output) :
    ofJson? (.obj fields) = some s := by
  simp [ofJson?, Json.record?, hid, hip, hstack, hactivations, hstatus, hresult, houtput]

/-- A session is read back from its document. -/
theorem writes (s : Session) : Writes (fun x => s.Shows (.float x)) ofJson? s s.toJson := by
  unfold toJson
  rw [Value.itemsToJson_eq]
  refine Writes.bind (Q := fun x => (∃ a ∈ s.activations, Value.Bound (.float x) a.bindings) ∨
    ∃ v, s.result = some v ∧ Value.Part (.float x) v) (.mapM _ fun v _ => v.writes)
    (fun stack hstack => ?_) ?_
  · refine (Writes.mapM _ fun a _ => a.writes).bind
      (fun activations hactivations => (writes_result s.result).last fun result hresult => ?_)
      (by simp)
    exact ofJson?_of_fields (Json.nat?_nat s.id) (Json.nat?_nat s.ip)
      ((Value.itemsOfJson?_eq stack).trans hstack) hactivations s.status.ofJson?_toJson hresult
      (Json.strings?_strings s.output)
  · simp [Shows, Holds, Value.Within, or_assoc]

end Session

/-! ## Worlds -/

/-- A number is read back from its name. -/
theorem TaskId.ofName?_repr {id : TaskId} (h : id < UInt64.size) :
    ofName? (Nat.repr id) = some id := by
  have hdigits : (Nat.toDigits 10 id).all Char.isDigit = true :=
    List.all_eq_true.mpr fun c hc => Nat.isDigit_of_mem_toDigits (by decide) (by decide) hc
  have hzero : ¬ ((Nat.toDigits 10 id).length > 1 ∧ (Nat.toDigits 10 id).head? = some '0') := by
    rintro ⟨hlength, hhead⟩
    by_cases hid : 0 < id
    · exact Numeral.head?_toDigits hid hhead
    · simp [Nat.eq_zero_of_not_pos hid] at hlength
  simp only [ofName?, Nat.toList_repr]
  rw [if_neg, Numeral.natOfDigits_toDigits, if_pos h]
  simpa [hdigits, Nat.toDigits_ne_nil] using hzero

/-- The entries of a table are read back from the object of their numbers, in which they stand in
the order of their names. -/
theorem Json.writes_numbered {P : α → Float → Prop} {read : Json → Option α}
    {write : α → Except NonFinite Json} {table : Table TaskId α} (ordered : table.Ordered)
    (hid : ∀ e ∈ table, e.1 < UInt64.size) (h : ∀ a, Writes (P a) read a (write a)) :
    Writes (fun x => ∃ e ∈ table, P e.2 x) (fun entries => numbered? read (.numbered entries)) table
      (World.entriesToJson write table) := by
  let entry (field : String × Json) : Option (TaskId × α) :=
    (TaskId.ofName? field.1).bind fun id => (read field.2).map fun a => (id, a)
  let name (e : TaskId × Json) : String × Json := (Nat.repr e.1, e.2)
  have items := Writes.mapM (P := fun e => P e.2) (r := entry ∘ name) table fun e he =>
    (h e.2).map (q := entry ∘ name) (c := e) (e.1, ·) (fun _ => .rfl) fun j hj => by
      simp [entry, name, TaskId.ofName?_repr (hid e he), hj]
  refine items.imp (fun _ => .rfl) fun entries hentries => ?_
  have reads : List.Forall₂ (fun field e => entry field = some e) (entries.map name) table :=
    List.forall₂_map_left_iff.mpr (mapM_eq_some_iff.mp hentries)
  -- no name stands twice, since each gives the number of its entry
  have distinct : ((entries.map name).map Prod.fst).Nodup := by
    refine List.Nodup.of_map TaskId.ofName? ?_
    have : ((entries.map name).map Prod.fst).map TaskId.ofName? =
        (table.map Prod.fst).map some := by
      simp only [List.map_map, ← List.forall₂_eq_eq_eq, List.forall₂_map_left_iff,
        List.forall₂_map_right_iff]
      refine (List.forall₂_map_left_iff.mp reads).imp fun field e he => ?_
      obtain ⟨id, hid, a, -, rfl⟩ : ∃ id, TaskId.ofName? (name field).1 = some id ∧
          ∃ a, read field.2 = some a ∧ (id, a) = e := by
        simpa [entry, name, Option.bind_eq_some_iff] using he
      exact hid
    rw [this]
    exact (Table.nodup_keys ordered).map fun _ _ => Option.some.inj
  obtain ⟨found, hfound, perm⟩ :=
    List.perm_comp_forall₂ (Table.perm_ofEntries distinct) reads
  have hread : (Table.ofEntries (entries.map name)).mapM entry = some found :=
    mapM_eq_some_iff.mpr hfound
  simp only [numbered?, numbered, object, object?, Option.bind_some]
  rw [show (Table.ofEntries (entries.map fun e => (Nat.repr e.1, e.2))).mapM _ = some found from
    hread]
  exact congrArg some (Table.ofEntries_eq ordered perm)

def Session.values (s : Session) : List Value :=
  s.stack ++ s.activations.flatMap (fun a => a.bindings.map Prod.snd) ++ s.result.toList

theorem Session.within_of_shows {s : Session} {u : Value} (h : s.Shows u) : u.Within s.values := by
  rcases h with (⟨v, hv, h⟩ | ⟨a, ha, e, he, h⟩) | ⟨v, hv, h⟩
  · exact ⟨v, by simp [values, hv], h⟩
  · refine ⟨e.2, ?_, h⟩
    simp only [values, List.mem_append, List.mem_flatMap, List.mem_map]
    exact .inl (.inr ⟨a, ha, e, he, rfl⟩)
  · exact ⟨v, by simp [values, hv], h⟩

namespace World

def Shows (w : World) (u : Value) : Prop :=
  (∃ e ∈ w.sessions, e.2.Shows u) ∨ ∃ e ∈ w.tasks, e.2.Shows u

def values (w : World) : List Value :=
  w.sessions.flatMap (fun e => e.2.values) ++
    w.tasks.flatMap fun e => match e.2 with
      | .resolved v => [v]
      | _ => []

/-- What occurs in a world is within the values that stand there. -/
theorem within_of_shows {w : World} {u : Value} (h : w.Shows u) : u.Within w.values := by
  rcases h with ⟨e, he, h⟩ | ⟨e, he, v, hv, h⟩
  · obtain ⟨v, hv, h⟩ := Session.within_of_shows h
    exact ⟨v, List.mem_append_left _ (List.mem_flatMap.mpr ⟨e, he, hv⟩), h⟩
  · exact ⟨v, List.mem_append_right _ (List.mem_flatMap.mpr ⟨e, he, by simp [hv]⟩), h⟩

/-- The tables of a world are in order. -/
structure Sorted (w : World) : Prop where
  sessions : w.sessions.Ordered
  tasks : w.tasks.Ordered

/-- The tables of a world are in order, and its numbers have 64 bits. -/
structure Regular (w : World) : Prop extends w.Sorted where
  sessionId : ∀ e ∈ w.sessions, e.1 < UInt64.size
  taskId : ∀ e ∈ w.tasks, e.1 < UInt64.size

/-- A world is read back from its document. -/
theorem writes {w : World} (regular : w.Regular) :
    Writes (fun x => w.Shows (.float x)) ofJson? w w.toJson := by
  refine (Json.writes_numbered regular.sessions regular.sessionId Session.writes).bind
    (fun sessions hsessions => ((Json.writes_numbered regular.tasks regular.taskId
      TaskState.writes).last fun tasks htasks => ?_)) (fun _ => .rfl)
  have htop : Json.optional [("next_id", .nat w.nextId), ("pending_tasks", .numbered tasks),
      ("run_queue", .arr (w.queue.map .nat)), ("sessions", .numbered sessions),
      ("top_level", .ofOption .nat w.topLevel)] "top_level" Json.nat? = some w.topLevel :=
    Json.optional_ofOption (by simp)
  simp [ofJson?, Json.record?, Json.required, hsessions, htasks, htop]

end World

/-- Values are written unless a double somewhere in them is not finite, and are read back as they
were; so are worlds, whose tables are in order and have keys of 64 bits. -/
theorem documents_read_back :
    (∀ v : Value,
      ((∃ e, v.toJson = .error e) ↔ ∃ x, Value.Part (.float x) v ∧ x.isFinite = false) ∧
      ∀ j, v.toJson = .ok j → Value.ofJson? j = some v) ∧
    ∀ w : World, w.Regular →
      ((∃ e, w.toJson = .error e) ↔ ∃ x, w.Shows (.float x) ∧ x.isFinite = false) ∧
      ∀ j, w.toJson = .ok j → World.ofJson? j = some w := by
  refine ⟨fun v => ?_, fun w regular => ?_⟩
  · have written := v.writes
    exact ⟨written.exists_error_iff, fun j hj => written.read_of_ok hj⟩
  · have written := World.writes regular
    exact ⟨written.exists_error_iff, fun j hj => written.read_of_ok hj⟩

namespace World

/-- A world in which a session waits for a task; one of its activations has bound a closure that
captured a double. -/
def waitingWith (x : Float) : World where
  sessions :=
    [(0, { id := 0, ip := 3, stack := [.future 1], status := .suspended 1, output := ["begun"]
           activations := [⟨"f", [("g", .closure "lambda:0" [("x", .float x)])], some 7⟩,
             ⟨"main", [], none⟩] }),
      (1, { id := 1, ip := 9, activations := [⟨"task", [], none⟩] })]
  tasks := [(0, .pending []), (1, .pending [0])]
  queue := [1]
  topLevel := some 0
  nextId := 2

theorem waitingWith_regular (x : Float) : (waitingWith x).Regular := by
  refine ⟨⟨?_, ?_⟩, ?_, ?_⟩
  · simp [waitingWith, Table.Ordered]
  · simp [waitingWith, Table.Ordered]
  · simp [waitingWith, UInt64.size]
  · simp [waitingWith, UInt64.size]

theorem waitingWith_shows (x y : Float) : (waitingWith x).Shows (.float y) ↔ y = x := by
  simp [waitingWith, Shows, Session.Shows, Session.Holds, TaskState.Shows, Value.Within,
    Value.Bound, Value.part_closure]

/-- With a half, the world is written and read back; with an infinity, it is not written. -/
theorem documents_read_back_waitingWith :
    (∃ j, (waitingWith 0.5).toJson = .ok j ∧ ofJson? j = some (waitingWith 0.5)) ∧
      ∃ e, (waitingWith (1 / 0)).toJson = .error e := by
  obtain ⟨fails, reads⟩ := documents_read_back.2 (waitingWith 0.5) (waitingWith_regular _)
  obtain ⟨fails', -⟩ := documents_read_back.2 (waitingWith (1 / 0)) (waitingWith_regular _)
  refine ⟨?_, fails'.mpr ⟨1 / 0, (waitingWith_shows _ _).mpr rfl, by decide +kernel⟩⟩
  cases hj : (waitingWith 0.5).toJson with
  | ok j => exact ⟨j, rfl, reads j hj⟩
  | error e =>
    obtain ⟨x, hx, hinfinite⟩ := fails.mp ⟨e, hj⟩
    rw [(waitingWith_shows _ _).mp hx, show (0.5 : Float).isFinite = true by decide +kernel]
      at hinfinite
    cases hinfinite

end World

end Teal
