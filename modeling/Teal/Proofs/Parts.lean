import Teal.Machine.Call
import Teal.Machine.Operate

/-!
# Parts of values

A value occurs in another as an item of a list, as a key or a value of a hash, or captured by a
closure, at any depth. Functions, closures, futures and doubles that are not finite are never
the outcome of a calculation: an operation can only pass them on. So whatever of that kind
occurs in a result occurs in an operand already.

## Main definitions

* `Value.Part`: a value occurs in another.
* `Value.FutureFree`: no future occurs in a value.
* `Value.passedOn`: the values that operations can only pass on.

## Main statements

* `Operator.part_apply`, `Builtin.part_call`, `part_argumentBindings`: what occurs in the result
  of an operator, of a builtin and in the bindings of a call.
* `argumentBindings_induct`: how the bindings of a call come about.
-/

namespace Teal

theorem exists_of_bind_eq_ok {α β ε : Type} {x : Except ε α} {f : α → Except ε β} {b : β}
    (h : x >>= f = .ok b) : ∃ a, x = .ok a ∧ f a = .ok b := by
  cases x with
  | error e => cases h
  | ok a => exact ⟨a, rfl, h⟩

namespace Value

inductive Part (u : Value) : Value → Prop
  | self : Part u u
  | item {v : Value} {items : List Value} : v ∈ items → Part u v → Part u (.list items)
  | key {p : Value × Value} {pairs : List (Value × Value)} :
      p ∈ pairs → Part u p.1 → Part u (.hash pairs)
  | value {p : Value × Value} {pairs : List (Value × Value)} :
      p ∈ pairs → Part u p.2 → Part u (.hash pairs)
  | captured {e : String × Value} {function : String} {entries : List (String × Value)} :
      e ∈ entries → Part u e.2 → Part u (.closure function entries)

def Within (u : Value) (vs : List Value) : Prop :=
  ∃ v ∈ vs, Part u v

def Bound (u : Value) (entries : List (String × Value)) : Prop :=
  ∃ e ∈ entries, Part u e.2

def FutureFree (v : Value) : Prop :=
  ∀ t, ¬ Part (.future t) v

/-- The values that an operation can only pass on. -/
def passedOn : Value → Bool
  | .function _ | .closure _ _ | .future _ => true
  | .float x => !x.isFinite
  | _ => false

@[simp] theorem part_null {u : Value} : Part u .null ↔ u = .null :=
  ⟨fun h => by cases h; rfl, fun h => h ▸ .self⟩

@[simp] theorem part_boolean {u : Value} {b : Bool} : Part u (.boolean b) ↔ u = .boolean b :=
  ⟨fun h => by cases h; rfl, fun h => h ▸ .self⟩

@[simp] theorem part_integer {u : Value} {n : Int64} : Part u (.integer n) ↔ u = .integer n :=
  ⟨fun h => by cases h; rfl, fun h => h ▸ .self⟩

@[simp] theorem part_float {u : Value} {x : Float} : Part u (.float x) ↔ u = .float x :=
  ⟨fun h => by cases h; rfl, fun h => h ▸ .self⟩

@[simp] theorem part_string {u : Value} {s : String} : Part u (.string s) ↔ u = .string s :=
  ⟨fun h => by cases h; rfl, fun h => h ▸ .self⟩

@[simp] theorem part_symbol {u : Value} {s : String} : Part u (.symbol s) ↔ u = .symbol s :=
  ⟨fun h => by cases h; rfl, fun h => h ▸ .self⟩

@[simp] theorem part_function {u : Value} {s : String} : Part u (.function s) ↔ u = .function s :=
  ⟨fun h => by cases h; rfl, fun h => h ▸ .self⟩

@[simp] theorem part_future {u : Value} {t : TaskId} : Part u (.future t) ↔ u = .future t :=
  ⟨fun h => by cases h; rfl, fun h => h ▸ .self⟩

theorem part_list {u : Value} {items : List Value} :
    Part u (.list items) ↔ u = .list items ∨ Within u items := by
  constructor
  · intro h
    cases h with
    | self => exact .inl rfl
    | item hv h => exact .inr ⟨_, hv, h⟩
  · rintro (rfl | ⟨v, hv, h⟩)
    · exact .self
    · exact .item hv h

theorem part_hash {u : Value} {pairs : List (Value × Value)} :
    Part u (.hash pairs) ↔ u = .hash pairs ∨ ∃ p ∈ pairs, Part u p.1 ∨ Part u p.2 := by
  constructor
  · intro h
    cases h with
    | self => exact .inl rfl
    | key hp h => exact .inr ⟨_, hp, .inl h⟩
    | value hp h => exact .inr ⟨_, hp, .inr h⟩
  · rintro (rfl | ⟨p, hp, h | h⟩)
    · exact .self
    · exact .key hp h
    · exact .value hp h

theorem part_closure {u : Value} {function : String} {entries : List (String × Value)} :
    Part u (.closure function entries) ↔ u = .closure function entries ∨ Bound u entries := by
  constructor
  · intro h
    cases h with
    | self => exact .inl rfl
    | captured he h => exact .inr ⟨_, he, h⟩
  · rintro (rfl | ⟨e, he, h⟩)
    · exact .self
    · exact .captured he h

@[simp] theorem within_nil {u : Value} : ¬ Within u [] := by
  simp [Within]

@[simp] theorem within_cons {u v : Value} {vs : List Value} :
    Within u (v :: vs) ↔ Part u v ∨ Within u vs := by
  simp [Within]

@[simp] theorem within_append {u : Value} {vs ws : List Value} :
    Within u (vs ++ ws) ↔ Within u vs ∨ Within u ws := by
  simp [Within, or_and_right, exists_or]

theorem Within.mono {u : Value} {vs ws : List Value} (h : Within u vs) (sub : vs ⊆ ws) :
    Within u ws := by
  obtain ⟨v, hv, hu⟩ := h
  exact ⟨v, sub hv, hu⟩

@[simp] theorem bound_nil {u : Value} : ¬ Bound u [] := by
  simp [Bound]

theorem bound_insert {u : Value} {b : Bindings} {name : String} {v : Value}
    (h : Bound u (b.insert name v)) : Part u v ∨ Bound u b := by
  obtain ⟨e, he, hu⟩ := h
  rcases Table.mem_keys_insert he with rfl | he
  · exact .inl hu
  · exact .inr ⟨e, he, hu⟩

theorem bound_of_get? {u v : Value} {b : Bindings} {name : String}
    (h : b.get? name = some v) (hu : Part u v) : Bound u b := by
  induction b with
  | nil => simp at h
  | cons entry rest ih =>
    obtain ⟨k, x⟩ := entry
    simp only [Table.get?_cons] at h
    split at h
    · cases h
      exact ⟨_, List.mem_cons_self, hu⟩
    · obtain ⟨e, he, hu⟩ := ih h
      exact ⟨e, List.mem_cons_of_mem _ he, hu⟩

/-- What is passed on is nothing that a calculation gives: not an integer, for example. -/
theorem passedOn_ne {u v : Value} (hu : u.passedOn) (hv : v.passedOn = false) : u ≠ v := by
  rintro rfl
  simp [hu] at hv

end Value

namespace Operator

open Value

variable {u a b v : Value}

theorem part_checked {n : Int} (hu : u.passedOn) (h : checked n = .ok v) : ¬ Part u v := by
  unfold checked at h
  split at h <;> cases h
  simpa using passedOn_ne hu rfl

theorem part_finite {x : Float} (hu : u.passedOn) (h : finite x = .ok v) : ¬ Part u v := by
  unfold finite at h
  split at h
  · next hx =>
    cases h
    simpa using passedOn_ne hu (by simp [passedOn, hx])
  · cases h

theorem part_onIntegers {op : Arithmetic} {m n : Int64} (hu : u.passedOn)
    (h : onIntegers op m n = .ok v) : ¬ Part u v := by
  cases op <;> simp only [onIntegers] at h
  case div =>
    split at h
    · cases h
    · exact part_checked hu h
  all_goals exact part_checked hu h

theorem part_onFloats {op : Arithmetic} {x y : Float} (hu : u.passedOn)
    (h : onFloats op x y = .ok v) : ¬ Part u v := by
  cases op <;> simp only [onFloats] at h
  case div =>
    split at h
    · cases h
    · exact part_finite hu h
  all_goals exact part_finite hu h

theorem part_join (hu : u.passedOn) (h : join a b = .ok v) (hv : Part u v) :
    Part u a ∨ Part u b := by
  unfold join at h
  split at h
  · cases h
    exact absurd (part_string.mp hv) (passedOn_ne hu rfl)
  · cases h
    rcases part_list.mp hv with e | h
    · exact absurd e (passedOn_ne hu rfl)
    · exact (within_append.mp h).imp (fun h => part_list.mpr (.inr h))
        fun h => part_list.mpr (.inr h)
  · cases h

theorem part_calculate {op : Arithmetic} (hu : u.passedOn) (h : calculate op a b = .ok v)
    (hv : Part u v) : Part u a ∨ Part u b := by
  unfold calculate at h
  split at h
  · exact absurd hv (part_onIntegers hu h)
  · exact absurd hv (part_onFloats hu h)
  · exact absurd hv (part_onFloats hu h)
  · exact absurd hv (part_onFloats hu h)
  · split at h
    · exact part_join hu h hv
    · cases h

theorem part_compared {answer : Option Bool} (hu : u.passedOn)
    (h : compared a b answer = .ok v) : ¬ Part u v := by
  unfold compared at h
  split at h <;> cases h
  simpa using passedOn_ne hu rfl

/-- What occurs in the value of an operator occurs in one of its operands. -/
theorem part_apply {op : Operator} (hu : u.passedOn) (h : op.apply a b = .ok v)
    (hv : Part u v) : Part u a ∨ Part u b := by
  cases op <;> simp only [apply] at h
  case eq | and | or =>
    cases h
    exact absurd (part_boolean.mp hv) (passedOn_ne hu rfl)
  case lt | gt => exact absurd hv (part_compared hu h)
  all_goals exact part_calculate hu h hv

end Operator

namespace Value

variable {u : Value}

theorem part_putPair {key value : Value} {pairs : List (Value × Value)} {p : Value × Value}
    (hp : p ∈ putPair key value pairs) (hu : Part u p.1 ∨ Part u p.2) :
    Part u key ∨ Part u value ∨ ∃ q ∈ pairs, Part u q.1 ∨ Part u q.2 := by
  induction pairs with
  | nil =>
    obtain rfl : p = (key, value) := by simpa [putPair] using hp
    exact hu.imp_right .inl
  | cons head rest ih =>
    obtain ⟨k, v⟩ := head
    simp only [putPair] at hp
    split at hp
    · rcases List.mem_cons.mp hp with rfl | hp
      · rcases hu with hu | hu
        · exact .inr (.inr ⟨(k, v), List.mem_cons_self, .inl hu⟩)
        · exact .inr (.inl hu)
      · exact .inr (.inr ⟨p, List.mem_cons_of_mem _ hp, hu⟩)
    · rcases List.mem_cons.mp hp with rfl | hp
      · exact .inr (.inr ⟨_, List.mem_cons_self, hu⟩)
      · refine (ih hp).imp_right (Or.imp_right ?_)
        rintro ⟨q, hq, h⟩
        exact ⟨q, List.mem_cons_of_mem _ hq, h⟩

theorem part_putPairs {pairs : List (Value × Value)} {args : List Value} {p : Value × Value}
    (hp : p ∈ putPairs pairs args) (hu : Part u p.1 ∨ Part u p.2) :
    Within u args ∨ ∃ q ∈ pairs, Part u q.1 ∨ Part u q.2 := by
  fun_induction putPairs pairs args with
  | case1 pairs key value rest ih =>
    rcases ih hp with h | ⟨q, hq, h⟩
    · exact .inl (by simp [h])
    · rcases part_putPair hq h with h | h | h
      · exact .inl (by simp [h])
      · exact .inl (by simp [h])
      · exact .inr h
  | case2 => exact .inr ⟨p, hp, hu⟩

theorem part_hashOf {args : List Value} (hu : u.passedOn) (h : Part u (.hash (hashOf args))) :
    Within u args := by
  rcases part_hash.mp h with rfl | ⟨p, hp, h⟩
  · cases hu
  · exact (part_putPairs hp h).resolve_right (by simp)

end Value

open Value

variable {u : Value}

/-- What occurs in the value of a builtin occurs in one of its arguments. -/
theorem Builtin.part_call {name : String} {b : Builtin} {args keywords : List Value} {v : Value}
    {lines : List String} (hu : u.passedOn) (h : b.call name args keywords = .ok (v, lines))
    (hv : Part u v) : Within u args := by
  unfold Builtin.call at h
  cases hk : rejectKeywords name keywords with
  | error e => simp [hk, bind, Except.bind] at h
  | ok _ =>
    simp only [hk, bind, Except.bind] at h
    cases b with
    | list =>
      cases h
      exact (part_list.mp hv).resolve_left (passedOn_ne hu rfl)
    | hash =>
      simp only [invoke] at h
      split at h
      · cases h
        exact part_hashOf hu hv
      · cases h
    | print =>
      cases h
      cases args with
      | nil => exact absurd (part_null.mp hv) (passedOn_ne hu rfl)
      | cons a rest => exact ⟨a, List.mem_cons_self, hv⟩

theorem Claims.openParams_subset (params : List String) (c : Claims) :
    c.openParams params ⊆ params := by
  unfold Claims.openParams
  induction c.claimed generalizing params with
  | nil => exact List.Subset.refl _
  | cons name rest ih => exact fun param hparam => List.mem_of_mem_erase (ih _ hparam)

/-- Sharing out arguments binds parameters to them, and the rest of them is kept. -/
theorem Claims.addAll_induct {P : Bindings → Prop} {function : String} {params : List String}
    {c d : Claims} {entries : List (Value × Value)} {args : List Value}
    (h : c.addAll function params entries = .ok d) (hargs : ∀ entry ∈ entries, entry.1 ∈ args)
    (insert : ∀ param ∈ params, ∀ v ∈ args, ∀ b : Bindings, P b → P (b.insert param v))
    (hc : P c.bindings ∧ c.positional ⊆ args) : P d.bindings ∧ d.positional ⊆ args := by
  induction entries generalizing c with
  | nil =>
    cases h
    exact hc
  | cons entry rest ih =>
    obtain ⟨hentry, hrest⟩ := List.forall_mem_cons.mp hargs
    obtain ⟨c', hadd, h⟩ := exists_of_bind_eq_ok h
    refine ih h hrest ?_
    unfold Claims.add at hadd
    split at hadd
    · cases hadd
      exact ⟨hc.1, List.append_subset.mpr ⟨hc.2, by simpa using hentry⟩⟩
    · grind
    · grind
    · cases hadd

theorem bindAll_induct {P : Bindings → Prop} {entries : List (String × Value)} {b : Bindings}
    (insert : ∀ entry ∈ entries, ∀ b : Bindings, P b → P (b.insert entry.1 entry.2)) (hb : P b) :
    P (bindAll b entries) := by
  induction entries generalizing b with
  | nil => exact hb
  | cons entry rest ih =>
    obtain ⟨hentry, hrest⟩ := List.forall_mem_cons.mp insert
    exact ih hrest (hentry b hb)

/-- The bindings of a call are those captured with parameters bound to arguments. -/
theorem argumentBindings_induct {P : Bindings → Prop} {function : String} {params : List String}
    {captured b : Bindings} {args keywords : List Value}
    (h : argumentBindings function params captured args keywords = .ok b)
    (insert : ∀ param ∈ params, ∀ v ∈ args, ∀ b : Bindings, P b → P (b.insert param v))
    (hcaptured : P captured) : P b := by
  unfold argumentBindings at h
  split at h
  · cases h
  · obtain ⟨c, hc, h⟩ := exists_of_bind_eq_ok h
    dsimp only at h
    split at h <;> cases h
    have hstart : P captured ∧ ([] : List Value) ⊆ args := ⟨hcaptured, List.nil_subset _⟩
    obtain ⟨hbindings, hpositional⟩ :=
      Claims.addAll_induct hc (fun entry he => (List.of_mem_zip he).1) insert hstart
    refine bindAll_induct (fun entry hentry => ?_) hbindings
    obtain ⟨hopen, hv⟩ := List.of_mem_zip hentry
    exact insert _ (Claims.openParams_subset _ _ hopen) _ (hpositional hv)

/-- What the bindings of a call hold was captured or is in an argument. -/
theorem part_argumentBindings {function : String} {params : List String} {captured b : Bindings}
    {args keywords : List Value}
    (h : argumentBindings function params captured args keywords = .ok b) (hu : Bound u b) :
    Within u args ∨ Bound u captured := by
  refine argumentBindings_induct (P := fun b => Bound u b → Within u args ∨ Bound u captured) h
    (fun param _ v hv b ih hu => ?_) .inr hu
  rcases bound_insert hu with hu | hu
  · exact .inl ⟨v, hv, hu⟩
  · exact ih hu

/-- The bindings of an entry hold no futures if its arguments have none. -/
theorem not_bound_of_futureFree {function : String} {params : List String} {b : Bindings}
    {args keywords : List Value} (hargs : ∀ v ∈ args, v.FutureFree)
    (h : argumentBindings function params [] args keywords = .ok b) (t : TaskId) :
    ¬ Bound (.future t) b := by
  intro hbound
  obtain ⟨v, hv, hpart⟩ := (part_argumentBindings h hbound).resolve_right (by simp)
  exact hargs v hv t hpart

end Teal
