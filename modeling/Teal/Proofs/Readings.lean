import Teal.Proofs.Doubles
import Teal.Proofs.Documents
import Teal.Proofs.Upkeep

/-!
# What is read is finite

A text spells finite doubles and integers of 64 bits only: a double beyond the range is refused,
and dividing by powers of ten never leaves it. So the values and worlds that are read from a
document have finite doubles, whatever the document says.

## Main definitions

* `Json.Finite`: the numbers of a document are finite.
* `World.Finite`: the doubles of a world are finite.

## Main statements

* `Json.finite_of_parse`: what a text spells is finite.
* `World.finite_of_ofJson?`: the world of a finite document is finite.
-/

namespace Teal

variable {α β : Type}

inductive Json.Finite : Json → Prop
  | null : Finite .null
  | bool (b : Bool) : Finite (.bool b)
  | int {n : Int} : n.natAbs < UInt64.size → Finite (.int n)
  | float {x : Float} : x.isFinite = true → Finite (.float x)
  | str (s : String) : Finite (.str s)
  | arr {items : List Json} : (∀ j ∈ items, j.Finite) → Finite (.arr items)
  | obj {fields : List (String × Json)} : (∀ f ∈ fields, f.2.Finite) → Finite (.obj fields)

/-! ## Numbers -/

namespace Json.Number

open Double

theorem accumulate_lt {significand : Nat} (h : significand < UInt64.size) (digits : List Char) :
    (accumulate significand digits).1 < UInt64.size := by
  induction digits generalizing significand with
  | nil => exact h
  | cons c rest ih =>
    simp only [accumulate]
    split
    · next hnext => exact ih hnext
    · exact h

/-- Scaling by powers of ten gives finite doubles only. -/
theorem isFinite_of_scale {fuel : Nat} {x y : Float} {exponent : Int} (hx : x.isFinite = true)
    (h : scale fuel x exponent = some y) : y.isFinite = true := by
  induction fuel generalizing x exponent with
  | zero => cases h
  | succ fuel ih =>
    rw [scale] at h
    split at h
    · next hsmall =>
      split at h
      · dsimp only at h
        split at h <;> cases h
        next hinf =>
        exact isFinite_mul_of_not_isInf hx (isFinite_powerOfTen hsmall) (by simpa using hinf)
      · cases h
        exact isFinite_div_powerOfTen hx (by omega) hsmall
    · split at h
      · cases h
        exact hx
      · split at h
        · cases h
        · exact ih (isFinite_div_powerOfTen hx (by decide) (by decide)) h

theorem finite_ofParts {negative : Bool} {significand : Nat} {exponent : Int} {j : Json}
    (hs : significand < UInt64.size) (h : ofParts negative significand exponent = some j) :
    j.Finite := by
  obtain ⟨x, hx, rfl⟩ := Option.map_eq_some_iff.mp h
  have finite := isFinite_of_scale (isFinite_ofNat hs) hx
  cases negative
  · exact .float finite
  · exact .float (isFinite_neg finite)

theorem finite_ofWhole (negative : Bool) {significand : Nat} (hs : significand < UInt64.size) :
    (ofWhole negative significand).Finite := by
  unfold ofWhole
  split
  · split
    · exact .int (by simpa using hs)
    · exact .float (isFinite_neg (isFinite_ofNat hs))
  · exact .int hs

theorem finite_of_readTail {negative : Bool} {significand dropped : Nat} {text rest : List Char}
    {j : Json} (hs : significand < UInt64.size)
    (h : readTail negative significand dropped text = some (j, rest)) : j.Finite := by
  have parts {fraction left rest' : List Char} {full : Nat} {exponent : Int}
      (hfull : accumulate significand fraction = (full, left))
      (h : (ofParts negative full exponent).map (·, rest') = some (j, rest)) : j.Finite := by
    have hlt : full < UInt64.size := by simpa [hfull] using accumulate_lt hs fraction
    obtain ⟨k, hk, heq⟩ := Option.map_eq_some_iff.mp h
    cases heq
    exact finite_ofParts hlt hk
  revert h
  fun_cases readTail negative significand dropped text with
  | case1 => exact nofun
  | case2 fraction ok hok full left hfull exponent after htext
  | case3 fraction ok hok full left hfull exponent after htext =>
    intro h
    obtain ⟨e, -, h⟩ := Option.bind_eq_some_iff.mp h
    exact parts hfull h
  | case4 =>
    intro h
    cases h
    exact finite_ofWhole negative hs
  | case5 fraction rest' ok htext hok full left hfull =>
    intro h
    exact parts hfull h

theorem finite_of_read {text rest : List Char} {j : Json} (h : read text = some (j, rest)) :
    j.Finite := by
  have magnitude {negative : Bool} {text : List Char}
      (h : readMagnitude negative text = some (j, rest)) : j.Finite := by
    unfold readMagnitude at h
    dsimp only at h
    split at h
    · cases h
    · cases h
    · exact finite_of_readTail (accumulate_lt (by decide) _) h
  unfold read at h
  split at h <;> exact magnitude h

end Json.Number

/-! ## Texts -/

namespace Json

def ReadsFinite (read : List Char → Option (Json × List Char)) : Prop :=
  ∀ text j rest, read text = some (j, rest) → j.Finite

theorem finite_of_readItems {item : List Char → Option (Json × List Char)}
    (hitem : ReadsFinite item) {fuel : Nat} {text rest : List Char} {items : List Json}
    (h : readItems item fuel text = some (items, rest)) : ∀ j ∈ items, j.Finite := by
  induction fuel generalizing text items with
  | zero => cases h
  | succ fuel ih =>
    obtain ⟨⟨j, after⟩, hj, h⟩ := Option.bind_eq_some_iff.mp h
    have head := hitem _ _ _ hj
    dsimp only at h
    split at h
    · obtain ⟨⟨others, last⟩, hothers, heq⟩ := Option.map_eq_some_iff.mp h
      cases heq
      exact List.forall_mem_cons.mpr ⟨head, ih hothers⟩
    · cases h
      simpa using head
    · cases h

theorem finite_of_readFields {item : List Char → Option (Json × List Char)}
    (hitem : ReadsFinite item) {fuel : Nat} {text rest : List Char} {fields : List (String × Json)}
    (h : readFields item fuel text = some (fields, rest)) : ∀ f ∈ fields, f.2.Finite := by
  induction fuel generalizing text fields with
  | zero => cases h
  | succ fuel ih =>
    rw [readFields] at h
    split at h
    · obtain ⟨⟨name, afterName⟩, -, h⟩ := Option.bind_eq_some_iff.mp h
      dsimp only at h
      split at h
      · obtain ⟨⟨j, after⟩, hj, h⟩ := Option.bind_eq_some_iff.mp h
        have head := hitem _ _ _ hj
        dsimp only at h
        split at h
        · obtain ⟨⟨others, last⟩, hothers, heq⟩ := Option.map_eq_some_iff.mp h
          cases heq
          exact List.forall_mem_cons.mpr ⟨head, ih hothers⟩
        · cases h
          simpa using head
        · cases h
      · cases h
    · cases h

theorem readsFinite_readScalar : ReadsFinite readScalar := by
  intro text j rest h
  unfold readScalar at h
  split at h
  · obtain ⟨cs, -, heq⟩ := Option.map_eq_some_iff.mp h
    cases heq
    exact .str _
  · split at h
    · exact Number.finite_of_read h
    · unfold readWord at h
      split at h <;> cases h
      · exact .null
      · exact .bool true
      · exact .bool false
  · cases h

theorem finite_object {fields : List (String × Json)} (h : ∀ f ∈ fields, f.2.Finite) :
    (object fields).Finite :=
  .obj fun f hf => h f (Table.mem_ofEntries hf)

theorem readsFinite_readValue (depth : Nat) : ReadsFinite (readValue depth) := by
  induction depth with
  | zero =>
    intro text j rest h
    rw [readValue] at h
    split at h
    · cases h
    · cases h
    · exact readsFinite_readScalar _ _ _ h
  | succ depth ih =>
    intro text j rest h
    rw [readValue] at h
    split at h
    · split at h
      · cases h
        exact .arr (by simp)
      · obtain ⟨⟨items, after⟩, hitems, heq⟩ := Option.map_eq_some_iff.mp h
        cases heq
        exact .arr (finite_of_readItems ih hitems)
    · split at h
      · cases h
        exact .obj (by simp)
      · obtain ⟨⟨fields, after⟩, hfields, heq⟩ := Option.map_eq_some_iff.mp h
        cases heq
        exact finite_object (finite_of_readFields ih hfields)
    · exact readsFinite_readScalar _ _ _ h

/-- What a text spells is finite. -/
theorem finite_of_parse {text : String} {j : Json} (h : parse text = some j) : j.Finite := by
  obtain ⟨⟨k, rest⟩, hk, h⟩ := Option.bind_eq_some_iff.mp h
  dsimp only at h
  split at h <;> cases h
  exact readsFinite_readValue _ _ _ _ hk

end Json

/-! ## Values -/

namespace Json.Finite

variable {j : Json} {fields : Table String Json} {name : String} {read : Json → Option α} {a : α}

theorem of_mem_arr {items : List Json} (h : (Json.arr items).Finite) : ∀ j ∈ items, j.Finite := by
  cases h with
  | arr all => exact all

theorem of_mem_obj (h : (Json.obj fields).Finite) : ∀ f ∈ fields, f.2.Finite := by
  cases h with
  | obj all => exact all

theorem of_get? (h : ∀ f ∈ fields, f.2.Finite) (hj : Table.get? fields name = some j) : j.Finite :=
  h _ (Table.mem_of_get? hj)

theorem of_array? {items : List Json} (h : j.Finite) (hj : j.array? = some items) :
    ∀ i ∈ items, i.Finite := by
  cases j <;> cases hj
  exact h.of_mem_arr

/-- The fields of a finite record are finite. -/
theorem of_record? {names : List String} {least : Nat} (h : j.Finite)
    (hj : j.record? names least = some fields) : ∀ f ∈ fields, f.2.Finite := by
  unfold Json.record? at hj
  split at hj
  · cases hj
    exact h.of_mem_obj
  · split at hj <;> cases hj
    exact fun f hf => h.of_mem_arr _ (List.of_mem_zip hf).2
  · cases hj

theorem of_tagged? {tag : String} {content : Json} (h : j.Finite)
    (hj : j.tagged? tag = some (name, content)) : content.Finite := by
  unfold Json.tagged? at hj
  split at hj
  · obtain ⟨k, -, hj⟩ := Option.bind_eq_some_iff.mp hj
    obtain ⟨n, -, heq⟩ := Option.map_eq_some_iff.mp hj
    cases heq
    exact h
  · cases hj
    exact .arr fun i hi => h.of_mem_arr i (List.mem_cons_of_mem _ hi)
  · cases hj

/-- What is read from a field is read from a finite document. -/
theorem of_required (h : ∀ f ∈ fields, f.2.Finite)
    (hread : Json.required fields name read = some a) : ∃ j : Json, j.Finite ∧ read j = some a := by
  obtain ⟨j, hj, ha⟩ := Option.bind_eq_some_iff.mp hread
  exact ⟨j, of_get? h hj, ha⟩

theorem of_optional (h : ∀ f ∈ fields, f.2.Finite)
    (hread : Json.optional fields name read = some (some a)) :
    ∃ j : Json, j.Finite ∧ read j = some a := by
  unfold Json.optional at hread
  split at hread
  · cases hread
  · cases hread
  · next j _ hj =>
    obtain ⟨b, hb, heq⟩ := Option.map_eq_some_iff.mp hread
    cases heq
    exact ⟨j, of_get? h hj, hb⟩

end Json.Finite

namespace Value

theorem finite_list {items : List Value} (h : ∀ v ∈ items, v.Finite) : (list items).Finite := by
  intro x hx
  rcases part_list.mp hx with heq | ⟨v, hv, hx⟩
  · cases heq
  · exact h v hv x hx

theorem finite_hash {pairs : List (Value × Value)} (h : ∀ p ∈ pairs, p.1.Finite ∧ p.2.Finite) :
    (hash pairs).Finite := by
  intro x hx
  rcases part_hash.mp hx with heq | ⟨p, hp, hx | hx⟩
  · cases heq
  · exact (h p hp).1 x hx
  · exact (h p hp).2 x hx

theorem finite_closure {name : String} {captured : List (String × Value)}
    (h : ∀ e ∈ captured, e.2.Finite) : (closure name captured).Finite := by
  intro x hx
  rcases part_closure.mp hx with heq | ⟨e, he, hx⟩
  · cases heq
  · exact h e he x hx

/-- What a document is read as has finite doubles: as a value, as the content of one, as a pair
and as bindings. -/
structure FromFinite (j : Json) : Prop where
  value {v : Value} : ofJson? j = some v → v.Finite
  content {kind : Kind} {v : Value} : ofContent? kind j = some v → v.Finite
  pair {p : Value × Value} : pairOfJson? j = some p → p.1.Finite ∧ p.2.Finite
  bindings {b : List (String × Value)} : bindingsOfJson? j = some b → ∀ e ∈ b, e.2.Finite

theorem finite_of_ofScalar? {kind : Kind} {j : Json} {v : Value} (hj : j.Finite)
    (h : ofScalar? kind j = some v) : v.Finite := by
  intro x hx
  revert h
  fun_cases ofScalar? kind j with
  | case4 n =>
    intro h
    cases h
    cases part_float.mp hx
    cases hj with
    | int hn => exact Double.isFinite_ofInt hn
  | case5 y =>
    intro h
    cases h
    cases part_float.mp hx
    cases hj with
    | float hy => exact hy
  | case3 | case9 =>
    intro h
    obtain ⟨n, -, rfl⟩ := Option.map_eq_some_iff.mp h
    simp at hx
  | case10 => exact nofun
  | case1 | case2 | case6 | case7 | case8 =>
    intro h
    cases h
    simp at hx

/-- The content among fields of a kind. -/
theorem finite_of_ofFields? {kind : Kind} {fields : List (String × Json)} {v : Value}
    (all : ∀ f ∈ fields, FromFinite f.2) (h : ofFields? kind fields = some v) : v.Finite := by
  induction fields with
  | nil =>
    rw [ofFields?] at h
    split at h <;> cases h
    intro x hx
    simp at hx
  | cons f rest ih =>
    rw [ofFields?] at h
    split at h
    · exact (all f (by simp)).content h
    · exact ih (fun f hf => all f (by simp [hf])) h

theorem finite_of_capturedOf? {fields : List (String × Json)} {b : List (String × Value)}
    (all : ∀ f ∈ fields, FromFinite f.2) (h : capturedOf? fields = some b) :
    ∀ e ∈ b, e.2.Finite := by
  induction fields with
  | nil => cases h
  | cons f rest ih =>
    rw [capturedOf?] at h
    split at h
    · exact (all f (by simp)).bindings h
    · exact ih (fun f hf => all f (by simp [hf])) h

theorem finite_of_itemsOfJson? {items : List Json} {values : List Value}
    (all : ∀ j ∈ items, FromFinite j) (h : itemsOfJson? items = some values) :
    ∀ v ∈ values, v.Finite := by
  intro v hv
  rw [itemsOfJson?_eq] at h
  obtain ⟨j, hj, hread⟩ := exists_of_mem_right (mapM_eq_some_iff.mp h) hv
  exact (all j hj).value hread

theorem fromFinite_arr {items : List Json} (all : ∀ j ∈ items, FromFinite j) :
    FromFinite (.arr items) where
  value {v} h := by
    unfold ofJson? at h
    split at h
    · next heq => cases heq
    · next name content heq =>
      cases heq
      obtain ⟨kind, -, h⟩ := Option.bind_eq_some_iff.mp h
      exact (all content (by simp)).content h
    · cases h
  content {kind v} h := by
    unfold ofContent? at h
    split at h
    · obtain ⟨values, hvalues, rfl⟩ := Option.map_eq_some_iff.mp h
      exact finite_list (finite_of_itemsOfJson? all hvalues)
    · obtain ⟨pairs, hpairs, rfl⟩ := Option.map_eq_some_iff.mp h
      rw [pairsOfJson?_eq] at hpairs
      refine finite_hash fun p hp => ?_
      obtain ⟨j, hj, hread⟩ := exists_of_mem_right (mapM_eq_some_iff.mp hpairs) hp
      exact (all j hj).pair hread
    · cases h
  pair {p} h := by
    unfold pairOfJson? at h
    split at h
    · next key value heq =>
      cases heq
      obtain ⟨k, hk, h⟩ := Option.bind_eq_some_iff.mp h
      obtain ⟨v, hv, rfl⟩ := Option.map_eq_some_iff.mp h
      exact ⟨(all key (by simp)).value hk, (all value (by simp)).value hv⟩
    · cases h
  bindings h := by cases h

theorem fromFinite_obj {fields : List (String × Json)} (all : ∀ f ∈ fields, FromFinite f.2) :
    FromFinite (.obj fields) where
  value {v} h := by
    rw [ofJson?] at h
    obtain ⟨kind, -, h⟩ := Option.bind_eq_some_iff.mp h
    exact finite_of_ofFields? all h
  content {kind v} h := by
    unfold ofContent? at h
    split at h
    · obtain ⟨name, -, h⟩ := Option.bind_eq_some_iff.mp h
      obtain ⟨captured, hcaptured, rfl⟩ := Option.map_eq_some_iff.mp h
      exact finite_closure (finite_of_capturedOf? all hcaptured)
    · cases h
  pair h := by cases h
  bindings {b} h := by
    rw [bindingsOfJson?, entriesOfJson?_eq] at h
    intro e he
    obtain ⟨f, hf, hread⟩ := exists_of_mem_right (mapM_eq_some_iff.mp h) he
    obtain ⟨v, hv, rfl⟩ := Option.map_eq_some_iff.mp hread
    exact (all f hf).value hv

/-- A finite document has finite values only. -/
theorem fromFinite {j : Json} (h : j.Finite) : FromFinite j := by
  induction h with
  | arr _ ih => exact fromFinite_arr ih
  | obj _ ih => exact fromFinite_obj ih
  | null =>
    exact ⟨nofun, finite_of_ofScalar? .null, nofun, nofun⟩
  | bool b =>
    exact ⟨nofun, finite_of_ofScalar? (.bool b), nofun, nofun⟩
  | int hn =>
    exact ⟨nofun, finite_of_ofScalar? (.int hn), nofun, nofun⟩
  | float hx =>
    exact ⟨nofun, finite_of_ofScalar? (.float hx), nofun, nofun⟩
  | str s =>
    exact ⟨nofun, finite_of_ofScalar? (.str s), nofun, nofun⟩

end Value

/-! ## Worlds -/

theorem Activation.finite_of_ofJson? {j : Json} {a : Activation} (hj : j.Finite)
    (h : ofJson? j = some a) : ∀ e ∈ a.bindings, e.2.Finite := by
  simp only [ofJson?, Option.bind_eq_bind, Option.bind_eq_some_iff, Option.some.injEq] at h
  obtain ⟨fields, hfields, function, -, bindings, hbindings, returnIp, -, rfl⟩ := h
  obtain ⟨k, hk, hread⟩ := Json.Finite.of_required (hj.of_record? hfields) hbindings
  exact (Value.fromFinite hk).bindings hread

theorem Session.finite_of_ofJson? {j : Json} {s : Session} (hj : j.Finite)
    (h : ofJson? j = some s) {x : Float} (hx : s.Shows (.float x)) : x.isFinite = true := by
  simp only [ofJson?, Option.bind_eq_bind, Option.bind_eq_some_iff, Option.some.injEq] at h
  obtain ⟨fields, hfields, id, -, ip, -, stack, hstack, activations, hactivations, status, -,
    result, hresult, output, -, rfl⟩ := h
  have all := hj.of_record? hfields
  rcases hx with (⟨v, hv, hx⟩ | ⟨a, ha, e, he, hx⟩) | ⟨v, hv, hx⟩
  · obtain ⟨k, hk, hread⟩ := Json.Finite.of_required all hstack
    obtain ⟨items, hitems, hread⟩ := Option.bind_eq_some_iff.mp hread
    have values := Value.finite_of_itemsOfJson?
      (fun i hi => Value.fromFinite (hk.of_array? hitems i hi)) hread
    exact values v (List.mem_reverse.mp hv) x hx
  · obtain ⟨k, hk, hread⟩ := Json.Finite.of_required all hactivations
    obtain ⟨items, hitems, hread⟩ := Option.bind_eq_some_iff.mp hread
    obtain ⟨i, hi, hread⟩ := exists_of_mem_right (mapM_eq_some_iff.mp hread) (List.mem_reverse.mp ha)
    exact Activation.finite_of_ofJson? (hk.of_array? hitems i hi) hread e he x hx
  · cases hv
    obtain ⟨k, hk, hread⟩ := Json.Finite.of_optional all hresult
    exact (Value.fromFinite hk).value hread x hx

theorem TaskState.finite_of_ofJson? {j : Json} {state : TaskState} (hj : j.Finite)
    (h : ofJson? j = some state) {x : Float} (hx : state.Shows (.float x)) :
    x.isFinite = true := by
  obtain ⟨v, rfl, hx⟩ := hx
  obtain ⟨⟨name, content⟩, hcontent, h⟩ := Option.bind_eq_some_iff.mp h
  have finite := hj.of_tagged? hcontent
  dsimp only at h
  split at h
  · obtain ⟨fields, -, h⟩ := Option.bind_eq_some_iff.mp h
    obtain ⟨waiters, -, heq⟩ := Option.map_eq_some_iff.mp h
    cases heq
  · obtain ⟨fields, hfields, h⟩ := Option.bind_eq_some_iff.mp h
    obtain ⟨w, hw, heq⟩ := Option.map_eq_some_iff.mp h
    cases heq
    obtain ⟨k, hk, hread⟩ := Json.Finite.of_required (finite.of_record? hfields) hw
    exact (Value.fromFinite hk).value hread x hx
  · obtain ⟨fields, -, h⟩ := Option.bind_eq_some_iff.mp h
    obtain ⟨message, -, heq⟩ := Option.map_eq_some_iff.mp h
    cases heq
  · cases h

/-- An entry of a table of numbers is read from a finite document. -/
theorem Json.Finite.of_numbered? {j : Json} {read : Json → Option α} {table : Table TaskId α}
    {e : TaskId × α} (hj : j.Finite) (h : Json.numbered? read j = some table) (he : e ∈ table) :
    ∃ k : Json, k.Finite ∧ read k = some e.2 := by
  obtain ⟨fields, hfields, h⟩ := Option.bind_eq_some_iff.mp h
  obtain ⟨entries, hentries, rfl⟩ := Option.map_eq_some_iff.mp h
  obtain ⟨f, hf, hread⟩ := exists_of_mem_right (mapM_eq_some_iff.mp hentries) (Table.mem_ofEntries he)
  obtain ⟨id, -, hread⟩ := Option.bind_eq_some_iff.mp hread
  obtain ⟨a, ha, rfl⟩ := Option.map_eq_some_iff.mp hread
  cases j <;> cases hfields
  exact ⟨f.2, hj.of_mem_obj f hf, ha⟩

def World.Finite (w : World) : Prop :=
  ∀ x, w.Shows (.float x) → x.isFinite = true

/-- The world of a finite document is finite. -/
theorem World.finite_of_ofJson? {j : Json} {w : World} (hj : j.Finite)
    (h : ofJson? j = some w) : w.Finite := by
  simp only [ofJson?, Option.bind_eq_bind, Option.bind_eq_some_iff, Option.some.injEq] at h
  obtain ⟨fields, hfields, sessions, hsessions, tasks, htasks, queue, -, topLevel, -, nextId, -,
    rfl⟩ := h
  have all := hj.of_record? hfields
  rintro x (⟨e, he, hx⟩ | ⟨e, he, hx⟩)
  · obtain ⟨k, hk, hread⟩ := Json.Finite.of_required all hsessions
    obtain ⟨i, hi, hs⟩ := hk.of_numbered? hread he
    exact Session.finite_of_ofJson? hi hs hx
  · obtain ⟨k, hk, hread⟩ := Json.Finite.of_required all htasks
    obtain ⟨i, hi, hs⟩ := hk.of_numbered? hread he
    exact TaskState.finite_of_ofJson? hi hs hx

end Teal
