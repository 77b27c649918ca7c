import Teal.Proofs.Families
import Teal.Proofs.Itemwise

/-!
# Code with calls turned into tasks

A call can be made as a task whose result is awaited at once: two instructions then stand for one,
what follows them moves, and so do the targets of jumps. A map of places says where each
instruction went. Fragments that were expanded apart are expanded together, because jumps are
relative.

## Main definitions

* `Op.jump?`, `Op.withJump`: the jump of an operation.
* `Copied`: where an instruction went, or the two that a call has become.
* `Expands`: some calls of a fragment have become tasks.
* `Executable.Expands`: some calls of a program have become tasks.

## Main statements

* `Expands.append`, `Expands.branch`: expanded fragments put together.
* `Executable.expands_link`: programs whose regions are expanded.
-/

namespace Teal

open List (Forall₂)

namespace Op

def jump? : Op → Option Int
  | .jump offset | .jumpIf offset => some offset
  | _ => none

/-- An operation with another offset, if it is a jump. -/
def withJump (offset : Int) : Op → Op
  | .jump _ => .jump offset
  | .jumpIf _ => .jumpIf offset
  | op => op

theorem withJump_of_none {op : Op} (h : op.jump? = none) (offset : Int) :
    op.withJump offset = op := by
  cases op <;> first | rfl | cases h

end Op

/-! ## Fragments of code -/

/-- What has become of the operation at `k`, in code where `φ k` is the new place of `k`: the
operation went there, its jump to a place up to `bound` leading to the new place, or it is a call
that has become a task and a wait. -/
inductive Copied (φ : Nat → Nat) (bound : Nat) (code : List Instruction) (k : Nat) : Op → Prop
  | plain {op : Op} {j : Instruction} (offset : Int) (hj : code[φ k]? = some j)
      (hop : j.op = op.withJump offset) (hnext : φ (k + 1) = φ k + 1)
      (hjump : ∀ o, op.jump? = some o → ∃ target : Nat, target ≤ bound ∧
        (target : Int) = k + o ∧ (φ target : Int) = φ k + offset) : Copied φ bound code k op
  | deferred {count : Int} {keywords : List Value} {i j : Instruction} (hi : code[φ k]? = some i)
      (hcall : i.op = .asyncCall count keywords) (hj : code[φ k + 1]? = some j)
      (hwait : j.op = .wait) (hnext : φ (k + 1) = φ k + 2) :
      Copied φ bound code k (.call count keywords)

def Copies (φ : Nat → Nat) (bound : Nat) (code : List Instruction) (start : Nat)
    (a : List Instruction) : Prop :=
  ForallAt (fun k i => Copied φ bound code k i.op) start a

structure Expansion (φ : Nat → Nat) (a b : List Instruction) : Prop where
  first : φ 0 = 0
  last : φ a.length = b.length
  copies : Copies φ a.length b 0 a

/-- Some calls of a fragment have become tasks. -/
def Expands (a b : List Instruction) : Prop :=
  ∃ φ, Expansion φ a b

section Fragments

variable {φ ψ : Nat → Nat} {bound start : Nat} {a b c d code : List Instruction}
  {i j i' j' : Instruction} {op : Op}

/-- The places of a fragment in larger code. -/
theorem Expansion.shift (h : Expansion ψ a b) (start' : Nat)
    (same : ∀ m ≤ a.length, φ (start + m) = start' + ψ m)
    (sub : ∀ x i, b[x]? = some i → code[start' + x]? = some i) (hbound : start + a.length ≤ bound) :
    Copies φ bound code start a := by
  intro k i hk
  have hlt : k < a.length := (List.getElem?_eq_some_iff.mp hk).1
  have here := same k (by omega)
  have next : φ (start + k + 1) = start' + ψ (k + 1) := same (k + 1) (by omega)
  have copied := h.copies k i hk
  rw [Nat.zero_add] at copied
  generalize i.op = op at copied
  cases copied with
  | plain offset hj hop hnext hjump =>
    refine .plain offset (here ▸ sub _ _ hj) hop (by omega) fun o ho => ?_
    obtain ⟨target, hle, htarget, hoffset⟩ := hjump o ho
    have := same target hle
    exact ⟨start + target, by omega, by omega, by omega⟩
  | deferred hi hcall hj hwait hnext =>
    refine .deferred (here ▸ sub _ _ hi) hcall ?_ hwait (by omega)
    rw [here, Nat.add_assoc]
    exact sub _ _ hj

def places (φ ψ : Nat → Nat) (n m k : Nat) : Nat :=
  if k ≤ n then φ k else m + ψ (k - n)

theorem places_left {n m k : Nat} (h : k ≤ n) : places φ ψ n m k = φ k := if_pos h

theorem Expansion.places_right (h : Expansion φ a b) (h' : ψ 0 = 0) (k : Nat) :
    places φ ψ a.length b.length (a.length + k) = b.length + ψ k := by
  unfold places
  split
  · obtain rfl : k = 0 := by omega
    simp [h.last, h']
  · simp

theorem Expansion.append (h : Expansion φ a b) (h' : Expansion ψ c d) :
    Expansion (places φ ψ a.length b.length) (a ++ c) (b ++ d) := by
  refine ⟨(places_left (Nat.zero_le _)).trans h.first, ?_, .append ?_ ?_⟩
  · rw [List.length_append, h.places_right h'.first, h'.last, List.length_append]
  · refine h.shift 0 (fun m hm => ?_) (fun x i hi => ?_) (by simp)
    · rw [Nat.zero_add, Nat.zero_add, places_left hm]
    · rw [Nat.zero_add, List.getElem?_append_left (List.getElem?_eq_some_iff.mp hi).1, hi]
  · refine h'.shift b.length (fun m _ => ?_) (fun x i hi => ?_) (by simp)
    · rw [Nat.zero_add, h.places_right h'.first]
    · rw [List.getElem?_append_right (Nat.le_add_right _ _), Nat.add_sub_cancel_left, hi]

namespace Expands

theorem nil : Expands [] [] :=
  ⟨id, rfl, rfl, forallAt_nil⟩

/-- One instruction that is no jump. -/
theorem one (hop : j.op = i.op) (hjump : i.op.jump? = none) : Expands [i] [j] := by
  refine ⟨id, rfl, rfl, .one (.plain (j := j) 0 rfl ?_ rfl fun o ho => ?_)⟩
  · rw [Op.withJump_of_none hjump, hop]
  · simp [hjump] at ho

/-- A call that has become a task. -/
theorem deferred {count : Int} {keywords : List Value} (hi : i.op = .call count keywords)
    (hj : j.op = .asyncCall count keywords) (hj' : j'.op = .wait) : Expands [i] [j, j'] := by
  refine ⟨fun k => 2 * k, rfl, rfl, .one ?_⟩
  rw [hi]
  exact .deferred (i := j) (j := j') rfl hj rfl hj' rfl

theorem append (h : Expands a b) (h' : Expands c d) : Expands (a ++ c) (b ++ d) := by
  obtain ⟨φ, hφ⟩ := h
  obtain ⟨ψ, hψ⟩ := h'
  exact ⟨_, hφ.append hψ⟩

/-- The two branches of a conditional. -/
theorem branch (hi : i.op = .jumpIf (a.length + 2)) (hj : j.op = .jump (c.length + 1))
    (hi' : i'.op = .jumpIf (b.length + 2)) (hj' : j'.op = .jump (d.length + 1))
    (ha : Expands a b) (hc : Expands c d) :
    Expands ([i] ++ a ++ [j] ++ c) ([i'] ++ b ++ [j'] ++ d) := by
  obtain ⟨φ, hφ⟩ := ha
  obtain ⟨ψ, hψ⟩ := hc
  let χ (k : Nat) : Nat :=
    if k = 0 then 0 else if k ≤ a.length + 1 then 1 + φ (k - 1)
    else b.length + 2 + ψ (k - (a.length + 2))
  have first (k : Nat) (hk : k ≤ a.length) : χ (1 + k) = 1 + φ k := by
    simp only [χ]
    rw [if_neg (by omega), if_pos (by omega), Nat.add_sub_cancel_left]
  have second (k : Nat) : χ (a.length + 2 + k) = b.length + 2 + ψ k := by
    simp only [χ]
    rw [if_neg (by omega), if_neg (by omega), Nat.add_sub_cancel_left]
  have hone : χ 1 = 1 := by simpa [hφ.first] using first 0 (Nat.zero_le _)
  have hend : χ (a.length + 1) = b.length + 1 := by
    rw [Nat.add_comm, first _ (Nat.le_refl _), hφ.last, Nat.add_comm]
  have hchosen : χ (a.length + 2) = b.length + 2 := by simpa [hψ.first] using second 0
  have hlast : χ (a.length + 2 + c.length) = b.length + 2 + d.length := by rw [second, hψ.last]
  have hlength (x y : Instruction) (p q : List Instruction) :
      ([x] ++ p ++ [y] ++ q).length = p.length + 2 + q.length := by
    simp only [List.length_append, List.length_cons, List.length_nil]
    omega
  refine ⟨χ, rfl, by rw [hlength, hlength, hlast], ?_⟩
  rw [hlength]
  refine .append (.append (.append (.one ?_) ?_) (.one ?_)) ?_
  · rw [hi]
    refine .plain (j := i') (b.length + 2) rfl hi' hone fun o ho => ?_
    obtain rfl : (a.length + 2 : Int) = o := by simpa [Op.jump?] using ho
    exact ⟨a.length + 2, by omega, by omega, by rw [hchosen]; simp [χ]⟩
  · refine hφ.shift 1 (fun m hm => first m hm) (fun x i hi => ?_) (by simp; omega)
    have hlt : x < b.length := (List.getElem?_eq_some_iff.mp hi).1
    rw [Nat.add_comm, List.append_assoc, List.append_assoc, List.singleton_append,
      List.getElem?_cons_succ, List.getElem?_append_left hlt, hi]
  · rw [hj]
    have hstart : 0 + ([i] ++ a).length = a.length + 1 := by simp
    rw [hstart]
    refine .plain (j := j') (d.length + 1) ?_ hj' (by rw [hend]; exact hchosen) fun o ho => ?_
    · rw [hend]
      simp
    · obtain rfl : (c.length + 1 : Int) = o := by simpa [Op.jump?] using ho
      exact ⟨a.length + 2 + c.length, by omega, by omega, by omega⟩
  · have hstart : 0 + ([i] ++ a ++ [j]).length = a.length + 2 := by simp
    rw [hstart]
    refine hψ.shift (b.length + 2) (fun m _ => second m) (fun x i hi => ?_) (by omega)
    have hlength' : ([i'] ++ b ++ [j']).length = b.length + 2 := by simp
    rw [← hlength', List.getElem?_append_right (Nat.le_add_right _ _), Nat.add_sub_cancel_left, hi]

end Expands

end Fragments

/-! ## Programs -/

def FunctionEntry.moved (φ : Nat → Nat) (info : FunctionEntry) : FunctionEntry :=
  { info with location := φ info.location }

/-- Some calls of a program have become tasks, and `φ` gives the new places of its code. -/
structure Executable.Expands (φ : Nat → Nat) (exe exe' : Executable) : Prop where
  copied {ip : Nat} {i : Instruction} : exe.instruction? ip = some i →
    Copied φ exe.code.length exe'.code ip i.op
  function? (name : String) :
    exe'.function? name = (exe.function? name).map (FunctionEntry.moved φ)

/-- A table whose values are mapped has the mapped values of the entries. -/
theorem Table.get?_ofEntries_map {κ ν μ : Type} [DecidableEq κ] [LT κ] [DecidableLT κ] (f : ν → μ)
    (entries : List (κ × ν)) (key : κ) :
    get? (ofEntries (entries.map (Prod.map id f))) key = (get? (ofEntries entries) key).map f := by
  have foldl {t : Table κ ν} {t' : Table κ μ} (h : ∀ key, get? t' key = (get? t key).map f) :
      get? ((entries.map (Prod.map id f)).foldl (fun t entry => insert entry.1 entry.2 t) t') key =
        (get? (entries.foldl (fun t entry => insert entry.1 entry.2 t) t) key).map f := by
    induction entries generalizing t t' with
    | nil => exact h key
    | cons entry rest ih =>
      refine ih fun key => ?_
      simp only [Prod.map, id, get?_insert, h]
      split <;> rfl
  exact foldl fun _ => rfl

section Regions

variable {R : Expr → Expr → Prop} {rs ss : List Region}

/-- Related regions whose code has been expanded, and the entries of their functions. -/
theorem exists_expansion_regions (code : ∀ r s : Region, r.Like R s → Expands r.code s.code)
    (h : Forall₂ (Region.Like R) rs ss) :
    ∃ φ, Expansion φ (rs.flatMap Region.code) (ss.flatMap Region.code) ∧
      ∀ ψ start start', (∀ k ≤ (rs.flatMap Region.code).length, ψ (start + k) = start' + φ k) →
        Executable.entries start' ss =
          (Executable.entries start rs).map (Prod.map id (FunctionEntry.moved ψ)) := by
  induction h with
  | nil => exact ⟨id, ⟨rfl, rfl, forallAt_nil⟩, fun _ _ _ _ => rfl⟩
  | @cons r s rs ss hd _ ih =>
    obtain ⟨χ, hχ⟩ := code r s hd
    obtain ⟨φ, hφ, hentries⟩ := ih
    refine ⟨_, hχ.append hφ, fun ψ start start' same => ?_⟩
    have here : ψ start = start' := by
      have := same 0 (Nat.zero_le _)
      rwa [places_left (Nat.zero_le _), hχ.first] at this
    have rest := hentries ψ (start + r.code.length) (start' + s.code.length) fun k hk => by
      have hle : r.code.length + k ≤ ((r :: rs).flatMap Region.code).length := by
        rw [List.flatMap_cons, List.length_append]
        omega
      rw [Nat.add_assoc, same _ hle, hχ.places_right hφ.first, Nat.add_assoc]
    simp only [Executable.entries, List.map_cons, rest, Prod.map, FunctionEntry.moved, id, here,
      hd.function.name, hd.function.params, hd.function.tag]

/-- Programs of related regions whose code has been expanded. -/
theorem Executable.expands_link (code : ∀ r s : Region, r.Like R s → Teal.Expands r.code s.code)
    (h : Forall₂ (Region.Like R) rs ss) : ∃ φ, Executable.Expands φ (link rs) (link ss) := by
  obtain ⟨φ, hφ, hentries⟩ := exists_expansion_regions code h
  refine ⟨φ, fun {ip i} hi => ?_, fun name => ?_⟩
  · have copied := hφ.copies ip i hi
    rwa [Nat.zero_add] at copied
  · simp only [function?, link]
    rw [hentries φ 0 0 fun k _ => by rw [Nat.zero_add, Nat.zero_add]]
    exact Table.get?_ofEntries_map _ _ _

end Regions

end Teal
