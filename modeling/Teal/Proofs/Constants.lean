import Teal.Proofs.Grammar
import Teal.Proofs.Heights
import Teal.Proofs.Upkeep

/-!
# Operands of compiled code

The constants of compiled code are null, the symbols and the literals of its text, whose doubles
are finite; its jumps stay inside the code, and a call takes no more arguments than code was
written for.

## Main definitions

* `Value.Constant`: a value without parts that is finite.
* `Op.Modest`: an operation has such constants only, and its numbers are small.

## Main statements

* `Expr.Shaped.modest_code`: the code of an expression of the grammar.
* `modest_of_parse`: the code of a source text, whose constants are finite.
-/

namespace Teal

structure Value.Constant (v : Value) : Prop where
  plain : v.isPlain = true
  finite : v.Finite

theorem Value.constant_ofLiteral {value : Literal} (h : value.Spelled) :
    (Expr.ofLiteral value).Constant := by
  refine ⟨by cases value <;> rfl, fun x hx => ?_⟩
  cases value with
  | float y =>
    obtain rfl : x = y := by simpa [Expr.ofLiteral] using hx
    exact Literal.isFinite_of_spelled h
  | _ => simp [Expr.ofLiteral] at hx

theorem Value.constant_null : Value.null.Constant :=
  ⟨rfl, fun x hx => by simp at hx⟩

theorem Value.constant_symbol (name : String) : (Value.symbol name).Constant :=
  ⟨rfl, fun x hx => by simp at hx⟩

theorem Value.constant_keyword (e : Expr) : e.keyword.Constant := by
  unfold Expr.keyword
  split
  · exact constant_symbol _
  · exact constant_null

/-- The values in an operation are constants, and its numbers are at most `n`. -/
def Op.Modest (n : Nat) : Op → Prop
  | .pushValue v => v.Constant
  | .jump offset | .jumpIf offset => 0 ≤ offset ∧ offset ≤ n
  | .call count keywords | .asyncCall count keywords =>
    (0 ≤ count ∧ count ≤ n) ∧ ∀ k ∈ keywords, k.Constant
  | _ => True

theorem Op.Modest.mono {op : Op} {m n : Nat} (h : op.Modest m) (hmn : m ≤ n) : op.Modest n := by
  cases op with
  | jump | jumpIf => exact ⟨h.1, by have := h.2; omega⟩
  | call | asyncCall => exact ⟨⟨h.1.1, by have := h.1.2; omega⟩, h.2⟩
  | _ => exact h

def Instruction.AllModest (code : List Instruction) : Prop :=
  ∀ i ∈ code, i.op.Modest code.length

namespace Instruction

variable {a b : List Instruction} {i : Instruction}

theorem allModest_append (ha : AllModest a) (hb : AllModest b) : AllModest (a ++ b) := by
  intro i hi
  rw [List.length_append]
  rcases List.mem_append.mp hi with hi | hi
  · exact (ha i hi).mono (by omega)
  · exact (hb i hi).mono (by omega)

theorem allModest_concat (ha : AllModest a) (hi : i.op.Modest (a.length + 1)) :
    AllModest (a ++ [i]) := by
  intro j hj
  rw [List.length_append, List.length_singleton]
  rcases List.mem_append.mp hj with hj | hj
  · exact (ha j hj).mono (by omega)
  · exact List.mem_singleton.mp hj ▸ hi

/-- Only the operation of the last instruction counts. -/
theorem allModest_replace {j : Instruction} (h : AllModest (a ++ [i]))
    (hop : ∀ n, i.op.Modest n → j.op.Modest n) : AllModest (a ++ [j]) := by
  intro k hk
  rw [List.length_append, List.length_singleton]
  simp only [AllModest, List.length_append, List.length_singleton] at h
  rcases List.mem_append.mp hk with hk | hk
  · exact h k (by simp [hk])
  · exact List.mem_singleton.mp hk ▸ hop _ (h i (by simp))

theorem allModest_singleton (hi : i.op.Modest 1) : AllModest [i] := by
  simpa using allModest_concat (a := []) (by simp [AllModest]) hi

end Instruction

namespace Expr

open Instruction

theorem modest_codeOfAll {args : List Expr} (h : ∀ a ∈ args, ∀ next, AllModest (a.code next))
    (next : Nat) : AllModest (codeOfAll next args) := by
  induction args generalizing next with
  | nil => simp [codeOfAll, AllModest]
  | cons a args ih =>
    simp only [codeOfAll]
    exact allModest_append (h a (by simp) next) (ih (fun b hb => h b (by simp [hb])) _)

theorem modest_codeOfRest {items : List Expr} (h : ∀ e ∈ items, ∀ next, AllModest (e.code next))
    (next : Nat) : AllModest (codeOfRest next items) := by
  induction items generalizing next with
  | nil => simp [codeOfRest, AllModest]
  | cons e items ih =>
    simp only [codeOfRest]
    refine allModest_append (allModest_append (allModest_singleton trivial) ?_) ?_
    · exact h e (by simp) next
    · exact ih (fun b hb => h b (by simp [hb])) _

theorem code_ne_nil (e : Expr) (next : Nat) : e.code next ≠ [] := by
  induction e generalizing next with
  | argument loc keyword value _ ih =>
    simp only [code]
    exact ih next
  | binary loc op left right => cases op <;> simp [code]
  | async loc inner ih =>
    cases inner with
    | call => simp [code]
    | _ => exact ih next
  | block loc items ih =>
    cases items with
    | nil => simp [code]
    | cons first rest => simpa [code] using fun h => absurd h (ih first (by simp) next)
  | _ => simp [code]

/-- There is code for every argument. -/
theorem length_le_codeOfAll (args : List Expr) (next : Nat) :
    args.length ≤ (codeOfAll next args).length := by
  induction args generalizing next with
  | nil => simp
  | cons a args ih =>
    have first := List.length_pos_iff.mpr (a.code_ne_nil next)
    have others := ih (next + a.functions.length)
    simp only [codeOfAll, List.length_cons, List.length_append]
    omega

/-- The code of arguments and of a callee, and an operation on as many values. -/
theorem modest_calling {args : List Expr} {callee : List Instruction} {self : Expr}
    (hargs : ∀ a ∈ args, ∀ next, AllModest (a.code next)) (hcallee : AllModest callee)
    (next : Nat) :
    AllModest (codeOfAll next args ++ callee ++
      [self.emit (.call args.length (args.map keyword))]) := by
  refine allModest_concat (allModest_append (modest_codeOfAll hargs next) hcallee) ?_
  have hlength := length_le_codeOfAll args next
  rw [List.length_append]
  refine ⟨⟨by omega, by omega⟩, fun k hk => ?_⟩
  obtain ⟨a, -, rfl⟩ := List.mem_map.mp hk
  exact Value.constant_keyword a

/-- The code of two branches and the jumps around them. -/
theorem modest_branching {condition otherwise chosen : List Instruction} {self : Expr}
    (hcondition : AllModest condition) (hotherwise : AllModest otherwise)
    (hchosen : AllModest chosen) :
    AllModest (condition ++ [self.emit (.jumpIf (otherwise.length + 2))] ++ otherwise ++
      [self.emit (.jump (chosen.length + 1))] ++ chosen) := by
  intro i hi
  simp only [List.mem_append, List.mem_singleton] at hi
  simp only [List.length_append, List.length_singleton]
  obtain (((hi | rfl) | hi) | rfl) | hi := hi
  · exact (hcondition i hi).mono (by omega)
  · exact ⟨by omega, by omega⟩
  · exact (hotherwise i hi).mono (by omega)
  · exact ⟨by omega, by omega⟩
  · exact (hchosen i hi).mono (by omega)

/-- The code of an expression of the grammar is modest. -/
theorem Shaped.modest_code {place : Place} {e : Expr} (h : e.Shaped place) (next : Nat) :
    AllModest (e.code next) := by
  induction h generalizing next with
  | ident => exact allModest_singleton trivial
  | symbol => exact allModest_singleton (Value.constant_symbol _)
  | literal hvalue => exact allModest_singleton (Value.constant_ofLiteral hvalue)
  | @binary loc op left right _ _ ihLeft ihRight =>
    cases op with
    | assign =>
      simp only [code]
      exact allModest_concat (ihRight next) trivial
    | calculate op =>
      simp only [code]
      exact allModest_concat (allModest_append (ihLeft next) (ihRight _)) trivial
  | @async loc inner h ih =>
    cases h with
    | @call loc' loc'' name args hargs =>
      have hcall := ih next
      simp only [code] at hcall ⊢
      exact allModest_replace hcall fun _ => id
    | _ => exact ih next
  | await _ ih =>
    simp only [code]
    exact allModest_concat (ih next) trivial
  | call _ ih =>
    simp only [code]
    refine modest_calling ih (allModest_singleton ?_) next
    trivial
  | positional _ ih | keyword _ ih =>
    simp only [code]
    exact ih next
  | @block loc items hitems _ ih =>
    obtain ⟨first, rest, rfl⟩ := List.exists_cons_of_ne_nil hitems
    simp only [code]
    refine allModest_append (ih first (by simp) next) ?_
    exact modest_codeOfRest (fun e he => ih e (by simp [he])) _
  | lambda => exact allModest_singleton trivial
  | definition =>
    simp only [code]
    exact allModest_append (a := [_]) (allModest_singleton trivial) (allModest_singleton trivial)
  | conditional _ _ ihCondition ihConsequence =>
    simp only [code, codeOfElse]
    exact modest_branching (ihCondition next) (allModest_singleton Value.constant_null)
      (ihConsequence _)
  | otherwise _ _ _ ihCondition ihConsequence ihAlternative =>
    simp only [code, codeOfElse]
    exact modest_branching (ihCondition next) (ihAlternative _) (ihConsequence _)
  | @elif _ _ _ loc condition consequence alternative _ _ _ ihCondition ihConsequence
      ihAlternative =>
    generalize Expr.conditional loc condition consequence alternative = e at ihAlternative
    simp only [code, codeOfElse]
    exact modest_branching (ihCondition next) (ihAlternative _) (ihConsequence _)

/-- The bodies of the functions that an expression of the grammar makes are of the grammar. -/
theorem Shaped.functions {place : Place} {e : Expr} (h : e.Shaped place) :
    ∀ f ∈ e.functions, f.body.Shaped .body := by
  have all {items : List Expr} (ih : ∀ a ∈ items, ∀ f ∈ a.functions, f.body.Shaped .body) :
      ∀ f ∈ functionsOfAll items, f.body.Shaped .body := by
    induction items with
    | nil => simp [functionsOfAll]
    | cons a rest ihRest =>
      simp only [functionsOfAll, List.forall_mem_append]
      exact ⟨ih a (by simp), ihRest fun b hb => ih b (by simp [hb])⟩
  induction h with
  | ident | symbol | literal => simp [Expr.functions]
  | @binary loc op left right _ _ ihLeft ihRight =>
    cases op with
    | assign => simpa only [Expr.functions] using ihRight
    | calculate op =>
      simp only [Expr.functions, List.forall_mem_append]
      exact ⟨ihLeft, ihRight⟩
  | async _ ih | await _ ih | positional _ ih | keyword _ ih =>
    simpa only [Expr.functions] using ih
  | call _ ih => simpa only [Expr.functions, List.append_nil] using all ih
  | block _ _ ih => simpa only [Expr.functions] using all ih
  | lambda _ hbody | definition _ hbody => simpa [Expr.functions] using hbody
  | conditional _ _ ihCondition ihConsequence =>
    simp only [Expr.functions, functionsOfElse, List.append_nil, List.forall_mem_append]
    exact ⟨ihCondition, ihConsequence⟩
  | otherwise _ _ _ ihCondition ihConsequence ihAlternative =>
    simp only [Expr.functions, functionsOfElse, List.forall_mem_append]
    exact ⟨⟨ihCondition, ihAlternative⟩, ihConsequence⟩
  | @elif _ _ _ loc condition consequence alternative _ _ _ ihCondition ihConsequence
      ihAlternative =>
    generalize Expr.conditional loc condition consequence alternative = e at ihAlternative
    simp only [Expr.functions, functionsOfElse, List.forall_mem_append]
    exact ⟨⟨ihCondition, ihAlternative⟩, ihConsequence⟩

end Expr

open Instruction

theorem Region.modest_code {r : Region} (h : r.function.body.Shaped .body) :
    AllModest r.code := by
  refine allModest_concat (allModest_append ?_ (h.modest_code _)) trivial
  cases r.function.itself with
  | none => simp [AllModest]
  | some name => simp [AllModest, Expr.emit, Op.Modest]

section Program

variable {source : Source} {program : List Expr} {exe : Executable}

/-- The operations of a compiled text are modest. -/
theorem modest_of_parse (hparse : source.parse = .ok program) (h : compile program = .ok exe) :
    AllModest exe.code := by
  obtain ⟨-, rfl⟩ := programError?_of_compile h
  have shaped : ∀ r ∈ numberedFunctions program, r.function.body.Shaped .body := by
    refine bodies_regionsFrom (fun _ => Expr.Shaped.functions) fun f hf => ?_
    obtain ⟨e, he, hf⟩ := List.mem_filterMap.mp hf
    have := shaped_of_parse hparse e he
    cases this with
    | definition _ hbody =>
      cases hf
      exact hbody
    | _ => cases hf
  intro i hi
  obtain ⟨r, hr, hi⟩ := List.mem_flatMap.mp hi
  refine (r.modest_code (shaped r hr) i hi).mono ?_
  obtain ⟨a, b, hsplit⟩ := List.append_of_mem hr
  simp only [Executable.link, hsplit, List.flatMap_append, List.flatMap_cons, List.length_append]
  omega

/-- The constants of a compiled text are finite. -/
theorem finite_of_parse (hparse : source.parse = .ok program) (h : compile program = .ok exe) :
    exe.Finite := by
  intro i hi v hv
  have := modest_of_parse hparse h i hi
  rw [hv] at this
  exact this.finite

end Program

end Teal
