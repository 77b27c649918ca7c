import Teal.Expr
import Teal.Value

/-!
# Induction over expressions and values

Expressions and values hold lists and options of their own kind. The recursors have a motive for
each of these; the induction principles below have one motive, and give the hypothesis for every
member of a list.

## Main statements

* `Expr.induct`, `Value.induct`: induction over expressions and over values.
-/

namespace Teal

/-- Induction over expressions. -/
@[induction_eliminator]
theorem Expr.induct {P : Expr → Prop}
    (definition : ∀ loc name params body tag, P body → P (.definition loc name params body tag))
    (lambda : ∀ loc params body, P body → P (.lambda loc params body))
    (call : ∀ loc callee args, P callee → (∀ a ∈ args, P a) → P (.call loc callee args))
    (argument : ∀ loc keyword value, (∀ k ∈ keyword, P k) → P value →
      P (.argument loc keyword value))
    (ident : ∀ loc name, P (.ident loc name))
    (symbol : ∀ loc name, P (.symbol loc name))
    (literal : ∀ loc value, P (.literal loc value))
    (binary : ∀ loc op left right, P left → P right → P (.binary loc op left right))
    (conditional : ∀ loc condition consequence alternative, P condition → P consequence →
      (∀ e ∈ alternative, P e) → P (.conditional loc condition consequence alternative))
    (async : ∀ loc inner, P inner → P (.async loc inner))
    (await : ∀ loc inner, P inner → P (.await loc inner))
    (block : ∀ loc items, (∀ e ∈ items, P e) → P (.block loc items)) (e : Expr) : P e := by
  refine @Expr.rec P (fun es => ∀ e ∈ es, P e) (fun o => ∀ e ∈ o, P e) definition lambda call
    argument ident symbol literal binary conditional async await block ?_ ?_ ?_ ?_ e
  · simp
  · intro e es he hes
    exact List.forall_mem_cons.mpr ⟨he, hes⟩
  · simp
  · simp

/-- Induction over values. -/
@[induction_eliminator]
theorem Value.induct {P : Value → Prop} (null : P .null) (boolean : ∀ b, P (.boolean b))
    (integer : ∀ n, P (.integer n)) (float : ∀ x, P (.float x)) (string : ∀ s, P (.string s))
    (symbol : ∀ s, P (.symbol s)) (list : ∀ items, (∀ v ∈ items, P v) → P (.list items))
    (hash : ∀ pairs, (∀ p ∈ pairs, P p.1 ∧ P p.2) → P (.hash pairs))
    (function : ∀ name, P (.function name))
    (closure : ∀ function captured, (∀ entry ∈ captured, P entry.2) →
      P (.closure function captured))
    (future : ∀ task, P (.future task)) (v : Value) : P v := by
  refine @Value.rec P (fun vs => ∀ v ∈ vs, P v) (fun ps => ∀ p ∈ ps, P p.1 ∧ P p.2)
    (fun es => ∀ e ∈ es, P e.2) (fun p => P p.1 ∧ P p.2) (fun e => P e.2) null boolean integer
    float string symbol list hash function closure future ?_ ?_ ?_ ?_ ?_ ?_ ?_ ?_ v
  · simp
  · intro v vs hv hvs
    exact List.forall_mem_cons.mpr ⟨hv, hvs⟩
  · simp
  · intro p ps hp hps
    exact List.forall_mem_cons.mpr ⟨hp, hps⟩
  · simp
  · intro e es he hes
    exact List.forall_mem_cons.mpr ⟨he, hes⟩
  · exact fun _ _ hk hv => ⟨hk, hv⟩
  · exact fun _ _ hv => hv

end Teal
