import Mathlib.Data.List.Forall2
import Teal.Compile

/-!
# Regions of related functions

Two programs whose expressions correspond, part by part, have corresponding regions: the functions
of one are those of the other but for their bodies, and they come in the same order and have the
same numbers. The relation between bodies is a parameter; it has to pass to the functions that
related bodies make.

## Main definitions

* `Function.Like`, `Region.Like`: functions and regions that differ in their bodies only.
* `Expr.Hereditary`: a relation of bodies that passes to the functions inside them.

## Main statements

* `Expr.Hereditary.regionsFrom`: related functions have related regions.
-/

namespace Teal

open List (Forall₂)

/-- Functions with related bodies that are otherwise the same. -/
structure Function.Like (R : Expr → Expr → Prop) (f g : Function) : Prop where
  name : g.name = f.name
  params : g.params = f.params
  tag : g.tag = f.tag
  itself : g.itself = f.itself
  body : R f.body g.body

structure Region.Like (R : Expr → Expr → Prop) (r s : Region) : Prop where
  function : r.function.Like R s.function
  next : s.next = r.next

/-- Related expressions make related functions, and hold as many of them. -/
structure Expr.Hereditary (R : Expr → Expr → Prop) : Prop where
  functions {e e' : Expr} : R e e' → Forall₂ (Function.Like R) e.functions e'.functions
  functionCount {e e' : Expr} : R e e' → e'.functionCount = e.functionCount

variable {R : Expr → Expr → Prop}

theorem Function.Like.numbered {f g : Function} (h : f.Like R g) (n : Nat) :
    (f.numbered n).Like R (g.numbered n) :=
  ⟨by simp only [Function.numbered, h.name], h.params, h.tag, h.itself, h.body⟩

namespace Expr.Hereditary

theorem nested (her : Hereditary R) {f g : Function} (h : f.Like R g) (next : Nat) :
    Forall₂ (Function.Like R) (f.nested next) (g.nested next) := by
  have hfunctions := her.functions h.body
  unfold Function.nested
  generalize f.body.functions = fs, g.body.functions = gs at hfunctions
  induction hfunctions generalizing next with
  | nil => exact .nil
  | cons hd _ ih => exact .cons (hd.numbered next) (ih (next + 1))

theorem closures (her : Hereditary R) {r s : Region} (h : r.Like R s) : s.closures = r.closures :=
  (her.functions h.function.body).length_eq.symm

theorem closuresOfAll (her : Hereditary R) {rs ss : List Region}
    (h : Forall₂ (Region.Like R) rs ss) : Region.closuresOfAll ss = Region.closuresOfAll rs := by
  induction h with
  | nil => rfl
  | cons hd _ ih => simp only [Region.closuresOfAll, her.closures hd, ih]

theorem family (her : Hereditary R) (fuel next : Nat) {fs gs : List Function}
    (h : Forall₂ (Function.Like R) fs gs) :
    Forall₂ (Region.Like R) (Region.family fuel next fs) (Region.family fuel next gs) := by
  induction fuel generalizing next fs gs with
  | zero => exact .nil
  | succ fuel ih =>
    cases h with
    | nil => exact .nil
    | @cons f g fs gs hd tl =>
      have first : Region.Like R ⟨f, next⟩ ⟨g, next⟩ := ⟨hd, rfl⟩
      refine .cons first ?_
      rw [her.closures first]
      exact ih _ (List.rel_append tl (her.nested hd next))

theorem regions (her : Hereditary R) {f g : Function} (h : f.Like R g) (next : Nat) :
    Forall₂ (Region.Like R) (f.regions next) (g.regions next) := by
  unfold Function.regions
  rw [her.functionCount h.body]
  exact her.family _ _ (.cons h .nil)

/-- Related functions have related regions. -/
theorem regionsFrom (her : Hereditary R) (next : Nat) {fs gs : List Function}
    (h : Forall₂ (Function.Like R) fs gs) :
    Forall₂ (Region.Like R) (Teal.regionsFrom next fs) (Teal.regionsFrom next gs) := by
  induction h generalizing next with
  | nil => exact .nil
  | cons hd _ ih =>
    have first := her.regions hd next
    simp only [Teal.regionsFrom, her.closuresOfAll first]
    exact List.rel_append first (ih _)

end Expr.Hereditary

/-- Related expressions are definitions of related functions, or neither is a definition. -/
def Expr.SameRoot (R : Expr → Expr → Prop) (e e' : Expr) : Prop :=
  (e.function? = none ∧ e'.function? = none) ∨
    ∃ f g, e.function? = some f ∧ e'.function? = some g ∧ f.Like R g

theorem Expr.SameRoot.filterMap {p q : List Expr} (h : Forall₂ (Expr.SameRoot R) p q) :
    Forall₂ (Function.Like R) (p.filterMap Expr.function?) (q.filterMap Expr.function?) := by
  induction h with
  | nil => exact .nil
  | cons hd _ ih =>
    rcases hd with ⟨he, he'⟩ | ⟨f, g, he, he', hlike⟩
    · rwa [List.filterMap_cons_none he, List.filterMap_cons_none he']
    · rw [List.filterMap_cons_some he, List.filterMap_cons_some he']
      exact .cons hlike ih

end Teal
