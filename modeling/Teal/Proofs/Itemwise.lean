import Mathlib.Data.List.Forall2

/-!
# Lists item by item

What holds of each item of a list. It may depend on the place of the item, as it does for the
instructions of a fragment of code, or relate the item to one of another list.

## Main definitions

* `ForallAt`: each item has a property at its place.

## Main statements

* `forallAt_append`: of two lists one after the other.
* `exists_of_mem_right`: in related lists each item of the second is related to one of the first.
* `mapM_eq_some_iff`, `mapM_eq_ok_iff`: each item is related to what is made of it.
-/

namespace Teal

open List (Forall₂)

variable {α β ε : Type}

/-! ## Items at their places -/

/-- Each item of a list has a property at its place; the first one is at `start`. -/
def ForallAt (P : Nat → α → Prop) (start : Nat) (as : List α) : Prop :=
  ∀ k a, as[k]? = some a → P (start + k) a

section Places

variable {P : Nat → α → Prop} {start : Nat} {a : α} {as bs : List α}

theorem forallAt_nil : ForallAt P start [] :=
  nofun

theorem forallAt_cons : ForallAt P start (a :: as) ↔ P start a ∧ ForallAt P (start + 1) as := by
  refine ⟨fun h => ⟨h 0 a rfl, fun k b hk => ?_⟩, fun ⟨ha, has⟩ k b hk => ?_⟩
  · rw [Nat.add_assoc, Nat.add_comm 1]
    exact h (k + 1) b hk
  · cases k with
    | zero =>
      cases hk
      exact ha
    | succ k =>
      rw [Nat.add_comm k, ← Nat.add_assoc]
      exact has k b hk

theorem forallAt_append :
    ForallAt P start (as ++ bs) ↔ ForallAt P start as ∧ ForallAt P (start + as.length) bs := by
  induction as generalizing start with
  | nil => simp [forallAt_nil]
  | cons a as ih =>
    rw [List.cons_append, forallAt_cons, ih, forallAt_cons, and_assoc, List.length_cons,
      Nat.add_assoc, Nat.add_comm 1]

theorem ForallAt.one (h : P start a) : ForallAt P start [a] :=
  forallAt_cons.mpr ⟨h, forallAt_nil⟩

theorem ForallAt.append (has : ForallAt P start as) (hbs : ForallAt P (start + as.length) bs) :
    ForallAt P start (as ++ bs) :=
  forallAt_append.mpr ⟨has, hbs⟩

end Places

/-! ## Items of related lists -/

theorem exists_of_mem_right {R : α → β → Prop} {as : List α} {bs : List β} (h : Forall₂ R as bs)
    {b : β} (hb : b ∈ bs) : ∃ a ∈ as, R a b := by
  induction h with
  | nil => cases hb
  | cons hab _ ih =>
    rcases List.mem_cons.mp hb with rfl | hb
    · exact ⟨_, List.mem_cons_self, hab⟩
    · obtain ⟨a, ha, hr⟩ := ih hb
      exact ⟨a, List.mem_cons_of_mem _ ha, hr⟩

/-- Reading items one after the other relates each to what it gives. -/
theorem mapM_eq_some_iff {f : α → Option β} {items : List α} {found : List β} :
    items.mapM f = some found ↔ Forall₂ (fun a b => f a = some b) items found := by
  induction items generalizing found with
  | nil => simp [eq_comm]
  | cons a items ih =>
    rw [List.mapM_cons, List.forall₂_cons_left_iff]
    cases ha : f a with
    | none => simp
    | some b => simp [← ih, Option.bind_eq_some_iff, @eq_comm _ found]

/-- Writing items one after the other relates each to its document. -/
theorem mapM_eq_ok_iff {f : α → Except ε β} {items : List α} {found : List β} :
    items.mapM f = .ok found ↔ Forall₂ (fun a b => f a = .ok b) items found := by
  induction items generalizing found with
  | nil =>
    rw [List.mapM_nil, List.forall₂_nil_left_iff]
    exact ⟨fun h => by cases h; rfl, fun h => h ▸ rfl⟩
  | cons a items ih =>
    rw [List.mapM_cons, List.forall₂_cons_left_iff]
    cases ha : f a with
    | error e => simp [bind, Except.bind]
    | ok b =>
      cases hrest : items.mapM f with
      | error e => simp [bind, Except.bind, ← ih, hrest]
      | ok bs => simp [bind, Except.bind, pure, Except.pure, ← ih, hrest, eq_comm]

end Teal
