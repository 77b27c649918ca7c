import Mathlib
import Teal.Proofs.Induction
import Teal.Proofs.Parts

/-!
# Equality of values

Values are compared part by part, and doubles as numbers: the two zeros are equal, and what is no
number is equal to nothing. So equality is symmetric and transitive, and a value is equal to itself
unless some double in it is no number.

## Main definitions

* `Double.comparand`: what counts of a double when it is compared.
* `Value.NaNFree`: every double in a value is a number.

## Main statements

* `Double.beq_iff`: doubles are equal if what counts of them is the same.
* `Value.same_self`, `Value.same_comm`, `Value.same_trans`: the laws of equality.
-/

namespace Teal

variable {α β γ : Type}

/-! ## Doubles -/

namespace Double

open Float.Model (UnpackedFloat)

/-- What counts of a double when it is compared: nothing if it is no number, and all but the sign of
a zero otherwise. -/
def comparand : UnpackedFloat → Option UnpackedFloat
  | .notANumber => none
  | .zero _ => some (.zero .positive)
  | x => some x

theorem compare_eq_iff (f g : UnpackedFloat) :
    f.compare g = some .eq ↔ ∃ k, comparand f = some k ∧ comparand g = some k := by
  have digits (e d : Int) (m n : Nat) :
      (compare e d).then (compare m n) = .eq ↔ n = m ∧ d = e := by
    rw [Ordering.then_eq_eq, Std.compare_eq_iff_eq, Std.compare_eq_iff_eq, and_comm, eq_comm,
      @eq_comm _ e]
  cases f with
  | notANumber => simp [UnpackedFloat.compare, comparand]
  | zero s =>
    rcases g with (_ | _) | _ | _ | (_ | _) <;> cases s <;> simp [UnpackedFloat.compare, comparand]
  | infinity s =>
    rcases g with (_ | _) | _ | _ | (_ | _) <;> cases s <;>
      simp [UnpackedFloat.compare, comparand, compare]
  | finite s m e hm =>
    rcases g with (_ | _) | _ | _ | (_ | _) <;> cases s <;>
      simp [UnpackedFloat.compare, comparand, digits]

/-- Doubles are equal if what counts of them is the same. -/
theorem beq_iff (x y : Float) : (x == y) = true ↔
    ∃ k, comparand x.toModel.unpack = some k ∧ comparand y.toModel.unpack = some k := by
  change (x.toModel.unpack.compare y.toModel.unpack == some .eq) = true ↔ _
  rw [beq_iff_eq, compare_eq_iff]

theorem beq_symm {x y : Float} (h : (x == y) = true) : (y == x) = true := by
  obtain ⟨k, hx, hy⟩ := (beq_iff x y).mp h
  exact (beq_iff y x).mpr ⟨k, hy, hx⟩

theorem beq_trans {x y z : Float} (hxy : (x == y) = true) (hyz : (y == z) = true) :
    (x == z) = true := by
  obtain ⟨k, hx, hy⟩ := (beq_iff x y).mp hxy
  obtain ⟨l, hy', hz⟩ := (beq_iff y z).mp hyz
  obtain rfl : k = l := Option.some.inj (hy.symm.trans hy')
  exact (beq_iff x z).mpr ⟨k, hx, hz⟩

/-- A double is equal to itself if it is a number. -/
theorem beq_self {x : Float} (h : x.isNaN = false) : (x == x) = true := by
  rw [beq_iff]
  change x.toModel.unpack.isNaN = false at h
  cases hx : x.toModel.unpack with
  | notANumber =>
    rw [hx] at h
    cases h
  | _ => exact ⟨_, rfl, rfl⟩

end Double

/-! ## Lists that are related item by item -/

theorem forall₂_symm_of_mem {R : α → β → Prop} {S : β → α → Prop} {as : List α} {bs : List β}
    (h : ∀ a ∈ as, ∀ b, R a b → S b a) (hab : List.Forall₂ R as bs) : List.Forall₂ S bs as := by
  induction hab with
  | nil => exact .nil
  | cons hhead _ ih =>
    rw [List.forall_mem_cons] at h
    exact .cons (h.1 _ hhead) (ih h.2)

theorem forall₂_trans_of_mem {R : α → β → Prop} {S : β → γ → Prop} {T : α → γ → Prop}
    {as : List α} {bs : List β} {cs : List γ} (h : ∀ a ∈ as, ∀ b c, R a b → S b c → T a c)
    (hab : List.Forall₂ R as bs) (hbc : List.Forall₂ S bs cs) : List.Forall₂ T as cs := by
  induction hab generalizing cs with
  | nil =>
    cases hbc
    exact .nil
  | cons hhead _ ih =>
    rw [List.forall_mem_cons] at h
    cases hbc with
    | cons hhead' hrest => exact .cons (h.1 _ _ hhead hhead') (ih h.2 hrest)

/-! ## Values -/

namespace Value

/-- Every double in a value is a number. -/
def NaNFree (v : Value) : Prop :=
  ∀ x : Float, Part (.float x) v → x.isNaN = false

theorem sameItems_iff {as bs : List Value} :
    sameItems as bs = true ↔ List.Forall₂ (fun a b => a.same b = true) as bs := by
  induction as generalizing bs with
  | nil => cases bs <;> simp [sameItems]
  | cons a as ih => cases bs <;> simp [sameItems, ih]

theorem samePairs_iff {as bs : List (Value × Value)} : samePairs as bs = true ↔
    List.Forall₂ (fun p q => p.1.same q.1 = true ∧ p.2.same q.2 = true) as bs := by
  induction as generalizing bs with
  | nil => cases bs <;> simp [samePairs]
  | cons a as ih => cases bs <;> simp [samePairs, ih]

theorem sameEntries_iff {as bs : List (String × Value)} : sameEntries as bs = true ↔
    List.Forall₂ (fun e f => e.1 = f.1 ∧ e.2.same f.2 = true) as bs := by
  induction as generalizing bs with
  | nil => cases bs <;> simp [sameEntries]
  | cons a as ih => cases bs <;> simp [sameEntries, ih]

/-- A value is equal to itself if every double in it is a number. -/
theorem same_self {v : Value} (h : v.NaNFree) : v.same v = true := by
  induction v with
  | float x => exact Double.beq_self (h x .self)
  | list items ih =>
    rw [same, sameItems_iff, List.forall₂_same]
    exact fun v hv => ih v hv fun x hx => h x (.item hv hx)
  | hash pairs ih =>
    rw [same, samePairs_iff, List.forall₂_same]
    exact fun p hp => ⟨(ih p hp).1 fun x hx => h x (.key hp hx),
      (ih p hp).2 fun x hx => h x (.value hp hx)⟩
  | closure function captured ih =>
    have hentries : sameEntries captured captured = true := by
      rw [sameEntries_iff, List.forall₂_same]
      exact fun e he => ⟨rfl, ih e he fun x hx => h x (.captured he hx)⟩
    simp [same, hentries]
  | _ => simp [same]

/-! ### What a value is equal to -/

/-- What has no parts and is no double is equal to itself only. -/
theorem eq_of_same {v w : Value} (h : v.same w = true)
    (hkind : v.kind ∉ [.float, .list, .hash, .closure]) : w = v := by
  cases v <;> cases w <;> simp_all [same, kind]

theorem exists_of_same_float {x : Float} {w : Value} (h : (float x).same w = true) :
    ∃ y, w = .float y ∧ (x == y) = true := by
  cases w with
  | float y => exact ⟨y, rfl, h⟩
  | _ => cases h

theorem exists_of_same_list {as : List Value} {w : Value} (h : (list as).same w = true) :
    ∃ bs, w = .list bs ∧ List.Forall₂ (fun a b => a.same b = true) as bs := by
  cases w with
  | list bs => exact ⟨bs, rfl, sameItems_iff.mp h⟩
  | _ => cases h

theorem exists_of_same_hash {as : List (Value × Value)} {w : Value}
    (h : (hash as).same w = true) : ∃ bs, w = .hash bs ∧
      List.Forall₂ (fun p q => p.1.same q.1 = true ∧ p.2.same q.2 = true) as bs := by
  cases w with
  | hash bs => exact ⟨bs, rfl, samePairs_iff.mp h⟩
  | _ => cases h

theorem exists_of_same_closure {function : String} {as : List (String × Value)} {w : Value}
    (h : (closure function as).same w = true) : ∃ bs, w = .closure function bs ∧
      List.Forall₂ (fun e f => e.1 = f.1 ∧ e.2.same f.2 = true) as bs := by
  cases w with
  | closure other bs =>
    simp only [same, Bool.and_eq_true, decide_eq_true_eq] at h
    exact ⟨bs, by rw [h.1], sameEntries_iff.mp h.2⟩
  | _ => cases h

theorem same_closure {function : String} {as bs : List (String × Value)}
    (h : List.Forall₂ (fun e f => e.1 = f.1 ∧ e.2.same f.2 = true) as bs) :
    (closure function as).same (.closure function bs) = true := by
  simp [same, sameEntries_iff.mpr h]

/-! ### Laws -/

theorem same_symm {v w : Value} (h : v.same w = true) : w.same v = true := by
  induction v generalizing w with
  | float x =>
    obtain ⟨y, rfl, hxy⟩ := exists_of_same_float h
    exact Double.beq_symm hxy
  | list items ih =>
    obtain ⟨others, rfl, hitems⟩ := exists_of_same_list h
    exact sameItems_iff.mpr (forall₂_symm_of_mem (fun v hv _ => ih v hv) hitems)
  | hash pairs ih =>
    obtain ⟨others, rfl, hpairs⟩ := exists_of_same_hash h
    exact samePairs_iff.mpr
      (forall₂_symm_of_mem (fun p hp _ => And.imp (ih p hp).1 (ih p hp).2) hpairs)
  | closure function captured ih =>
    obtain ⟨others, rfl, hentries⟩ := exists_of_same_closure h
    exact same_closure (forall₂_symm_of_mem (fun e he _ => And.imp Eq.symm (ih e he)) hentries)
  | _ =>
    obtain rfl := eq_of_same h (by simp [kind])
    exact h

theorem same_comm (v w : Value) : v.same w = w.same v :=
  Bool.eq_iff_iff.mpr ⟨same_symm, same_symm⟩

theorem same_trans {u v w : Value} (huv : u.same v = true) (hvw : v.same w = true) :
    u.same w = true := by
  induction u generalizing v w with
  | float x =>
    obtain ⟨y, rfl, hxy⟩ := exists_of_same_float huv
    obtain ⟨z, rfl, hyz⟩ := exists_of_same_float hvw
    exact Double.beq_trans hxy hyz
  | list items ih =>
    obtain ⟨others, rfl, hitems⟩ := exists_of_same_list huv
    obtain ⟨more, rfl, hothers⟩ := exists_of_same_list hvw
    refine sameItems_iff.mpr (forall₂_trans_of_mem (fun v hv _ _ huv hvw => ?_) hitems hothers)
    exact ih v hv huv hvw
  | hash pairs ih =>
    obtain ⟨others, rfl, hpairs⟩ := exists_of_same_hash huv
    obtain ⟨more, rfl, hothers⟩ := exists_of_same_hash hvw
    refine samePairs_iff.mpr (forall₂_trans_of_mem (fun p hp _ _ hpq hqr => ?_) hpairs hothers)
    exact ⟨(ih p hp).1 hpq.1 hqr.1, (ih p hp).2 hpq.2 hqr.2⟩
  | closure function captured ih =>
    obtain ⟨others, rfl, hentries⟩ := exists_of_same_closure huv
    obtain ⟨more, rfl, hothers⟩ := exists_of_same_closure hvw
    refine same_closure (forall₂_trans_of_mem (fun e he _ _ hef hfg => ?_) hentries hothers)
    exact ⟨hef.1.trans hfg.1, ih e he hef.2 hfg.2⟩
  | _ =>
    obtain rfl := eq_of_same huv (by simp [kind])
    exact hvw

end Value

end Teal
