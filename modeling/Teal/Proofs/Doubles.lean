import Mathlib
import Teal.Json.Reader

/-!
# Finite doubles

When the result of an operation on doubles is finite. The arithmetic is on the exponents of
unpacked doubles: a double is finite if its exponent is at most 971, and rounding raises the
exponent of the leading digit by at most one.

## Main definitions

* `Double.Under`: an unpacked double is finite and its exponent is bounded.
* `Double.AtLeast`: an unpacked double has a leading digit of some weight.

## Main statements

* `Double.under_roundWithAccuracy`, `Double.under_unpack_pack`: rounding and packing.
* `Double.isFinite_neg`, `Double.isFinite_ofInt`: negation, and integers of 64 bits.
* `Double.isFinite_div_powerOfTen`: quotients by powers of ten.
-/

namespace Teal.Double

open Float.Model (Format UnpackedFloat totalExponent)
open Float.Model.UnpackedFloat

/-- An unpacked double is finite, and its exponent is at most `k`. -/
def Under (k : Int) : UnpackedFloat → Prop
  | .zero _ => True
  | .finite _ _ e _ => e ≤ k
  | .infinity _ | .notANumber => False

instance (k : Int) : DecidablePred (Under k) := fun f =>
  match f with
  | .zero _ => .isTrue trivial
  | .finite _ _ e _ => inferInstanceAs (Decidable (e ≤ k))
  | .infinity _ | .notANumber => .isFalse id

theorem Under.mono {f : UnpackedFloat} {k l : Int} (h : Under k f) (hkl : k ≤ l) : Under l f := by
  cases f with
  | finite s m e hm => exact Int.le_trans h hkl
  | _ => exact h

/-- An unpacked double is a number whose leading digit is for `2 ^ k` or more. -/
def AtLeast (k : Int) : UnpackedFloat → Prop
  | .finite _ m e _ => k ≤ m.log2 + e
  | _ => False

instance (k : Int) : DecidablePred (AtLeast k) := fun f =>
  match f with
  | .finite _ m e _ => inferInstanceAs (Decidable (k ≤ m.log2 + e))
  | .zero _ | .infinity _ | .notANumber => .isFalse id

theorem AtLeast.mono {f : UnpackedFloat} {k l : Int} (h : AtLeast k f) (hkl : l ≤ k) :
    AtLeast l f := by
  cases f with
  | finite s m e hm => exact Int.le_trans hkl h
  | _ => exact h

theorem isFinite_of_under {f : UnpackedFloat} {k : Int} (h : Under k f) : f.isFinite = true := by
  cases f <;> first | rfl | cases h

/-! ## Packing -/

theorem pack_finite (s : Sign) (m : Nat) (e : Int) (hm : 0 < m) :
    pack Format.binary64 (.finite s m e hm) =
      if 2047 ≤ (e + 1075).toNat then packedInfinity Format.binary64 s
      else if m.log2 = 52 then packComponents Format.binary64 s
        (BitVec.ofNat Format.binary64.exponentBits (e + 1075).toNat) (BitVec.ofNat _ m)
      else packComponents Format.binary64 s 0#_ (BitVec.ofNat _ m) := by
  have bias : e + Format.binary64.exponentBias + Format.binary64.mantissaBitsWithoutImplicit =
      e + 1075 := by
    have : (Format.binary64.exponentBias : Int) + Format.binary64.mantissaBitsWithoutImplicit =
        1075 := by decide
    omega
  have infinite : 2 ^ Format.binary64.exponentBits ≤ (e + 1075).toNat + 1 ↔
      2047 ≤ (e + 1075).toNat := by
    have : 2 ^ Format.binary64.exponentBits = 2048 := by decide
    omega
  have digits : m.log2 + 1 = Format.binary64.mantissaBits ↔ m.log2 = 52 := by
    have : Format.binary64.mantissaBits = 53 := by decide
    omega
  simp only [pack, bias, infinite, digits]

section Bits

variable {b : BitVec Format.binary64.numBits}

theorem exponent_of_isFinite (h : (unpack Format.binary64 b).isFinite = true) :
    unpackExponent b ≠ -1#11 := by
  intro he
  simp only [unpack, if_pos he] at h
  split at h <;> cases h

/-- The exponent of the bits of a double, and its mantissa of 53 bits. -/
theorem under_unpack (h : unpackExponent b ≠ -1#11) :
    Under (max (unpackExponent b).toNat 1 - 1075) (unpack Format.binary64 b) := by
  have bias : (Format.binary64.exponentBias : Int) + Format.binary64.mantissaBitsWithoutImplicit =
      1075 := by decide
  simp only [unpack, if_neg h, bias]
  split
  · next hzero =>
    split
    · trivial
    · simp only [Under, hzero]
      decide
  · simp only [Under]
    omega

theorem log2_le_of_unpack {s : Sign} {m : Nat} {e : Int} {hm : 0 < m}
    (h : unpack Format.binary64 b = .finite s m e hm) : m.log2 ≤ 52 := by
  have width (v : BitVec 53) (hv : 0 < v.toNat) : v.toNat.log2 ≤ 52 := by
    have := (Nat.log2_lt (Nat.ne_of_gt hv)).mpr v.isLt
    omega
  simp only [unpack] at h
  split at h
  · split at h <;> cases h
  · split at h
    · split at h <;> cases h
      have : (unpackMantissa b).toNat.log2 < 52 :=
        (Nat.log2_lt (Nat.ne_of_gt hm)).mpr (unpackMantissa b).isLt
      omega
    · cases h
      exact width (1#1 ++ unpackMantissa b) hm

theorem under_unpack_of_isFinite (h : (unpack Format.binary64 b).isFinite = true) :
    Under 971 (unpack Format.binary64 b) := by
  have he := exponent_of_isFinite h
  refine (under_unpack he).mono ?_
  have : (unpackExponent b).toNat < 2048 := (unpackExponent b).isLt
  have : (unpackExponent b).toNat ≠ 2047 := fun h => he (BitVec.eq_of_toNat_eq h)
  omega

/-- A number with the digit that every normal double has. -/
theorem atLeast_unpack (hone : unpackExponent b ≠ -1#11) (hzero : unpackExponent b ≠ 0#11) :
    AtLeast ((unpackExponent b).toNat - 1023) (unpack Format.binary64 b) := by
  have bias : (Format.binary64.exponentBias : Int) + Format.binary64.mantissaBitsWithoutImplicit =
      1075 := by decide
  have digits (v : BitVec 52) : 52 ≤ (1#1 ++ v).toNat.log2 := by
    have hv : 2 ^ 52 ≤ (1#1 ++ v).toNat := by
      rw [BitVec.toNat_append]
      exact Nat.left_le_or
    exact (Nat.le_log2 (by omega)).mpr hv
  simp only [unpack, if_neg hone, if_neg hzero, bias, AtLeast]
  have := digits (unpackMantissa b)
  omega

end Bits

section Pack

variable {s : Sign} {m : Nat} {e k : Int} {hm : 0 < m}

/-- The exponent in the bits of a packed number is zero unless the number has 53 digits. -/
theorem toNat_unpackExponent_pack (he : e ≤ 971) :
    (unpackExponent (pack Format.binary64 (.finite s m e hm))).toNat =
      if m.log2 = 52 then (e + 1075).toNat else 0 := by
  have small : ¬ 2047 ≤ (e + 1075).toNat := by omega
  rw [pack_finite, if_neg small]
  split
  · rw [unpackExponent_packComponents]
    exact Nat.mod_eq_of_lt (show (e + 1075).toNat < 2048 by omega)
  · rw [unpackExponent_packComponents]
    rfl

theorem unpackExponent_pack_ne (he : e ≤ 971) :
    unpackExponent (pack Format.binary64 (.finite s m e hm)) ≠ -1#11 := by
  intro hone
  have toNat : (unpackExponent (pack Format.binary64 (.finite s m e hm))).toNat = _ :=
    toNat_unpackExponent_pack he
  have : (-1#11).toNat = 2047 := by decide
  rw [hone] at toNat
  split at toNat <;> omega

/-- Packing keeps the bound of an exponent. -/
theorem under_unpack_pack {f : UnpackedFloat} (h : Under k f) (hk : k ≤ 971) (least : -1074 ≤ k) :
    Under k (unpack Format.binary64 (pack Format.binary64 f)) := by
  cases f with
  | infinity | notANumber => cases h
  | zero s =>
    have hzero : unpackExponent (pack Format.binary64 (.zero s)) = 0#11 := by
      simp [pack, packedZero]
    refine (under_unpack (by rw [hzero]; decide)).mono ?_
    rw [hzero]
    exact least
  | finite s m e hm =>
    have he : e ≤ k := h
    have hpack : e ≤ 971 := by omega
    refine (under_unpack (unpackExponent_pack_ne hpack)).mono ?_
    rw [toNat_unpackExponent_pack hpack]
    split <;> omega

/-- A packed number of 53 digits keeps the place of its leading digit. -/
theorem atLeast_unpack_pack (hlog : m.log2 = 52) (hlow : -1074 ≤ e) (hhigh : e ≤ 971) :
    AtLeast (e + 52) (unpack Format.binary64 (pack Format.binary64 (.finite s m e hm))) := by
  have toNat : (unpackExponent (pack Format.binary64 (.finite s m e hm))).toNat = _ :=
    toNat_unpackExponent_pack hhigh
  rw [if_pos hlog] at toNat
  refine (atLeast_unpack (unpackExponent_pack_ne hhigh) ?_).mono ?_
  · intro hzero
    have : (0#11).toNat = 0 := by decide
    rw [hzero] at toNat
    omega
  · omega

/-- A packed finite number is finite if it is no infinity. -/
theorem isFinite_unpack_pack {f : UnpackedFloat} (hf : f.isFinite = true)
    (hinf : (unpack Format.binary64 (pack Format.binary64 f)).isInf = false) :
    (unpack Format.binary64 (pack Format.binary64 f)).isFinite = true := by
  cases f with
  | infinity | notANumber => cases hf
  | zero s => exact isFinite_of_under (under_unpack_pack (k := 0) trivial (by decide) (by decide))
  | finite s m e hm =>
    by_cases he : e ≤ 971
    · have under : Under (max e (-1074)) (.finite s m e hm) := Int.le_max_left ..
      exact isFinite_of_under (under_unpack_pack under (by omega) (by omega))
    · have big : 2047 ≤ (e + 1075).toNat := by omega
      rw [pack_finite, if_pos big] at hinf
      simp [packedInfinity, unpack, UnpackedFloat.isInf] at hinf

end Pack

/-! ## Rounding -/

theorem targetExponent_eq (t : Int) :
    Format.binary64.targetExponent t = max (t - 53) (-1074) := rfl

theorem mantissa_shiftRight (em : ExtendedMantissa) (n : Nat) :
    (em >>> n).mantissa = em.mantissa / 2 ^ n := by
  change (n.repeat ExtendedMantissa.shiftRightOne em).mantissa = _
  induction n with
  | zero => simp [Nat.repeat]
  | succ n ih =>
    simp only [Nat.repeat, ExtendedMantissa.shiftRightOne, ih, Nat.div_div_eq_div_mul, Nat.pow_succ]

theorem mantissa_ofMantissaAndAccuracy (m : Nat) (accuracy : Accuracy) :
    (ExtendedMantissa.ofMantissaAndAccuracy m accuracy).mantissa = m := by
  unfold ExtendedMantissa.ofMantissaAndAccuracy
  split <;> rfl

theorem roundedMantissa_bounds (em : ExtendedMantissa) :
    em.mantissa ≤ em.roundedMantissa ∧ em.roundedMantissa ≤ em.mantissa + 1 := by
  unfold ExtendedMantissa.roundedMantissa Accuracy.roundToNearestEven
  split <;> omega

/-- Rounding drops digits at the end of a mantissa, adds at most one, and drops again the digit
that this may have added at the front. -/
theorem roundWithAccuracy_eq (s : Sign) (m : Nat) (e : Int) (accuracy : Accuracy) :
    ∃ r i j : Nat, m / 2 ^ i ≤ r ∧ r ≤ m / 2 ^ i + 1 ∧
      i = (max (m.log2 + 1 + e - 53) (-1074) - e).toNat ∧
      j = (max (r.log2 + 1 + (e + i) - 53) (-1074) - (e + i)).toNat ∧
      roundWithAccuracy Format.binary64 s m e accuracy =
        if h : r / 2 ^ j = 0 then .zero s
        else .finite s (r / 2 ^ j) (e + i + j) (Nat.pos_of_ne_zero h) := by
  let i := (max (m.log2 + 1 + e - 53) (-1074) - e).toNat
  let em := ExtendedMantissa.ofMantissaAndAccuracy m accuracy >>> i
  have hem : em.mantissa = m / 2 ^ i := by
    rw [mantissa_shiftRight, mantissa_ofMantissaAndAccuracy]
  obtain ⟨least, most⟩ := roundedMantissa_bounds em
  refine ⟨em.roundedMantissa, i, _, hem ▸ least, hem ▸ most, rfl, rfl, ?_⟩
  simp only [roundWithAccuracy, shiftToTargetExponent, shiftToExponent, targetExponent_eq,
    totalExponent, mantissa_shiftRight, mantissa_ofMantissaAndAccuracy]
  rfl

/-- Digits that are dropped shorten a mantissa, and one more may be added. -/
theorem log2_le_of_rounded {m r i : Nat} (h : r ≤ m / 2 ^ i + 1) : r.log2 ≤ m.log2 + 1 - i := by
  have hm : m < 2 ^ i * 2 ^ (m.log2 + 1 - i) := by
    rw [← Nat.pow_add]
    exact Nat.lt_of_lt_of_le Nat.lt_log2_self (Nat.pow_le_pow_right (by decide) (by omega))
  have hr : r ≤ 2 ^ (m.log2 + 1 - i) := Nat.le_trans h (Nat.div_lt_of_lt_mul hm)
  by_cases hzero : r = 0
  · simp [hzero]
  · refine Nat.le_of_lt_succ ((Nat.log2_lt hzero).mpr (Nat.lt_of_le_of_lt hr ?_))
    exact Nat.pow_lt_pow_right (by decide) (Nat.lt_succ_self _)

theorem le_log2_of_rounded {m r i : Nat} (hm : m ≠ 0) (h : m / 2 ^ i ≤ r) (hi : i ≤ m.log2) :
    m.log2 - i ≤ r.log2 := by
  have hr : 2 ^ (m.log2 - i) ≤ r := by
    refine Nat.le_trans ?_ h
    rw [Nat.le_div_iff_mul_le (Nat.two_pow_pos i), ← Nat.pow_add, Nat.sub_add_cancel hi]
    exact Nat.log2_self_le hm
  have hpos := Nat.two_pow_pos (m.log2 - i)
  exact (Nat.le_log2 (by omega)).mpr hr

/-- The exponent of a rounded number is bounded if those of the number and of its leading digit
are. -/
theorem under_roundWithAccuracy {s : Sign} {m : Nat} {e k : Int} {accuracy : Accuracy}
    (he : e ≤ k) (hm : m.log2 + e ≤ k + 51) (least : -1074 ≤ k) :
    Under k (roundWithAccuracy Format.binary64 s m e accuracy) := by
  obtain ⟨r, i, j, -, hr, hi, hj, heq⟩ := roundWithAccuracy_eq s m e accuracy
  have := log2_le_of_rounded hr
  rw [heq]
  split
  · trivial
  · simp only [Under]
    omega

/-- A number with enough digits is rounded to 53 digits. -/
theorem roundWithAccuracy_normal {s : Sign} {m : Nat} {e : Int} {a : Accuracy}
    (hm : 52 ≤ m.log2) (he : -1074 ≤ m.log2 + e - 52) :
    ∃ m' e' hm', roundWithAccuracy Format.binary64 s m e a = .finite s m' e' hm' ∧
      m'.log2 = 52 ∧ m.log2 + e - 52 ≤ e' := by
  obtain ⟨r, i, j, hr, hr', hi, hj, heq⟩ := roundWithAccuracy_eq s m e a
  have hm0 : m ≠ 0 := by
    rintro rfl
    simp at hm
  have hmost := log2_le_of_rounded hr'
  have hleast := le_log2_of_rounded hm0 hr (by omega)
  have hr0 : r ≠ 0 := by
    rintro rfl
    simp at hleast
    omega
  have hlog : (r / 2 ^ j).log2 = 52 := by
    have hr2 : r < 2 ^ j * 2 ^ 53 := by
      rw [← Nat.pow_add]
      exact Nat.lt_of_lt_of_le Nat.lt_log2_self (Nat.pow_le_pow_right (by decide) (by omega))
    have hpos : 2 ^ 52 ≤ r / 2 ^ j := by
      rw [Nat.le_div_iff_mul_le (Nat.two_pow_pos j), ← Nat.pow_add]
      exact Nat.le_trans (Nat.pow_le_pow_right (by decide) (by omega)) (Nat.log2_self_le hr0)
    have hne : r / 2 ^ j ≠ 0 := by omega
    exact (Nat.log2_eq_iff hne).mpr ⟨hpos, Nat.div_lt_of_lt_mul hr2⟩
  have hne : r / 2 ^ j ≠ 0 := by
    intro h
    rw [h] at hlog
    simp at hlog
  exact ⟨_, _, Nat.pos_of_ne_zero hne, by rw [heq, dif_neg hne], hlog, by omega⟩

/-! ## Operations -/

/-- The number of binary digits of a product. -/
theorem log2_mul_le (m n : Nat) : (m * n).log2 ≤ m.log2 + n.log2 + 1 := by
  by_cases h : m * n = 0
  · simp [h]
  · refine Nat.le_of_lt_succ ((Nat.log2_lt h).mpr ?_)
    calc m * n < 2 ^ (m.log2 + 1) * 2 ^ (n.log2 + 1) :=
          Nat.mul_lt_mul'' Nat.lt_log2_self Nat.lt_log2_self
      _ = 2 ^ (m.log2 + n.log2 + 1 + 1) := by
          rw [← Nat.pow_add]
          congr 1
          omega

theorem log2_shiftLeft {m : Nat} (hm : m ≠ 0) (k : Nat) : (m <<< k).log2 = m.log2 + k := by
  have hpos := Nat.two_pow_pos k
  rw [Nat.shiftLeft_eq, Nat.log2_eq_iff (Nat.mul_ne_zero hm (by omega))]
  constructor
  · rw [Nat.pow_add]
    exact Nat.mul_le_mul_right _ (Nat.log2_self_le hm)
  · rw [show m.log2 + k + 1 = m.log2 + 1 + k by omega, Nat.pow_add]
    exact Nat.mul_lt_mul_of_pos_right Nat.lt_log2_self hpos

/-- The number of binary digits of a quotient. -/
theorem log2_div_le {m n : Nat} (hn : n ≠ 0) : (m / n).log2 ≤ m.log2 - n.log2 := by
  by_cases h : m / n = 0
  · simp [h]
  · refine Nat.le_of_lt_succ ((Nat.log2_lt h).mpr (Nat.div_lt_of_lt_mul ?_))
    calc m < 2 ^ (m.log2 + 1) := Nat.lt_log2_self
      _ ≤ 2 ^ n.log2 * 2 ^ (m.log2 - n.log2 + 1) := by
          rw [← Nat.pow_add]
          exact Nat.pow_le_pow_right (by decide) (by omega)
      _ ≤ n * 2 ^ (m.log2 - n.log2 + 1) := Nat.mul_le_mul_right _ (Nat.log2_self_le hn)

/-- The product of packed numbers of moderate size. -/
theorem under_mul {b b' : BitVec Format.binary64.numBits}
    (h : Under 400 (unpack Format.binary64 b)) (h' : Under 400 (unpack Format.binary64 b')) :
    Under 971 (mul Format.binary64 (unpack Format.binary64 b) (unpack Format.binary64 b')) := by
  cases hb : unpack Format.binary64 b with
  | infinity | notANumber => simp [hb, Under] at h
  | zero s =>
    cases hb' : unpack Format.binary64 b' with
    | infinity | notANumber => simp [hb', Under] at h'
    | zero | finite => trivial
  | finite s m e hm =>
    cases hb' : unpack Format.binary64 b' with
    | infinity | notANumber => simp [hb', Under] at h'
    | zero => trivial
    | finite s' m' e' hm' =>
      have he : e ≤ 400 := by simpa [hb, Under] using h
      have he' : e' ≤ 400 := by simpa [hb', Under] using h'
      have hdigits := log2_le_of_unpack hb
      have hdigits' := log2_le_of_unpack hb'
      have hproduct := log2_mul_le m m'
      exact under_roundWithAccuracy (by omega) (by omega) (by decide)

/-- The product of finite numbers is no infinity before it is packed. -/
theorem isFinite_mul {f g : UnpackedFloat} (hf : f.isFinite = true) (hg : g.isFinite = true) :
    (mul Format.binary64 f g).isFinite = true := by
  cases f with
  | infinity | notANumber => cases hf
  | zero s =>
    cases g with
    | infinity | notANumber => cases hg
    | zero | finite => rfl
  | finite s m e hm =>
    cases g with
    | infinity | notANumber => cases hg
    | zero => rfl
    | finite s' m' e' hm' =>
      obtain ⟨r, i, j, -, -, -, -, heq⟩ := roundWithAccuracy_eq (s * s') (m * m') (e + e') .exact
      simp only [mul, heq]
      split <;> rfl

/-- Division by two or more keeps a number finite. -/
theorem under_div {b : BitVec Format.binary64.numBits} {g : UnpackedFloat}
    (hf : (unpack Format.binary64 b).isFinite = true) (hg : AtLeast 1 g) :
    Under 971 (div Format.binary64 (unpack Format.binary64 b) g) := by
  have under := under_unpack_of_isFinite hf
  cases g with
  | zero | infinity | notANumber => cases hg
  | finite s' m' e' hm' =>
    have hg : 1 ≤ m'.log2 + e' := hg
    cases hb : unpack Format.binary64 b with
    | infinity | notANumber => simp [hb, UnpackedFloat.isFinite] at hf
    | zero s => trivial
    | finite s m e hm =>
      have hdigits := log2_le_of_unpack hb
      have he : e ≤ 971 := by simpa [hb, Under] using under
      simp only [div, divCore, targetExponent_eq, totalExponent]
      have hquotient (shift : Nat) : ((m <<< shift) / m').log2 ≤ m.log2 + shift - m'.log2 := by
        rw [← log2_shiftLeft (Nat.ne_of_gt hm)]
        exact log2_div_le (Nat.ne_of_gt hm')
      refine under_roundWithAccuracy (by omega) ?_ (by decide)
      refine Int.le_trans (Int.add_le_add_right (Int.ofNat_le.mpr (hquotient _)) _) ?_
      omega

/-! ## Conversions -/

/-- A number is shifted left before it is multiplied by a power of ten. -/
theorem ofScientific_eq {n k : Nat} (hn : n ≠ 0) (hk : k ≤ 308) :
    ∃ m, m.log2 = n.log2 + 53 ∧ ofScientific Format.binary64 n k =
      roundWithAccuracy Format.binary64 (.positive * .positive) (m * 10 ^ k) (-53) .exact := by
  have hbits : (2 ^ Format.binary64.exponentBits : Int) = 2048 := by decide
  refine ⟨n <<< 53, log2_shiftLeft hn 53, ?_⟩
  rw [ofScientific, dif_neg hn, if_neg (by omega), if_neg (by omega), if_pos (by omega)]
  rfl

/-- The double of a number of 64 bits, before it is packed. -/
theorem under_ofNat {n : Nat} (hn : n < UInt64.size) :
    Under 12 (UnpackedFloat.ofNat Format.binary64 n) := by
  by_cases hzero : n = 0
  · subst hzero
    trivial
  · have hlog : n.log2 < 64 := (Nat.log2_lt hzero).mpr hn
    have hpos : compare (n : Int) 0 = .gt := by
      rw [Int.compare_eq_gt]
      omega
    simp only [UnpackedFloat.ofNat, UnpackedFloat.ofInt, UnpackedFloat.normalize, hpos,
      UnpackedFloat.round, decreaseExponent]
    refine under_roundWithAccuracy (by omega) ?_ (by decide)
    rw [Int.toNat_natCast, log2_shiftLeft hzero]
    omega

/-- A number of 64 bits, spelled without an exponent. -/
theorem under_ofScientific_zero {n : Nat} (hzero : n ≠ 0) (hn : n < UInt64.size) :
    Under 971 (ofScientific Format.binary64 n (0 : Nat)) := by
  have hlog : n.log2 < 64 := (Nat.log2_lt hzero).mpr hn
  obtain ⟨m, hm, heq⟩ := ofScientific_eq (k := 0) hzero (by decide)
  rw [heq, Nat.pow_zero, Nat.mul_one]
  exact under_roundWithAccuracy (by decide) (by omega) (by decide)

/-- A power of ten that is no table entry. -/
theorem atLeast_ofScientific {k : Nat} (hk : 23 ≤ k) (hk' : k ≤ 307) :
    AtLeast 1 (unpack Format.binary64
      (pack Format.binary64 (ofScientific Format.binary64 1 k))) := by
  obtain ⟨m, hm, heq⟩ := ofScientific_eq (n := 1) (k := k) (by decide) (by omega)
  have hm53 : m.log2 = 53 := hm
  have hm0 : m ≠ 0 := by
    rintro rfl
    cases hm53
  have hpow : 10 ^ k < 2 ^ 1020 :=
    Nat.lt_of_le_of_lt (Nat.pow_le_pow_right (by decide) hk') (by decide +kernel)
  have hten : 2 ≤ 10 ^ k := by
    calc 2 ≤ 10 ^ 1 := by decide
      _ ≤ 10 ^ k := Nat.pow_le_pow_right (by decide) (by omega)
  have hleast : 54 ≤ (m * 10 ^ k).log2 := by
    refine (Nat.le_log2 (Nat.mul_ne_zero hm0 (by omega))).mpr ?_
    calc 2 ^ 54 = 2 ^ m.log2 * 2 := by rw [hm53, ← Nat.pow_succ]
      _ ≤ m * 10 ^ k := Nat.mul_le_mul (Nat.log2_self_le hm0) hten
  have hmost : (m * 10 ^ k).log2 ≤ 1074 := by
    have := (Nat.log2_lt (by omega)).mpr hpow
    have := log2_mul_le m (10 ^ k)
    omega
  obtain ⟨m', e', hm', hround, hlog, he'⟩ := roundWithAccuracy_normal (s := .positive * .positive)
    (a := .exact) (e := -53) (m := m * 10 ^ k) (by omega) (by omega)
  have hunder : Under 971 (roundWithAccuracy Format.binary64 (.positive * .positive) (m * 10 ^ k)
    (-53) .exact) := under_roundWithAccuracy (by decide) (by omega) (by decide)
  rw [hround] at hunder
  rw [heq, hround]
  refine (atLeast_unpack_pack hlog (by omega) hunder).mono ?_
  omega

/-! ## Doubles -/

theorem isFinite_ofModel_pack {f : UnpackedFloat} {k : Int} (h : Under k f) (hk : k ≤ 971)
    (least : -1074 ≤ k) : (Float.ofModel (Float.Model.pack f)).isFinite = true :=
  isFinite_of_under (under_unpack_pack h hk least)

theorem isFinite_neg {x : Float} (h : x.isFinite = true) : (-x).isFinite = true := by
  have under : Under 971 x.toModel.unpack := under_unpack_of_isFinite h
  refine isFinite_ofModel_pack (f := x.toModel.unpack.neg) (k := 971) ?_ (by decide) (by decide)
  revert under
  cases x.toModel.unpack <;> exact id

/-- A number of 64 bits has a finite double. -/
theorem isFinite_ofNat {n : Nat} (hn : n < UInt64.size) : (Float.ofNat n).isFinite = true := by
  change (Float.ofScientific n false 0).isFinite = true
  rw [Float.ofScientific]
  split
  · have hfactor : Under 400 (n.toUInt64.toFloat).toModel.unpack := by
      refine (under_unpack_pack (under_ofNat ?_) (by decide) (by decide)).mono (by decide)
      exact n.toUInt64.toNat_lt_size
    have hone : Under 400 (Float.ofBits 0x3FF0000000000000).toModel.unpack := by decide +kernel
    exact isFinite_ofModel_pack (under_mul hfactor hone) (by decide) (by decide)
  · next hbig =>
    have hzero : n ≠ 0 := by
      rintro rfl
      exact hbig ⟨by decide, by decide⟩
    exact isFinite_ofModel_pack (under_ofScientific_zero hzero hn) (by decide) (by decide)

theorem isFinite_ofInt {i : Int} (hi : i.natAbs < UInt64.size) :
    (Float.ofInt i).isFinite = true := by
  cases i with
  | ofNat n => exact isFinite_ofNat hi
  | negSucc n => exact isFinite_neg (isFinite_ofNat hi)

/-- The product of finite doubles is finite if it is no infinity. -/
theorem isFinite_mul_of_not_isInf {x y : Float} (hx : x.isFinite = true) (hy : y.isFinite = true)
    (h : (x * y).isInf = false) : (x * y).isFinite = true :=
  isFinite_unpack_pack (isFinite_mul hx hy) h

open Json.Number (powerOfTen)

theorem atLeast_powerOfTen {k : Nat} (hk : 1 ≤ k) (hk' : k ≤ 308) :
    AtLeast 1 (powerOfTen k).toModel.unpack := by
  by_cases hsmall : k < 23
  · have hall : ∀ k < 23, 1 ≤ k → AtLeast 1 (powerOfTen k).toModel.unpack := by decide +kernel
    exact hall k hsmall hk
  · by_cases hlast : k = 308
    · subst hlast
      decide +kernel
    · rw [powerOfTen, Float.ofScientific, dif_neg (by omega)]
      exact atLeast_ofScientific (by omega) (by omega)

theorem isFinite_powerOfTen_zero : (powerOfTen 0).isFinite = true := by
  decide +kernel

theorem isFinite_of_atLeast {f : UnpackedFloat} {k : Int} (h : AtLeast k f) :
    f.isFinite = true := by
  cases f <;> first | rfl | cases h

/-- A power of ten is finite. -/
theorem isFinite_powerOfTen {k : Nat} (hk : k ≤ 308) : (powerOfTen k).isFinite = true := by
  cases k with
  | zero => exact isFinite_powerOfTen_zero
  | succ k => exact isFinite_of_atLeast (atLeast_powerOfTen (by omega) hk)

theorem isFinite_div_powerOfTen {x : Float} {k : Nat} (hx : x.isFinite = true) (hk : 1 ≤ k)
    (hk' : k ≤ 308) : (x / powerOfTen k).isFinite = true :=
  isFinite_ofModel_pack (under_div hx (atLeast_powerOfTen hk hk')) (by decide) (by decide)

end Teal.Double
