import Mathlib
import DenseFactor.Proofs.Scalar.Sum

/-!
# DenseFactor.Proofs.Scalar.Product

**Products that are not rounded away.**

Design points:

* A product is rounded to zero if it is at most half of the least number of the format. The
  square of a rounded root is not: a root is off by less than one unit, and if it has at least
  three units, its square is more than half of what it is the root of.
* Whether a product is zero does not depend on the signs of its factors, and with larger factors
  it is zero no more than before.
-/

namespace DenseFactor

namespace Rounding

open Float.Model Float.Model.UnpackedFloat

variable {format : Format} {m m' : ℕ} {e e' : ℤ}

theorem mul_comm (x y : UnpackedFloat) : mul format x y = mul format y x := by
  have hsign (s t : Sign) : s * t = t * s := by cases s <;> cases t <;> rfl
  cases x <;> cases y <;>
    simp only [UnpackedFloat.mul, hsign, Nat.mul_comm, Int.add_comm]

/-- More than half of the least number is not rounded to zero. -/
theorem roundedPlace_pos (h : 2 ^ (format.minExponent - e).toNat < 2 * m) :
    0 < roundedPlace format m e := by
  have hfractions := fractions_pos format
  unfold roundedPlace
  rcases (minExponent_le_roundedExponent format m e).eq_or_lt with heq | hlt
  · rw [← heq, sub_self, zero_mul, zero_add]
    generalize (format.minExponent - e).toNat = k at h
    have hpos : 0 < nearestEven m k := by
      unfold nearestEven
      by_cases hquotient : m < 2 ^ k
      · rw [Nat.mod_eq_of_lt hquotient, if_pos h]
        exact Nat.succ_pos _
      · exact Nat.add_pos_left (Nat.div_pos (not_lt.1 hquotient) (Nat.two_pow_pos k)) _
    exact_mod_cast hpos
  · have hproduct : 0 < (roundedExponent format m e - format.minExponent) * (fractions format : ℤ) :=
      mul_pos (by omega) hfractions
    omega

/-- The least number is small in a format that is not too narrow. -/
theorem minExponent_le_neg_four (hbits : 3 ≤ format.exponentBits)
    (hmantissa : 2 ≤ format.mantissaBitsWithoutImplicit) : format.minExponent ≤ -4 := by
  have hsum := minExponent_add format
  have hpow : 2 ^ 2 ≤ 2 ^ (format.exponentBits - 1) :=
    Nat.pow_le_pow_right Nat.two_pos (by omega)
  have hbias : 3 ≤ format.exponentBias := by
    unfold Format.exponentBias
    omega
  omega

/-- The square of the root of a positive number is more than half of the least number. -/
theorem Canonical.sqrt_square (h : Canonical format m e) (hbits : 3 ≤ format.exponentBits)
    (hmantissa : 2 ≤ format.mantissaBitsWithoutImplicit) :
    ∃ m' e', ∃ h' : Canonical format m' e',
      UnpackedFloat.sqrt format (.finite .positive m e h.pos) = .finite .positive m' e' h'.pos ∧
        0 < roundedPlace format (m' * m') (e' + e') := by
  obtain ⟨m', e', h', hsqrt, t, ht, hte, hlt⟩ := h.sqrt_lower
  refine ⟨m', e', h', hsqrt, roundedPlace_pos ?_⟩
  have hfour : 4 ≤ fractions format := Nat.pow_le_pow_right (n := 2) Nat.two_pos hmantissa
  have hleast := minExponent_le_neg_four hbits hmantissa
  by_cases hnormal : format.minExponent ≤ e' + e'
  · have hnone : (format.minExponent - (e' + e')).toNat = 0 := by omega
    have hpos := Nat.mul_pos h'.pos h'.pos
    rw [hnone]
    omega
  -- compare with the least number, at the exponent of the exact root
  set a := (format.minExponent - (e' + e')).toNat with ha
  have hpow : 2 ^ a < (m' + 1) ^ 2 := by
    have hexponent : a + 2 * (e' - t).toNat ≤ (e - 2 * t).toNat := by
      have := h.le
      omega
    have hle : 2 ^ a * (2 ^ (e' - t).toNat) ^ 2 ≤ m * 2 ^ (e - 2 * t).toNat := by
      rw [← pow_mul, ← pow_add, Nat.mul_comm _ 2]
      exact (Nat.pow_le_pow_right Nat.two_pos hexponent).trans (Nat.le_mul_of_pos_left _ h.pos)
    rw [mul_pow] at hlt
    exact lt_of_mul_lt_mul_right (hle.trans_lt hlt) (Nat.zero_le _)
  have hthree : 3 ≤ m' := by
    rcases h'.normal with heq | hfull
    · have hsixteen : 2 ^ 4 ≤ 2 ^ a := Nat.pow_le_pow_right Nat.two_pos (by omega)
      by_contra hsmall
      have : (m' + 1) ^ 2 ≤ 3 ^ 2 := Nat.pow_le_pow_left (by omega) 2
      omega
    · omega
  nlinarith

end Rounding

/-- Binary scalars of a format that is not too narrow. -/
class WideScalar (ρ : Type) [RealScalar ρ] [BinaryScalar ρ] : Prop where
  three_le_exponentBits : 3 ≤ (BinaryScalar.format ρ).exponentBits
  two_le_mantissaBits : 2 ≤ (BinaryScalar.format ρ).mantissaBitsWithoutImplicit

instance : WideScalar Float := ⟨by decide, by decide⟩

instance : WideScalar Float32 := ⟨by decide, by decide⟩

namespace BinaryScalar

open Float.Model Float.Model.UnpackedFloat

variable {ρ : Type} [RealScalar ρ] [BinaryScalar ρ] {x y z : ρ}

/-! ### Products -/

theorem unpacked_mul_comm (x y : ρ) : unpacked (x * y) = unpacked (y * x) := by
  rw [unpacked_mul, unpacked_mul, Rounding.mul_comm]

theorem isZero_congr (h : unpacked x = unpacked y) :
    Scalar.isZero x = true ↔ Scalar.isZero y = true := by
  rw [isZero_iff, isZero_iff, h]

theorem isZero_neg_mul : Scalar.isZero (-x * y) = true ↔ Scalar.isZero (x * y) = true := by
  simp [isZero_iff_place]

theorem isZero_mul_comm : Scalar.isZero (x * y) = true ↔ Scalar.isZero (y * x) = true :=
  isZero_congr (unpacked_mul_comm x y)

/-- A zero times a finite number is one. -/
theorem isZero_mul (hx : Scalar.isZero x = true) (hy : RealScalar.isFinite y = true) :
    Scalar.isZero (x * y) = true := by
  obtain ⟨s, hs⟩ := isZero_iff.1 hx
  exact isZero_mul_comm.1 (isZero_iff_place.2 (mul_zero_place hs hy))

/-- A zero times an infinity is a NaN, as is a zero times a NaN. -/
theorem isNaN_mul (hx : Scalar.isZero x = true) (hy : ¬ RealScalar.isFinite y = true) :
    RealScalar.isNaN (x * y) = true := by
  obtain ⟨s, hs⟩ := isZero_iff.1 hx
  have hproduct : UnpackedFloat.mul (format ρ) (unpacked x) (unpacked y) = .notANumber := by
    rw [isFinite_eq] at hy
    rw [hs]
    cases hcase : unpacked y with
    | notANumber => rfl
    | infinity t => rfl
    | _ => simp [hcase, UnpackedFloat.isFinite] at hy
  refine isNaN_iff.2 ?_
  rw [unpacked_mul, hproduct]
  exact Rounding.unpack_pack_notANumber _

theorem isFinite_of_square (h : Scalar.isZero (x * x) = true) : RealScalar.isFinite x = true := by
  obtain ⟨s, hs⟩ := isZero_iff.1 h
  rw [unpacked_mul] at hs
  rw [isFinite_eq]
  cases hcase : unpacked x with
  | notANumber =>
      rw [hcase, UnpackedFloat.mul, Rounding.unpack_pack_notANumber] at hs
      cases hs
  | infinity t =>
      rw [hcase, UnpackedFloat.mul, Rounding.unpack_pack_infinity] at hs
      cases hs
  | _ => rfl

theorem not_isZero_of_pos (h : 0 < x) : ¬ Scalar.isZero x = true := by
  intro hzero
  have hplace := (lt_iff_place.1 h).2
  rw [place_zero, (isZero_iff_place.1 hzero).2] at hplace
  exact lt_irrefl _ hplace

/-- A positive number is finite, or it is infinity. -/
theorem pos_cases (h : 0 < x) :
    (∃ m e, ∃ hm : Rounding.Canonical (format ρ) m e,
      unpacked x = .finite .positive m e hm.pos) ∨ unpacked x = .infinity .positive := by
  obtain ⟨⟨-, hnumber⟩, hplace⟩ := lt_iff_place.1 h
  rw [place_zero] at hplace
  rcases size_cases hnumber (not_neg_iff.2 hplace.le) with ⟨s, hzero⟩ | ⟨-, hfinite⟩ | htop
  · rw [place, hzero] at hplace
    exact absurd hplace (lt_irrefl 0)
  · exact .inl (exists_canonical h hfinite)
  · exact .inr htop

theorem mul_pos_comm : 0 < x * y ↔ 0 < y * x := by
  rw [lt_iff, unpacked_mul_comm, ← lt_iff]

/-- An infinity times a positive number is one. -/
theorem mul_pos_of_infinity (hx : unpacked x = .infinity .positive) (hy : 0 < y) : 0 < x * y := by
  refine pos_of_infinity ?_
  rw [unpacked_mul, hx]
  rcases pos_cases hy with ⟨m, e, hm, hcase⟩ | hcase
  · rw [hcase]
    exact Rounding.unpack_pack_infinity _ _
  · rw [hcase]
    exact Rounding.unpack_pack_infinity _ _

/-- A larger factor does not round a product away. -/
theorem mul_pos_of_le (hx : 0 < x) (hy : 0 < y) (hproduct : 0 < x * y) (hle : x ≤ z) :
    0 < z * y := by
  rcases pos_cases hy with ⟨m, e, hm, hcase⟩ | htop
  · have hfinite : RealScalar.isFinite y = true := by
      rw [isFinite_eq, hcase]
      rfl
    exact lt_of_lt_of_le hproduct (le_mul_of_le hy hfinite (le_of_lt hx) hle).2
  · exact mul_pos_comm.1 (mul_pos_of_infinity htop (lt_of_lt_of_le hx hle))

theorem mul_pos_of_square_pos (hx : 0 < x) (hsquare : 0 < x * x) (hy : x ≤ y) (hz : x ≤ z) :
    0 < y * z := by
  have hleft : 0 < x * y := mul_pos_comm.1 (mul_pos_of_le hx hx hsquare hy)
  exact mul_pos_comm.1 (mul_pos_of_le hx (lt_of_lt_of_le hx hy) hleft hz)

/-- The square of a root is not rounded away. -/
theorem sqrt_mul_self_pos [RootScalar ρ] [WideScalar ρ] (hx : 0 < x) :
    0 < RealScalar.sqrt x * RealScalar.sqrt x := by
  have hroot := RootScalar.unpacked_sqrt x
  rcases pos_cases hx with ⟨m, e, hm, hcase⟩ | htop
  · obtain ⟨m', e', h', hsqrt, hplace⟩ :=
      hm.sqrt_square WideScalar.three_le_exponentBits WideScalar.two_le_mantissaBits
    rw [hcase, hsqrt, h'.unpack_pack two_le_exponentBits] at hroot
    split_ifs at hroot
    · exact mul_pos_of_infinity hroot (sqrt_pos hx)
    · have hproduct := unpacked_mul (RealScalar.sqrt x) (RealScalar.sqrt x)
      rw [hroot] at hproduct
      rcases Rounding.roundWithAccuracy_place .positive (Nat.mul_pos h'.pos h'.pos)
        (h'.mul_exponent_le h') with ⟨-, hzero⟩ | ⟨m₂, e₂, h₂, hround, -⟩
      · exact absurd hzero hplace.ne'
      · refine pos_of_stored h₂ (hproduct.trans ?_)
        rw [← hround]
        rfl
  · rw [htop] at hroot
    exact mul_pos_of_infinity (hroot.trans (Rounding.unpack_pack_infinity _ _)) (sqrt_pos hx)

end BinaryScalar

end DenseFactor
