import Mathlib
import DenseFactor.Proofs.Scalar.Rounding
import DenseFactor.Proofs.Scalar.Sign

/-!
# DenseFactor.Proofs.Scalar.Root

The **root of a positive number** is positive, rounded and stored.

Design points:

* Rounding can take a number down to zero only by shifting out all of its bits.
  `roundWithAccuracy_canonical` asks that it does not, and of the accuracy nothing.
* A root has half the exponent of its square, and the least exponent of a format is not
  positive. So it is above this exponent, and nothing is shifted out.
-/

namespace DenseFactor

namespace Rounding

open Float.Model Float.Model.UnpackedFloat

variable {format : Format} {m : ℕ} {e : ℤ}

variable (format) in
/-- A number that is not shifted out is rounded to a canonical one, which is less than one unit
below it. -/
theorem roundWithAccuracy_lower (sign : Sign) (accuracy : Accuracy) (hm : 0 < m)
    (he : e ≤ roundedExponent format m e) (hkept : roundedExponent format m e ≤ m.log2 + e) :
    ∃ m' e', ∃ h : Canonical format m' e',
      roundWithAccuracy format sign m e accuracy = .finite sign m' e' h.pos ∧ e ≤ e' ∧
        m < (m' + 1) * 2 ^ (e' - e).toNat := by
  have hleast := minExponent_le_roundedExponent format m e
  set k := (roundedExponent format m e - e).toNat with hk
  have hshift : k ≤ m.log2 := by omega
  have hpos : 0 < m / 2 ^ k := by
    refine Nat.div_pos ?_ (Nat.two_pow_pos _)
    exact (Nat.pow_le_pow_right Nat.two_pos hshift).trans (Nat.log2_self_le hm.ne')
  have hsmall : m / 2 ^ k < 2 * fractions format :=
    (Nat.div_lt_iff_lt_mul (Nat.two_pow_pos _)).2 (lt_fractions_shift he)
  have hfull (h : format.minExponent < roundedExponent format m e) :
      fractions format ≤ m / 2 ^ k :=
    (Nat.le_div_iff_mul_le (Nat.two_pow_pos _)).2 (fractions_shift_le hm he h)
  unfold roundWithAccuracy
  rw [shiftToTargetExponent_eq accuracy he, ← hk]
  dsimp only
  obtain ⟨hle, hge⟩ := roundedMantissa_mem (ExtendedMantissa.ofMantissaAndAccuracy m accuracy >>> k)
  rw [shiftRight_mantissa, mantissa_ofMantissaAndAccuracy] at hle hge
  generalize (ExtendedMantissa.ofMantissaAndAccuracy m accuracy >>> k).roundedMantissa = r at hle hge
  have hr : r ≤ 2 * fractions format := by omega
  have hcanonical := canonical_rounded (hpos.trans_le hle) hr hleast fun h => (hfull h).trans hle
  obtain ⟨hmantissa, hexponent⟩ := shiftToTargetExponent_rounded hr hleast
  refine ⟨_, _, hcanonical, dif_neg hcanonical.pos.ne', ?_, ?_⟩
  · rw [hexponent]
    split_ifs <;> omega
  · have hunit : m < (r + 1) * 2 ^ k := by
      rw [← Nat.div_lt_iff_lt_mul (Nat.two_pow_pos k)]
      omega
    rw [hmantissa, hexponent]
    by_cases hlt : r < 2 * fractions format
    · rw [if_pos hlt, if_pos hlt]
      exact hunit
    · -- one more bit was filled
      have heq : r = 2 * fractions format := le_antisymm hr (not_lt.1 hlt)
      have hnext : (roundedExponent format m e + 1 - e).toNat = k + 1 := by omega
      rw [if_neg hlt, if_neg hlt, hnext, pow_succ, mul_comm (2 ^ k), ← mul_assoc]
      exact hunit.trans_le (Nat.mul_le_mul_right _ (by omega))

variable (format) in
/-- A number that is not shifted out is rounded to a canonical one. -/
theorem roundWithAccuracy_canonical (sign : Sign) (accuracy : Accuracy) (hm : 0 < m)
    (he : e ≤ roundedExponent format m e) (hkept : roundedExponent format m e ≤ m.log2 + e) :
    ∃ m' e', ∃ h : Canonical format m' e',
      roundWithAccuracy format sign m e accuracy = .finite sign m' e' h.pos := by
  obtain ⟨m', e', h, hround, -⟩ := roundWithAccuracy_lower format sign accuracy hm he hkept
  exact ⟨m', e', h, hround⟩

/-- The integer root keeps half of the bits. -/
theorem half_log2_le_sqrt {n : ℕ} (hn : n ≠ 0) : n.log2 / 2 ≤ n.sqrt.log2 := by
  have hsquare : 2 ^ (n.log2 / 2) * 2 ^ (n.log2 / 2) ≤ n := by
    rw [← Nat.pow_add]
    exact (Nat.pow_le_pow_right Nat.two_pos (by omega)).trans (Nat.log2_self_le hn)
  have hroot := Nat.le_sqrt.2 hsquare
  exact (Nat.le_log2 ((Nat.two_pow_pos _).trans_le hroot).ne').2 hroot

/-- The root of a positive number is one, and it is less than one unit below the exact root. -/
theorem Canonical.sqrt_lower (h : Canonical format m e) :
    ∃ m' e', ∃ h' : Canonical format m' e',
      UnpackedFloat.sqrt format (.finite .positive m e h.pos) = .finite .positive m' e' h'.pos ∧
        ∃ t, 2 * t ≤ e ∧ t ≤ e' ∧
          m * 2 ^ (e - 2 * t).toNat < ((m' + 1) * 2 ^ (e' - t).toNat) ^ 2 := by
  -- the exponent before rounding, chosen so that the root has enough bits
  set t := min (e.ediv 2) (format.targetExponent ((totalExponent m e + 1).ediv 2)) with hdef
  have ht : t = min (e / 2) (max ((m.log2 + 1 + e + 1) / 2 -
      (1 + format.mantissaBitsWithoutImplicit)) format.minExponent) := by
    rw [hdef, Format.targetExponent, Format.mantissaBits, totalExponent]
    push_cast
    rfl
  set square := m <<< (e - 2 * t).toNat with hsquare
  rw [Nat.shiftLeft_eq] at hsquare
  have hpositive : 0 < square := by
    rw [hsquare]
    exact Nat.mul_pos h.pos (Nat.two_pow_pos _)
  have hlog : square.log2 = m.log2 + (e - 2 * t).toNat := by
    rw [hsquare, log2_mul_two_pow h.pos.ne']
  have hroot := half_log2_le_sqrt hpositive.ne'
  have hleast := h.le
  have hnonpos := minExponent_nonpos format
  have hround (accuracy : Accuracy) := roundWithAccuracy_lower format .positive
    (m := square.sqrt) (e := t) accuracy (Nat.sqrt_pos.2 hpositive)
    (by rw [roundedExponent_eq]; omega) (by rw [roundedExponent_eq]; omega)
  obtain ⟨m', e', h', hfinite, he', hlt⟩ := hround _
  refine ⟨m', e', h', hfinite, t, by omega, he', ?_⟩
  rw [← hsquare]
  calc square < (square.sqrt + 1) ^ 2 := by
        rw [sq]
        exact Nat.lt_succ_sqrt square
    _ ≤ ((m' + 1) * 2 ^ (e' - t).toNat) ^ 2 := Nat.pow_le_pow_left hlt 2

/-- The root of a positive number is one. -/
theorem Canonical.sqrt (h : Canonical format m e) : ∃ m' e', ∃ h' : Canonical format m' e',
    UnpackedFloat.sqrt format (.finite .positive m e h.pos) =
      .finite .positive m' e' h'.pos := by
  obtain ⟨m', e', h', hsqrt, -⟩ := h.sqrt_lower
  exact ⟨m', e', h', hsqrt⟩

end Rounding

namespace BinaryScalar

open Float.Model Float.Model.UnpackedFloat

variable {ρ : Type} [RealScalar ρ] [BinaryScalar ρ] {x : ρ}

theorem pos_of_infinity (h : unpacked x = .infinity .positive) : 0 < x := by
  rw [lt_iff_place, place_zero, isNaN_eq x, place, h]
  exact ⟨⟨isNaN_zero, rfl⟩, Rounding.topPlace_pos _⟩

/-- A positive number is stored as one. -/
theorem pos_of_stored {m : ℕ} {e : ℤ} (hm : Rounding.Canonical (format ρ) m e)
    (h : unpacked x = unpack (format ρ) (pack (format ρ) (.finite .positive m e hm.pos))) :
    0 < x := by
  rw [hm.unpack_pack two_le_exponentBits] at h
  split_ifs at h
  · exact pos_of_infinity h
  · rw [lt_iff_place, place_zero, isNaN_eq x, place, h]
    exact ⟨⟨isNaN_zero, rfl⟩, hm.placeOf_pos⟩

theorem sqrt_pos [RootScalar ρ] (hx : 0 < x) : 0 < RealScalar.sqrt x := by
  obtain ⟨⟨-, hnumber⟩, hplace⟩ := lt_iff_place.1 hx
  rw [place_zero] at hplace
  have hroot := RootScalar.unpacked_sqrt x
  rcases size_cases hnumber (not_neg_iff.2 hplace.le) with ⟨sign, hzero⟩ | ⟨-, hfinite⟩ | htop
  · rw [place, hzero] at hplace
    exact absurd hplace (lt_irrefl 0)
  · obtain ⟨m, e, hcanonical, hcase⟩ := exists_canonical hx hfinite
    obtain ⟨m', e', hcanonical', hsqrt⟩ := hcanonical.sqrt
    rw [hcase, hsqrt] at hroot
    exact pos_of_stored hcanonical' hroot
  · rw [htop] at hroot
    exact pos_of_infinity (hroot.trans (Rounding.unpack_pack_infinity _ _))

end BinaryScalar

end DenseFactor
