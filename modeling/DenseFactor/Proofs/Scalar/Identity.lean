import Mathlib
import DenseFactor.Proofs.Scalar.Binary

/-!
# DenseFactor.Proofs.Scalar.Identity

Zero and one in **rounded arithmetic**: a product with one is the other factor, and a sum
with a zero is the other term.

Both hold without rounding. Only the sign of a zero is not kept, so zeros are spoken of
through the test for zero, which does not see it.
-/

namespace DenseFactor

namespace Rounding

open Float.Model Float.Model.UnpackedFloat

variable {format : Format} {m m' : ℕ} {e e' : ℤ}

theorem nearestEven_zero (m : ℕ) : nearestEven m 0 = m := by
  simp [nearestEven, Nat.mod_one]

/-- Different numbers have different places. -/
theorem Canonical.placeOf_inj (h : Canonical format m e) (h' : Canonical format m' e')
    (heq : placeOf format m e = placeOf format m' e') : m = m' ∧ e = e' := by
  rcases lt_trichotomy e e' with hlt | rfl | hgt
  · exact absurd heq (h.placeOf_lt h' hlt).ne
  · unfold placeOf at heq
    exact ⟨by omega, rfl⟩
  · exact absurd heq (h'.placeOf_lt h hgt).ne'

/-- A number written with more bits keeps its exponent. -/
theorem Canonical.roundedExponent_shift (h : Canonical format m e) (d : ℕ) :
    roundedExponent format (m * 2 ^ d) (e - d) = e := by
  rw [roundedExponent_eq, log2_mul_two_pow h.pos.ne']
  have hhigh : m.log2 ≤ format.mantissaBitsWithoutImplicit := by
    refine Nat.lt_succ_iff.1 ((Nat.log2_lt h.pos.ne').2 ?_)
    rw [Nat.pow_succ, mul_comm]
    exact h.lt
  have hleast := h.le
  rcases h.normal with hmin | hfull
  · omega
  · have hlow : format.mantissaBitsWithoutImplicit ≤ m.log2 := (Nat.le_log2 h.pos.ne').2 hfull
    omega

/-- A number written with more bits keeps its place. -/
theorem Canonical.roundedPlace_shift (h : Canonical format m e) (d : ℕ) :
    roundedPlace format (m * 2 ^ d) (e - d) = placeOf format m e := by
  unfold roundedPlace placeOf
  rw [h.roundedExponent_shift]
  have hshift : (e - (e - d)).toNat = 0 + d := by omega
  rw [hshift, nearestEven_shift, nearestEven_zero]

/-- A number of the format, written with any number of bits, is rounded to itself. -/
theorem Canonical.round_shift (h : Canonical format m e) (sign : Sign) (d : ℕ) :
    roundWithAccuracy format sign (m * 2 ^ d) (e - d) .exact = .finite sign m e h.pos := by
  have hexponent := h.roundedExponent_shift d
  have hplace := h.roundedPlace_shift d
  have hpos : 0 < m * 2 ^ d := Nat.mul_pos h.pos (Nat.two_pow_pos _)
  have hshifted : e - d ≤ roundedExponent format (m * 2 ^ d) (e - d) := by
    rw [hexponent]
    omega
  rcases roundWithAccuracy_place sign hpos hshifted with
    ⟨-, hzero⟩ | ⟨m', e', h', hround, hplace'⟩
  · rw [hplace] at hzero
    exact absurd hzero h.placeOf_pos.ne'
  · obtain ⟨rfl, rfl⟩ := h'.placeOf_inj h (hplace'.trans hplace)
    exact hround

/-- A product with one is rounded to the other factor. -/
theorem Canonical.round_one (h : Canonical format m e) (sign : Sign) :
    roundWithAccuracy format sign (m * fractions format)
      (e + -format.mantissaBitsWithoutImplicit) .exact = .finite sign m e h.pos :=
  h.round_shift sign format.mantissaBitsWithoutImplicit

/-! ### Infinities -/

theorem add_infinity_left (sign : Sign) (x : UnpackedFloat) :
    add format (.infinity sign) x = .infinity sign ∨
      add format (.infinity sign) x = .notANumber := by
  cases x with
  | infinity sign' => cases sign <;> cases sign' <;> simp [UnpackedFloat.add]
  | notANumber => exact .inr rfl
  | _ => exact .inl rfl

theorem add_infinity_right (sign : Sign) (x : UnpackedFloat) :
    add format x (.infinity sign) = .infinity sign ∨
      add format x (.infinity sign) = .notANumber := by
  cases x with
  | infinity sign' => cases sign <;> cases sign' <;> simp [UnpackedFloat.add]
  | notANumber => exact .inr rfl
  | _ => exact .inl rfl

theorem not_isFinite_stored {x : UnpackedFloat} {sign : Sign}
    (h : x = .infinity sign ∨ x = .notANumber) :
    (unpack format (pack format x)).isFinite = false := by
  rcases h with rfl | rfl
  · rw [unpack_pack_infinity]
    rfl
  · rw [unpack_pack_notANumber]
    rfl

end Rounding

namespace BinaryScalar

open Float.Model Float.Model.UnpackedFloat

variable {ρ : Type} [RealScalar ρ] [BinaryScalar ρ] {x y : ρ}

/-- What is read from bits is stored without loss. -/
theorem unpack_pack (x : ρ) :
    unpack (format ρ) (pack (format ρ) (unpacked x)) = unpacked x :=
  (representable x).unpack_pack two_le_exponentBits

/-! ### Tests -/

theorem isZero_iff : Scalar.isZero x = true ↔ ∃ sign, unpacked x = .zero sign := by
  show (x == 0) = true ↔ _
  rw [beq_eq, unpacked_zero]
  cases unpacked x with
  | notANumber => simp [UnpackedFloat.beq, UnpackedFloat.compare]
  | infinity sign => cases sign <;> simp [UnpackedFloat.beq, UnpackedFloat.compare]
  | zero sign => simp [UnpackedFloat.beq, UnpackedFloat.compare]
  | finite sign m e hm => cases sign <;> simp [UnpackedFloat.beq, UnpackedFloat.compare]

/-- Zeros are equal, whatever their signs. -/
theorem beq_of_isZero (hx : Scalar.isZero x = true) (hy : Scalar.isZero y = true) :
    Scalar.beq x y = true := by
  obtain ⟨s, hs⟩ := isZero_iff.1 hx
  obtain ⟨t, ht⟩ := isZero_iff.1 hy
  show (x == y) = true
  rw [beq_eq, hs, ht]
  rfl

/-- A number equals itself. -/
theorem beq_of_unpacked_eq (hx : RealScalar.isNaN x = false) (h : unpacked x = unpacked y) :
    Scalar.beq x y = true := by
  have hcompare := compare_eq hx hx
  rw [Int.compare_eq_eq.2 rfl] at hcompare
  show (x == y) = true
  rw [beq_eq, ← h, UnpackedFloat.beq, hcompare]
  rfl

theorem isNaN_of_isFinite (h : RealScalar.isFinite x = true) : RealScalar.isNaN x = false := by
  rw [isFinite_eq] at h
  rw [isNaN_eq]
  cases hx : unpacked x with
  | notANumber => simp [hx, UnpackedFloat.isFinite] at h
  | _ => rfl

theorem isFinite_of_isZero (h : Scalar.isZero x = true) : RealScalar.isFinite x = true := by
  obtain ⟨sign, hsign⟩ := isZero_iff.1 h
  rw [isFinite_eq, hsign]
  rfl

/-! ### Products -/

theorem unpacked_mul_one (x : ρ) : unpacked (x * 1) = unpacked x := by
  have hx := unpack_pack x
  have hrepresentable := representable x
  have hpositive (sign : Sign) : sign * .positive = sign := by cases sign <;> rfl
  rw [unpacked_mul, unpacked_one]
  cases hcase : unpacked x with
  | notANumber => exact Rounding.unpack_pack_notANumber _
  | infinity sign =>
      show unpack _ (pack _ (.infinity (sign * .positive))) = _
      rw [hpositive, Rounding.unpack_pack_infinity]
  | zero sign =>
      show unpack _ (pack _ (.zero (sign * .positive))) = _
      rw [hpositive, Rounding.unpack_pack_zero]
  | finite sign m e hm =>
      rw [hcase] at hx hrepresentable
      show unpack _ (pack _ (roundWithAccuracy _ (sign * .positive) _ _ .exact)) = _
      rw [hpositive, hrepresentable.1.round_one sign]
      exact hx

/-- A finite number times zero is a zero. -/
theorem isZero_mul_zero (hx : RealScalar.isFinite x = true) : Scalar.isZero (x * 0) = true := by
  rw [isFinite_eq] at hx
  rw [isZero_iff, unpacked_mul, unpacked_zero]
  cases hcase : unpacked x with
  | notANumber => simp [hcase, UnpackedFloat.isFinite] at hx
  | infinity sign => simp [hcase, UnpackedFloat.isFinite] at hx
  | zero sign =>
      show ∃ t, unpack _ (pack _ (.zero (sign * .positive))) = .zero t
      exact ⟨_, Rounding.unpack_pack_zero _ _⟩
  | finite sign m e hm =>
      show ∃ t, unpack _ (pack _ (.zero (sign * .positive))) = .zero t
      exact ⟨_, Rounding.unpack_pack_zero _ _⟩

/-! ### Sums -/

theorem isZero_add (hx : Scalar.isZero x = true) (hy : Scalar.isZero y = true) :
    Scalar.isZero (x + y) = true := by
  obtain ⟨s, hs⟩ := isZero_iff.1 hx
  obtain ⟨t, ht⟩ := isZero_iff.1 hy
  rw [isZero_iff, unpacked_add, hs, ht]
  cases s <;> cases t <;> exact ⟨_, Rounding.unpack_pack_zero _ _⟩

theorem unpacked_add_of_isZero_left (hx : Scalar.isZero x = true)
    (hy : ¬ Scalar.isZero y = true) : unpacked (x + y) = unpacked y := by
  obtain ⟨s, hs⟩ := isZero_iff.1 hx
  have hstored := unpack_pack y
  rw [isZero_iff] at hy
  rw [unpacked_add, hs]
  cases hcase : unpacked y with
  | zero t => exact absurd ⟨t, hcase⟩ hy
  | _ =>
      rw [hcase] at hstored
      exact hstored

theorem unpacked_add_of_isZero_right (hy : Scalar.isZero y = true)
    (hx : ¬ Scalar.isZero x = true) : unpacked (x + y) = unpacked x := by
  obtain ⟨t, ht⟩ := isZero_iff.1 hy
  have hstored := unpack_pack x
  rw [isZero_iff] at hx
  rw [unpacked_add, ht]
  cases hcase : unpacked x with
  | zero s => exact absurd ⟨s, hcase⟩ hx
  | _ =>
      rw [hcase] at hstored
      exact hstored

/-- A finite sum has finite terms. -/
theorem isFinite_of_add (h : RealScalar.isFinite (x + y) = true) :
    RealScalar.isFinite x = true ∧ RealScalar.isFinite y = true := by
  have hnumbers := isNaN_of_add (isNaN_of_isFinite h)
  rw [isNaN_eq, isNaN_eq] at hnumbers
  rw [isFinite_eq, unpacked_add] at h
  rw [isFinite_eq, isFinite_eq]
  constructor
  · cases hx : unpacked x with
    | notANumber => simp [hx, UnpackedFloat.isNaN] at hnumbers
    | infinity sign =>
        rw [hx, Rounding.not_isFinite_stored (Rounding.add_infinity_left sign _)] at h
        exact h
    | _ => rfl
  · cases hy : unpacked y with
    | notANumber => simp [hy, UnpackedFloat.isNaN] at hnumbers
    | infinity sign =>
        rw [hy, Rounding.not_isFinite_stored (Rounding.add_infinity_right sign _)] at h
        exact h
    | _ => rfl

end BinaryScalar

end DenseFactor
