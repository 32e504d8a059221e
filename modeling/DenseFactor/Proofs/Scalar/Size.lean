import Mathlib
import DenseFactor.Proofs.Scalar.Product

/-!
# DenseFactor.Proofs.Scalar.Size

**Absolute values, roots and lengths** of rounded numbers: which are zero, which are NaNs and
what is known of them exactly.

Design points:

* An absolute value is the number or its opposite, so it changes nothing but a sign, and a
  number divided by it is a sign, exactly.
* A root is zero if its number is, is positive if its number is, and else a NaN.
-/

namespace DenseFactor

namespace Rounding

open Float.Model Float.Model.UnpackedFloat

variable {format : Format} {m : ℕ} {e : ℤ}

/-- A number divided by one of its size is a sign. -/
theorem div_self (hone : Canonical format (fractions format) (-format.mantissaBitsWithoutImplicit))
    (s : Sign) (hm : 0 < m) :
    div format (.finite s m e hm) (.finite .positive m e hm) =
      .finite s (fractions format) (-format.mantissaBitsWithoutImplicit) hone.pos := by
  have hsign : s / .positive = s := by cases s <;> rfl
  have hleast := hone.le
  set target := min (e - e) (format.targetExponent (totalExponent m e - totalExponent m e))
    with htarget
  have hbits : target ≤ -format.mantissaBitsWithoutImplicit := by
    rw [htarget, Format.targetExponent, Format.mantissaBits, sub_self]
    push_cast
    omega
  obtain ⟨d, hd⟩ : ∃ d : ℕ, target = -format.mantissaBitsWithoutImplicit - d :=
    ⟨(-format.mantissaBitsWithoutImplicit - target).toNat, by omega⟩
  have hshift : (e - e - target).toNat = format.mantissaBitsWithoutImplicit + d := by omega
  have hcore : divCore format m e m e = (fractions format * 2 ^ d, target, .exact) := by
    unfold divCore
    rw [← htarget]
    simp only [hshift, Nat.shiftLeft_eq, Nat.mul_mod_right, Nat.mul_div_cancel_left _ hm,
      accuracyOfFraction, if_true, Nat.pow_add, fractions]
  unfold UnpackedFloat.div
  simp only [hsign, hcore, hd]
  exact hone.round_shift s d

end Rounding

namespace BinaryScalar

open Float.Model Float.Model.UnpackedFloat

variable {ρ : Type} [RealScalar ρ] [BinaryScalar ρ] {x y : ρ}

/-! ### Absolute values -/

/-- The absolute value has another sign and nothing else. -/
theorem unpacked_abs_eq (x : ρ) : unpacked (RealScalar.abs x) = (unpacked x).abs := by
  have hx := representable x
  rw [unpacked_abs]
  refine Rounding.Representable.unpack_pack ?_ two_le_exponentBits
  cases hcase : unpacked x <;> rw [hcase] at hx <;> exact hx

/-- An absolute value is the number or its opposite. -/
theorem unpacked_abs_cases (x : ρ) : unpacked (RealScalar.abs x) = unpacked x ∨
    unpacked (RealScalar.abs x) = unpacked (-x) := by
  rw [unpacked_abs_eq, unpacked_neg_eq]
  cases unpacked x with
  | notANumber => exact .inl rfl
  | infinity s =>
      cases s with
      | positive => exact .inl rfl
      | negative => exact .inr rfl
  | zero s =>
      cases s with
      | positive => exact .inl rfl
      | negative => exact .inr rfl
  | finite s m e h =>
      cases s with
      | positive => exact .inl rfl
      | negative => exact .inr rfl

theorem isNaN_abs (x : ρ) : RealScalar.isNaN (RealScalar.abs x) = RealScalar.isNaN x := by
  rw [← isNaN_neg x]
  rcases unpacked_abs_cases x with h | h
  · rw [isNaN_neg, isNaN_eq, isNaN_eq, h]
  · rw [isNaN_eq, isNaN_eq, h]

theorem place_abs (x : ρ) : place (RealScalar.abs x) = |place x| := by
  have hsize := not_neg_iff.1 (abs_not_neg x)
  rcases unpacked_abs_cases x with h | h
  · rw [place, h, ← place] at hsize ⊢
    exact (abs_of_nonneg hsize).symm
  · rw [place, h, ← place, place_neg] at hsize ⊢
    exact (abs_of_nonpos (by omega)).symm

/-- What has no positive absolute value is a zero or a NaN. -/
theorem place_of_abs_not_pos (h : ¬ 0 < RealScalar.abs x) : place x = 0 := by
  by_cases hnumber : RealScalar.isNaN x = true
  · exact place_of_isNaN hnumber
  · by_contra hne
    refine h (lt_iff_place.2 ⟨⟨isNaN_zero, ?_⟩, ?_⟩)
    · rw [isNaN_abs]
      exact Bool.eq_false_iff.2 hnumber
    · rw [place_zero, place_abs]
      exact abs_pos.2 hne

theorem isZero_abs_mul : Scalar.isZero (RealScalar.abs x * y) = true ↔
    Scalar.isZero (x * y) = true := by
  rcases unpacked_abs_cases x with h | h
  · exact isZero_congr (by rw [unpacked_mul, unpacked_mul, h])
  · rw [← isZero_neg_mul (x := x)]
    exact isZero_congr (by rw [unpacked_mul, unpacked_mul, h])

theorem isZero_abs_mul_abs : Scalar.isZero (RealScalar.abs x * RealScalar.abs y) = true ↔
    Scalar.isZero (x * y) = true := by
  rw [isZero_abs_mul, isZero_mul_comm, isZero_abs_mul, isZero_mul_comm]

/-- A number that is not zero, divided by its absolute value, is its sign. -/
theorem unpacked_div_abs (hpos : 0 < RealScalar.abs x) (hx : RealScalar.isFinite x = true) :
    (0 < x ∧ unpacked (x / RealScalar.abs x) = unpacked (1 : ρ)) ∨
      (x < 0 ∧ unpacked (x / RealScalar.abs x) = (unpacked (1 : ρ)).neg) := by
  have hrepresentable := representable x
  have hone := representable (1 : ρ)
  have hstored := unpack_pack (1 : ρ)
  rw [unpacked_one] at hone hstored
  rw [isFinite_eq] at hx
  rw [lt_iff_place, place_zero, place, unpacked_abs_eq] at hpos
  rw [lt_iff_place, lt_iff_place, isNaN_zero, isNaN_eq, place_zero, place, unpacked_div,
    unpacked_abs_eq, unpacked_one]
  cases hcase : unpacked x with
  | notANumber => simp [hcase, UnpackedFloat.isFinite] at hx
  | infinity s => simp [hcase, UnpackedFloat.isFinite] at hx
  | zero s =>
      rw [hcase] at hpos
      exact absurd hpos.2 (lt_irrefl 0)
  | finite s m e hm =>
      rw [hcase] at hrepresentable
      have hplace := hrepresentable.1.placeOf_pos
      rw [UnpackedFloat.abs, Rounding.div_self hone.1 s hm]
      cases s with
      | positive => exact .inl ⟨⟨⟨rfl, rfl⟩, hplace⟩, hstored⟩
      | negative =>
          refine .inr ⟨⟨⟨rfl, rfl⟩, neg_lt_zero.2 hplace⟩, ?_⟩
          exact (Rounding.unpack_pack_neg _).trans (congrArg UnpackedFloat.neg hstored)

/-- An infinite number has no sign as a quotient. -/
theorem isNaN_div_abs (hpos : 0 < RealScalar.abs x) (hx : ¬ RealScalar.isFinite x = true) :
    RealScalar.isNaN (x / RealScalar.abs x) = true := by
  have hnumber := (lt_iff_place.1 hpos).1.2
  rw [isNaN_abs, isNaN_eq] at hnumber
  rw [isFinite_eq] at hx
  rw [isNaN_eq, unpacked_div, unpacked_abs_eq]
  cases hcase : unpacked x with
  | notANumber => simp [hcase, UnpackedFloat.isNaN] at hnumber
  | infinity s =>
      rw [UnpackedFloat.abs, UnpackedFloat.div, Rounding.unpack_pack_notANumber]
      rfl
  | zero s => simp [hcase, UnpackedFloat.isFinite] at hx
  | finite s m e h => simp [hcase, UnpackedFloat.isFinite] at hx

/-! ### Roots -/

theorem not_isZero_of_isNaN (h : RealScalar.isNaN x = true) : ¬ Scalar.isZero x = true :=
  fun hzero => by simp [isNaN_of_isFinite (isFinite_of_isZero hzero)] at h

/-- A number that is not positive has a root of zero or none. -/
theorem sqrt_cases [RootScalar ρ] (x : ρ) : 0 < x ∨
    (Scalar.isZero x = true ∧ Scalar.isZero (RealScalar.sqrt x) = true) ∨
      (¬ Scalar.isZero x = true ∧ RealScalar.isNaN (RealScalar.sqrt x) = true) := by
  have hx := representable x
  have hstored := unpack_pack x
  have hroot := RootScalar.unpacked_sqrt x
  have hnan (h : UnpackedFloat.sqrt (format ρ) (unpacked x) = .notANumber) :
      RealScalar.isNaN (RealScalar.sqrt x) = true := by
    rw [h, Rounding.unpack_pack_notANumber] at hroot
    exact isNaN_iff.2 hroot
  rw [isZero_iff]
  cases hcase : unpacked x with
  | notANumber => exact .inr (.inr ⟨nofun, hnan (by rw [hcase]; rfl)⟩)
  | zero s =>
      rw [hcase, UnpackedFloat.sqrt, Rounding.unpack_pack_zero] at hroot
      exact .inr (.inl ⟨⟨s, rfl⟩, isZero_iff.2 ⟨s, hroot⟩⟩)
  | infinity s =>
      cases s with
      | positive => exact .inl (pos_of_infinity hcase)
      | negative => exact .inr (.inr ⟨nofun, hnan (by rw [hcase]; rfl)⟩)
  | finite s m e h =>
      cases s with
      | positive =>
          rw [hcase] at hx hstored
          exact .inl (pos_of_stored hx.1 (hcase.trans hstored.symm))
      | negative => exact .inr (.inr ⟨nofun, hnan (by rw [hcase]; rfl)⟩)

theorem isZero_sqrt [RootScalar ρ] :
    Scalar.isZero (RealScalar.sqrt x) = true ↔ Scalar.isZero x = true := by
  rcases sqrt_cases x with hpos | ⟨hzero, hroot⟩ | ⟨hzero, hnan⟩
  · simp [not_isZero_of_pos hpos, not_isZero_of_pos (sqrt_pos hpos)]
  · simp [hzero, hroot]
  · simp [hzero, not_isZero_of_isNaN hnan]

theorem pos_of_sqrt_pos [RootScalar ρ] (h : 0 < RealScalar.sqrt x) : 0 < x := by
  rcases sqrt_cases x with hpos | ⟨-, hroot⟩ | ⟨-, hnan⟩
  · exact hpos
  · exact absurd hroot (not_isZero_of_pos h)
  · exact absurd hnan (by simp [(lt_iff_place.1 h).1.2])

/-- Beside a zero, the length of a vector is the other coordinate. -/
theorem place_hypot [RootScalar ρ] (hx : RealScalar.isNaN x = false)
    (hy : Scalar.isZero y = true) :
    RealScalar.isNaN (RealScalar.hypot x y) = false ∧
      place (RealScalar.hypot x y) = |place x| := by
  obtain ⟨t, ht⟩ := isZero_iff.1 hy
  have hlength := RootScalar.unpacked_hypot x y
  have hstored := unpack_pack (RealScalar.abs x)
  have hsize : unpacked (RealScalar.hypot x y) = unpacked (RealScalar.abs x) := by
    rw [← hstored, hlength, ht, unpacked_abs_eq]
    rw [isNaN_eq] at hx
    cases hcase : unpacked x with
    | notANumber => simp [hcase, UnpackedFloat.isNaN] at hx
    | _ => rfl
  rw [isNaN_eq, place, hsize, ← isNaN_eq, ← place, isNaN_abs, place_abs]
  exact ⟨hx, rfl⟩

end BinaryScalar

end DenseFactor
