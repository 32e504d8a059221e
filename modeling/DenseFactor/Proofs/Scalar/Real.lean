import Mathlib
import DenseFactor.Scalar.Cartesian
import DenseFactor.Proofs.Scalar.Exact

/-!
# DenseFactor.Proofs.Scalar.Real

The real numbers as a scalar type, and **exact complex numbers** as pairs of exact
real ones.

`exactReal` fixes the operations of a real scalar type to those of `ℝ` and leaves the
constants of the format open. The rounding to and from binary64 has no exact meaning;
only zero is carried over.
-/

namespace DenseFactor

noncomputable section

/-- The arithmetic of the real numbers, with any constants of a format. -/
@[reducible]
def exactReal (epsilon minPositive : ℝ) : RealScalar ℝ where
  beq x y := decide (x = y)
  decidableLT := inferInstance
  decidableLE := inferInstance
  abs := abs
  sqrt := Real.sqrt
  log := Real.log
  hypot x y := √(x * x + y * y)
  isNaN _ := false
  isFinite _ := true
  nan := 0
  epsilon := epsilon
  minPositive := minPositive
  ofFloat _ := 0
  toFloat _ := 0

/-- The real numbers are exact. -/
@[reducible]
def exactReal.exact (epsilon minPositive : ℝ) :
    @ExactReal ℝ (exactReal epsilon minPositive) :=
  letI := exactReal epsilon minPositive
  { value := id
    value_zero := rfl
    value_one := rfl
    beq_iff := fun _ _ => decide_eq_true_iff
    ends_add := fun _ _ => rfl
    ends_sub := fun _ _ => rfl
    ends_mul := fun _ _ => rfl
    ends_div := fun _ _ _ => rfl
    lt_iff := fun _ _ => Iff.rfl
    le_iff := fun _ _ => Iff.rfl
    value_neg := fun _ => rfl
    value_abs := fun _ => rfl
    value_sqrt := fun _ _ => rfl
    value_log := fun _ _ => rfl
    value_hypot := fun _ _ => rfl
    isNaN_eq := fun _ => rfl
    isFinite_eq := fun _ => rfl
    value_ofFloat_zero := rfl }

/-! ### Real and complex elements -/

variable {ρ : Type} [RealScalar ρ] [ExactReal ρ]

/-- Exact real numbers are real numbers among the real or complex ones. -/
instance ExactReal.toEuclidean : ExactEuclidean ρ ρ ℝ where
  toExactScalar := ExactReal.toExactScalar
  value_modulus x := ExactReal.value_abs x
  value_conj _ := rfl
  value_re _ := rfl
  value_ofReal _ := rfl

namespace Cartesian

open ExactScalar (value)

/-- The complex number of a pair. -/
def toComplex (x : Cartesian ρ) : ℂ := ⟨value x.re, value x.im⟩

theorem toComplex_eq_iff (x y : Cartesian ρ) :
    (x == y) = true ↔ x.toComplex = y.toComplex := by
  have hpair : (x == y) = (x.re == y.re && x.im == y.im) := rfl
  rw [hpair, Bool.and_eq_true, ExactScalar.eq_iff, ExactScalar.eq_iff, Complex.ext_iff]
  rfl

theorem toComplex_mul (x y : Cartesian ρ) : (x * y).toComplex = x.toComplex * y.toComplex := by
  apply Complex.ext
  · exact (ExactScalar.value_sub _ _).trans (by simp [toComplex])
  · exact (ExactScalar.value_add _ _).trans (by simp [toComplex])

/-- The schoolbook quotient is the quotient, except by zero. -/
theorem toComplex_div (x y : Cartesian ρ) (hy : y.toComplex ≠ 0) :
    (x / y).toComplex = x.toComplex / y.toComplex := by
  have hnorm : value (y.re * y.re + y.im * y.im) = Complex.normSq y.toComplex := by
    simp [toComplex, Complex.normSq_apply]
  have hne : value (y.re * y.re + y.im * y.im) ≠ 0 := by
    rw [hnorm]
    exact Complex.normSq_eq_zero.not.2 hy
  apply Complex.ext
  · refine (ExactScalar.value_div _ _ hne).trans ?_
    rw [hnorm, Complex.div_re]
    simp [toComplex]
    ring
  · refine (ExactScalar.value_div _ _ hne).trans ?_
    rw [hnorm, Complex.div_im]
    simp [toComplex]
    ring

/-- Pairs of exact real numbers are exact complex numbers. -/
instance : ExactEuclidean (Cartesian ρ) ρ ℂ where
  value := toComplex
  value_zero := Complex.ext ExactScalar.value_zero' ExactScalar.value_zero'
  value_one := Complex.ext ExactScalar.value_one' ExactScalar.value_zero'
  beq_iff := toComplex_eq_iff
  ends_add _ _ := Complex.ext (ExactScalar.value_add _ _) (ExactScalar.value_add _ _)
  ends_sub _ _ := Complex.ext (ExactScalar.value_sub _ _) (ExactScalar.value_sub _ _)
  ends_mul := toComplex_mul
  ends_div := toComplex_div
  value_modulus x := by
    refine (ExactReal.value_hypot _ _).trans ?_
    rw [Complex.norm_def, Complex.normSq_apply]
    rfl
  value_conj x := Complex.ext rfl (ExactReal.value_neg _)
  value_re _ := rfl
  value_ofReal _ := Complex.ext rfl ExactScalar.value_zero'

end Cartesian

end

end DenseFactor
