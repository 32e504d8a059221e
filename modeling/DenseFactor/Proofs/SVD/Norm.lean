import Mathlib
import DenseFactor.Proofs.SVD.Factorization

/-!
# DenseFactor.Proofs.SVD.Norm

Over exact real elements the singular values are **no larger than the matrix**, measured by
its Frobenius norm.

The bound is carried by `Transforms.norm_le`, a fact about every state of the reduction and of
the iteration: the form has at most the norm of the matrix it came from. Neither the rounding
unit nor the least positive number enters, they only decide which entries are dropped.
-/

namespace DenseFactor.SVD

open ExactScalar (value)

variable {ρ : Type} [RealScalar ρ] [ExactReal ρ] {m n : ℕ}

/-- The norm of a decomposition is the first of its values. -/
theorem value_norm (s : SVD ρ) : value s.norm = reals s.values 0 := by
  unfold norm largestOf reals
  rw [List.headD_eq_head?_getD, List.head?_eq_getElem?, Array.getElem?_toList,
    Array.getD_eq_getD_getElem?]

/-- No value is larger than the norm that bounds the sum of all squares. -/
theorem IsBounded.abs_le {values : Array ρ} {A : Matrix (Fin m) (Fin n) ℝ}
    (h : IsBounded values A) (i : ℕ) : |reals values i| ≤ frobenius A := by
  have hnonneg : 0 ≤ frobenius A := Real.sqrt_nonneg _
  rcases lt_or_ge i values.size with hi | hi
  · refine abs_le_of_sq_le_sq ((Finset.single_le_sum ?_ (Finset.mem_range.2 hi)).trans h) hnonneg
    exact fun j _ => sq_nonneg (reals values j)
  · rw [reals_of_le hi, abs_zero]
    exact hnonneg

section Main

variable {A : Matrix (Fin m) (Fin n) ρ} {a : MatrixView ρ} {s : SVD ρ}

/-- **The singular values do not exceed the Frobenius norm.** Whenever a decomposition is
returned, their squares sum to at most the square of the Frobenius norm of the matrix, and so
the largest of them, the spectral norm, is at most the Frobenius norm. -/
theorem sum_sq_values_le (ha : a.Shows A) (hmin : 0 ≤ value (RealScalar.minPositive : ρ))
    (hs : SVD.of a = .ok s) :
    ∃ dense : DenseMatrix ρ, DenseMatrix.ofView a = .ok dense ∧ dense.Stores A ∧
      s.values.size = min m n ∧
      ∑ i ∈ Finset.range s.values.size, reals s.values i ^ 2 ≤ value dense.frobeniusNorm ^ 2 ∧
      value s.norm ≤ value dense.frobeniusNorm := by
  obtain ⟨dense, f, hdense, hf, -, -, hvalues⟩ := of_eq_ok hs
  have hstores : dense.Stores A := ha.ofView.of_ok (E := Never) hdense
  obtain ⟨hcompact, hbounded⟩ :=
    (ends_factorize_bounded (E := Always) hmin (fun _ => trivial) hstores).of_ok hf
  have hnorm : value dense.frobeniusNorm = frobenius (A.map value) := by
    have hsq : value dense.frobeniusNorm ^ 2 = frobenius (A.map value) ^ 2 := by
      rw [hstores.sq_frobeniusNorm, sq_frobenius]
      simp only [Matrix.map_apply, Real.norm_eq_abs, sq_abs]
    exact (pow_left_inj₀ dense.frobeniusNorm_nonneg (Real.sqrt_nonneg _) two_ne_zero).1 hsq
  rw [value_norm, hvalues]
  refine ⟨dense, hdense, hstores, hcompact.1, ?_, ?_⟩
  · rw [hnorm]
    exact hbounded
  · rw [hnorm]
    exact (le_abs_self _).trans (hbounded.abs_le 0)

/-- A triangular matrix of two rows. -/
theorem sum_sq_values_le_two :
    letI := exactReal 0 0
    letI := exactReal.exact 0 0
    let A : Matrix (Fin 2) (Fin 2) ℝ := !![12, 7; 0, 12]
    ∃ (s : SVD ℝ) (dense : DenseMatrix ℝ), SVD.of (.ofMatrix A) = .ok s ∧ dense.Stores A ∧
      s.values.size = 2 ∧ reals s.values 0 ^ 2 + reals s.values 1 ^ 2 ≤ dense.frobeniusNorm ^ 2 ∧
      s.norm ≤ dense.frobeniusNorm := by
  let := exactReal 0 0
  let := exactReal.exact 0 0
  intro A
  obtain ⟨s, hs⟩ := exists_of_eq_ok (MatrixView.ofMatrix_shows A) le_rfl le_rfl le_rfl
  obtain ⟨dense, -, hstores, hsize, hsum, hnorm⟩ :=
    sum_sq_values_le (MatrixView.ofMatrix_shows A) le_rfl hs
  have htwo : s.values.size = 2 := hsize
  rw [htwo, Finset.sum_range_succ, Finset.sum_range_one] at hsum
  exact ⟨s, dense, hs, hstores, htwo, hsum, hnorm⟩

end Main

end DenseFactor.SVD
