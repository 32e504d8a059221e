import Mathlib
import DenseFactor.Proofs.Scalar.Exact

/-!
# DenseFactor.Proofs.Triangular

The algebra of **triangular systems**: substitution, and when their columns are
independent.

Design points:

* Both substitutions overwrite the right-hand sides row by row. What does not
  change is the product of a partly finished factor with the partly overwritten
  matrix: `forwardImage L k X` uses the columns of `L` before `k` and the identity
  for the rest, `backwardImage U k X` the columns of `U` from `k` on.
* At one end of the loop the image is the matrix itself, at the other end the product
  with the whole factor.
* A block of rows with a determinant other than zero makes the columns of a taller
  matrix independent (`mulVec_injective_of_submatrix`).
-/

namespace DenseFactor

variable {K : Type} [Field K] {n c : ℕ}

/-! ### Substitution -/

/-- The columns of `L` before `k` applied to the finished rows, and the other rows as
they are. -/
def forwardImage (L : Matrix (Fin n) (Fin n) K) (k : ℕ) (X : Matrix (Fin n) (Fin c) K) :
    Matrix (Fin n) (Fin c) K :=
  Matrix.of fun i j =>
    (∑ t : Fin n, if (t : ℕ) < k then L i t * X t j else 0) + if k ≤ (i : ℕ) then X i j else 0

/-- The columns of `U` from `k` on applied to the finished rows, and the other rows as
they are. -/
def backwardImage (U : Matrix (Fin n) (Fin n) K) (k : ℕ) (X : Matrix (Fin n) (Fin c) K) :
    Matrix (Fin n) (Fin c) K :=
  Matrix.of fun i j =>
    (∑ t : Fin n, if k ≤ (t : ℕ) then U i t * X t j else 0) + if (i : ℕ) < k then X i j else 0

theorem forwardImage_zero (L : Matrix (Fin n) (Fin n) K) (X : Matrix (Fin n) (Fin c) K) :
    forwardImage L 0 X = X := by
  ext i j
  simp [forwardImage]

theorem forwardImage_all (L : Matrix (Fin n) (Fin n) K) (X : Matrix (Fin n) (Fin c) K) :
    forwardImage L n X = L * X := by
  ext i j
  simp [forwardImage, Matrix.mul_apply]

theorem backwardImage_zero (U : Matrix (Fin n) (Fin n) K) (X : Matrix (Fin n) (Fin c) K) :
    backwardImage U 0 X = U * X := by
  ext i j
  simp [backwardImage, Matrix.mul_apply]

theorem backwardImage_all (U : Matrix (Fin n) (Fin n) K) (X : Matrix (Fin n) (Fin c) K) :
    backwardImage U n X = X := by
  ext i j
  have hout (t : Fin n) : ¬ n ≤ (t : ℕ) := by omega
  simp [backwardImage, hout]

/-- Dividing row `col` and subtracting its multiples from the later rows. -/
theorem forwardImage_eq {L : Matrix (Fin n) (Fin n) K} (hL : L.IsLowerTriangular)
    (col : Fin n) {X X' : Matrix (Fin n) (Fin c) K}
    (hpivot : ∀ j, L col col * X' col j = X col j)
    (hX : ∀ i j, i ≠ col → X' i j = if col < i then X i j - X' col j * L i col else X i j) :
    forwardImage L (col + 1) X' = forwardImage L col X := by
  ext i j
  -- finished rows are not touched again, so the terms of the sum stay
  have hkept (t : Fin n) (ht : t < col) : X' t j = X t j := by
    rw [hX t j ht.ne, if_neg ht.not_gt]
  have hsum : (∑ t : Fin n, if (t : ℕ) < col then L i t * X' t j else 0) =
      ∑ t : Fin n, if (t : ℕ) < col then L i t * X t j else 0 := by
    refine Finset.sum_congr rfl fun t _ => ?_
    by_cases ht : (t : ℕ) < col
    · rw [if_pos ht, if_pos ht, hkept t ht]
    · rw [if_neg ht, if_neg ht]
  simp only [forwardImage, Matrix.of_apply]
  rw [sum_lt_succ, hsum, add_assoc]
  congr 1
  rcases lt_trichotomy i col with hi | rfl | hi
  · have hzero : L i col = 0 := hL hi
    have hout : ¬ (col : ℕ) ≤ i := by omega
    have hout' : ¬ (col : ℕ) + 1 ≤ i := by omega
    rw [if_neg hout, if_neg hout', hzero, zero_mul, zero_add]
  · simp [hpivot]
  · have hin : (col : ℕ) ≤ i := by omega
    have hin' : (col : ℕ) + 1 ≤ i := by omega
    rw [if_pos hin, if_pos hin', hX i j hi.ne', if_pos hi]
    ring

/-- Subtracting the multiples of row `col` from the later rows. -/
theorem forwardImage_succ {L : Matrix (Fin n) (Fin n) K} (hL : L.IsLowerTriangular)
    (hdiag : ∀ i, L i i = 1) (col : Fin n) {X X' : Matrix (Fin n) (Fin c) K}
    (hX : ∀ i j, X' i j = if col < i then X i j - X col j * L i col else X i j) :
    forwardImage L (col + 1) X' = forwardImage L col X := by
  have hkept (j : Fin c) : X' col j = X col j := by
    rw [hX, if_neg (lt_irrefl _)]
  refine forwardImage_eq hL col (fun j => ?_) fun i j _ => ?_
  · rw [hdiag, one_mul, hkept]
  · rw [hX, hkept]

/-- Dividing row `col` and subtracting its multiples from the earlier rows. -/
theorem backwardImage_eq {U : Matrix (Fin n) (Fin n) K} (hU : U.IsUpperTriangular)
    (col : Fin n) {X X' : Matrix (Fin n) (Fin c) K}
    (hpivot : ∀ j, U col col * X' col j = X col j)
    (hX : ∀ i j, i ≠ col → X' i j = if i < col then X i j - X' col j * U i col else X i j) :
    backwardImage U col X' = backwardImage U (col + 1) X := by
  ext i j
  have hkept (t : Fin n) (ht : col < t) : X' t j = X t j := by
    rw [hX t j ht.ne', if_neg ht.not_gt]
  have hsum : (∑ t : Fin n, if (col : ℕ) + 1 ≤ t then U i t * X' t j else 0) =
      ∑ t : Fin n, if (col : ℕ) + 1 ≤ t then U i t * X t j else 0 := by
    refine Finset.sum_congr rfl fun t _ => ?_
    by_cases ht : (col : ℕ) + 1 ≤ t
    · rw [if_pos ht, if_pos ht, hkept t (by omega)]
    · rw [if_neg ht, if_neg ht]
  simp only [backwardImage, Matrix.of_apply]
  rw [sum_ge_eq, hsum, add_right_comm, add_comm]
  congr 1
  rcases lt_trichotomy i col with hi | rfl | hi
  · have hin : (i : ℕ) < col := hi
    have hin' : (i : ℕ) < col + 1 := by omega
    rw [if_pos hin, if_pos hin', hX i j hi.ne, if_pos hi]
    ring
  · simp [hpivot]
  · have hzero : U i col = 0 := hU hi
    have hout : ¬ (i : ℕ) < col := by omega
    have hout' : ¬ (i : ℕ) < col + 1 := by omega
    rw [if_neg hout, if_neg hout', hzero, zero_mul, zero_add]

/-! ### Independence -/

/-- Columns are independent if they are in some of the rows. -/
theorem mulVec_injective_of_submatrix {m p : ℕ} {M : Matrix (Fin m) (Fin p) K}
    (rows : Fin p → Fin m) (hdet : (M.submatrix rows id).det ≠ 0) :
    Function.Injective M.mulVec := by
  intro x y hxy
  have hblock (v : Fin p → K) (i : Fin p) :
      (M.submatrix rows id).mulVec v i = M.mulVec v (rows i) := rfl
  refine Matrix.mulVec_injective_of_det_ne_zero hdet ?_
  funext i
  rw [hblock, hblock, hxy]

end DenseFactor
