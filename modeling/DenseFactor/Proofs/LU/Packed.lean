import Mathlib
import DenseFactor.Proofs.Order
import DenseFactor.Proofs.Scalar.Exact

/-!
# DenseFactor.Proofs.LU.Packed

The algebra of two triangular factors **packed into one matrix**.

Design points:

* `lowerPart W` and `upperPart W` are the factors that the packed matrix `W` holds.
* After `k` columns of an elimination only the first `k` columns of the one and rows
  of the other are finished. `product k W` is the matrix that `W` stands for then: the
  product of the finished parts plus the block that is left. It is `W` at the start
  and `lowerPart W * upperPart W` at the end.
* Exchanging two rows that are left exchanges the rows of `product k W`, and
  reducing a column does not change it. So the product is the invariant of the run.
-/

namespace DenseFactor.LU.Packed

variable {K : Type} {n : ℕ}

/-- The unit lower triangular factor. -/
def lowerPart [Zero K] [One K] (W : Matrix (Fin n) (Fin n) K) : Matrix (Fin n) (Fin n) K :=
  Matrix.of fun i j => if j < i then W i j else if i = j then 1 else 0

/-- The upper triangular factor. -/
def upperPart [Zero K] (W : Matrix (Fin n) (Fin n) K) : Matrix (Fin n) (Fin n) K :=
  Matrix.of fun i j => if i ≤ j then W i j else 0

variable [CommRing K]

theorem lowerPart_isLowerTriangular (W : Matrix (Fin n) (Fin n) K) :
    (lowerPart W).IsLowerTriangular := by
  intro i j hij
  have hlt : i < j := hij
  simp [lowerPart, hlt.not_gt, hlt.ne]

theorem lowerPart_diag (W : Matrix (Fin n) (Fin n) K) (i : Fin n) : lowerPart W i i = 1 := by
  simp [lowerPart]

theorem upperPart_isUpperTriangular (W : Matrix (Fin n) (Fin n) K) :
    (upperPart W).IsUpperTriangular := by
  intro i j hij
  have hlt : j < i := hij
  simp [upperPart, hlt.not_ge]

theorem upperPart_diag (W : Matrix (Fin n) (Fin n) K) (i : Fin n) :
    upperPart W i i = W i i := by
  simp [upperPart]

/-- The block of the rows and columns from `k` on. -/
def trailing (k : ℕ) (W : Matrix (Fin n) (Fin n) K) (i j : Fin n) : K :=
  if k ≤ (i : ℕ) ∧ k ≤ (j : ℕ) then W i j else 0

/-- The product of the first `k` columns of the lower factor and rows of the upper
one. -/
def leading (k : ℕ) (W : Matrix (Fin n) (Fin n) K) (i j : Fin n) : K :=
  ∑ t : Fin n, if (t : ℕ) < k then lowerPart W i t * upperPart W t j else 0

/-- What the packed matrix stands for when `k` columns are reduced. -/
def product (k : ℕ) (W : Matrix (Fin n) (Fin n) K) : Matrix (Fin n) (Fin n) K :=
  Matrix.of fun i j => leading k W i j + trailing k W i j

theorem product_zero (W : Matrix (Fin n) (Fin n) K) : product 0 W = W := by
  ext i j
  simp [product, leading, trailing]

theorem product_all (W : Matrix (Fin n) (Fin n) K) :
    product n W = lowerPart W * upperPart W := by
  ext i j
  have hout : ¬ (n ≤ (i : ℕ) ∧ n ≤ (j : ℕ)) := by omega
  simp [product, leading, trailing, hout, Matrix.mul_apply]

/-- The finished columns of the lower factor, completed by the block that is left. -/
def lowerUpTo (k : ℕ) (W : Matrix (Fin n) (Fin n) K) : Matrix (Fin n) (Fin n) K :=
  Matrix.of fun i t => if (t : ℕ) < k then lowerPart W i t else trailing k W i t

/-- The finished rows of the upper factor, completed by those of the identity. -/
def upperUpTo (k : ℕ) (W : Matrix (Fin n) (Fin n) K) : Matrix (Fin n) (Fin n) K :=
  Matrix.of fun t j => if (t : ℕ) < k then upperPart W t j else if t = j then 1 else 0

theorem product_eq_mul (k : ℕ) (W : Matrix (Fin n) (Fin n) K) :
    product k W = lowerUpTo k W * upperUpTo k W := by
  ext i j
  have hterm (t : Fin n) : lowerUpTo k W i t * upperUpTo k W t j =
      (if (t : ℕ) < k then lowerPart W i t * upperPart W t j else 0) +
        if t = j then trailing k W i j else 0 := by
    by_cases ht : (t : ℕ) < k
    · have hout : ¬ (k ≤ (i : ℕ) ∧ k ≤ (t : ℕ)) := by omega
      have hzero : (if t = j then trailing k W i j else 0) = 0 := by
        by_cases htj : t = j
        · subst htj
          simp [trailing, hout]
        · rw [if_neg htj]
      simp only [lowerUpTo, upperUpTo, Matrix.of_apply, if_pos ht, hzero, add_zero]
    · by_cases htj : t = j
      · subst htj
        simp [lowerUpTo, upperUpTo, ht]
      · simp [lowerUpTo, upperUpTo, ht, htj]
  rw [Matrix.mul_apply, Finset.sum_congr rfl fun t _ => hterm t, Finset.sum_add_distrib]
  simp [product, leading]

/-- If nothing is left of a column, the determinant is zero. -/
theorem det_product_eq_zero {W : Matrix (Fin n) (Fin n) K} {col : Fin n}
    (h : ∀ i, col ≤ i → W i col = 0) : (product col W).det = 0 := by
  have hcolumn (i : Fin n) : lowerUpTo col W i col = 0 := by
    by_cases hi : col ≤ i
    · simp [lowerUpTo, trailing, h i hi]
    · simp [lowerUpTo, trailing, hi]
  rw [product_eq_mul, Matrix.det_mul, Matrix.det_eq_zero_of_column_eq_zero col hcolumn, zero_mul]

/-- When all columns are reduced, the determinant is the product of the pivots. -/
theorem det_product_all (W : Matrix (Fin n) (Fin n) K) : (product n W).det = ∏ i, W i i := by
  rw [product_all, Matrix.det_mul,
    Matrix.det_of_isLowerTriangular _ (lowerPart_isLowerTriangular W),
    Matrix.det_of_isUpperTriangular (upperPart_isUpperTriangular W)]
  simp [lowerPart_diag, upperPart_diag]

/-- An exchange of two rows that are left exchanges the rows of the product. -/
theorem product_swap {k : ℕ} (W : Matrix (Fin n) (Fin n) K) {a b : Fin n}
    (ha : k ≤ (a : ℕ)) (hb : k ≤ (b : ℕ)) :
    product k (W.submatrix (Equiv.swap a b) id) =
      (product k W).submatrix (Equiv.swap a b) id := by
  have hrow := le_swap_iff ha hb
  have hkept {t : Fin n} (ht : (t : ℕ) < k) : Equiv.swap a b t = t := swap_of_lt ha hb ht
  ext i j
  simp only [product, leading, trailing, Matrix.of_apply, Matrix.submatrix_apply, id_eq, hrow]
  congr 1
  refine Finset.sum_congr rfl fun t _ => ?_
  by_cases ht : (t : ℕ) < k
  · rw [if_pos ht, if_pos ht]
    congr 1
    · -- a finished column of the lower factor moves with its row
      by_cases hi : (i : ℕ) < k
      · simp [lowerPart, hkept hi]
      · have hti : t < i := by omega
        have hts : t < Equiv.swap a b i := by
          have := (hrow i).2 (by omega)
          omega
        simp [lowerPart, hti, hts]
    · simp [upperPart, hkept ht]
  · rw [if_neg ht, if_neg ht]

/-- The entries of a matrix whose column `col` was reduced, as numbers. -/
structure Reduced (col : Fin n) (W W' : Matrix (Fin n) (Fin n) K) : Prop where
  kept (i j : Fin n) (h : i ≤ col ∨ j < col) : W' i j = W i j
  multiplier (i : Fin n) (hi : col < i) : W' i col * W col col = W i col
  remainder (i j : Fin n) (hi : col < i) (hj : col < j) : W' i j = W i j - W' i col * W col j

section Reduced

variable {col : Fin n} {W W' : Matrix (Fin n) (Fin n) K}

/-- The finished part gains the term of the column. -/
theorem Reduced.leading_succ (h : Reduced col W W') (i j : Fin n) :
    leading (col + 1) W' i j =
      leading col W i j + lowerPart W' i col * upperPart W' col j := by
  unfold leading
  rw [sum_lt_succ]
  congr 1
  refine Finset.sum_congr rfl fun t _ => ?_
  by_cases ht : (t : ℕ) < col
  · have hlower : lowerPart W' i t = lowerPart W i t := by
      simp only [lowerPart, Matrix.of_apply, h.kept i t (Or.inr ht)]
    have hupper : upperPart W' t j = upperPart W t j := by
      simp only [upperPart, Matrix.of_apply, h.kept t j (Or.inl (le_of_lt ht))]
    rw [if_pos ht, if_pos ht, hlower, hupper]
  · rw [if_neg ht, if_neg ht]

/-- This term takes over row and column `col` of the block that was left. -/
theorem Reduced.add_trailing_succ (h : Reduced col W W') (i j : Fin n) :
    lowerPart W' i col * upperPart W' col j + trailing (col + 1) W' i j =
      trailing col W i j := by
  have hpivot (j : Fin n) : W' col j = W col j := h.kept col j (Or.inl le_rfl)
  rcases lt_trichotomy i col with hi | rfl | hi
  · have hic : ¬ (col : ℕ) ≤ i := by omega
    have hic' : ¬ (col : ℕ) + 1 ≤ i := by omega
    simp [lowerPart, trailing, hi.not_gt, hi.ne, hic, hic']
  · simp [lowerPart, upperPart, trailing, hpivot]
  · have hic : (col : ℕ) ≤ i := by omega
    have hic' : (col : ℕ) + 1 ≤ i := by omega
    -- below the diagonal the three cases are a finished entry, a multiplier and the block
    rcases lt_trichotomy j col with hj | rfl | hj
    · have hjc : ¬ (col : ℕ) ≤ j := by omega
      have hjc' : ¬ (col : ℕ) + 1 ≤ j := by omega
      simp [upperPart, trailing, hj.not_ge, hjc, hjc']
    · simpa [lowerPart, upperPart, trailing, hi, hic, hpivot] using h.multiplier i hi
    · have hjc : (col : ℕ) ≤ j := by omega
      have hjc' : (col : ℕ) + 1 ≤ j := by omega
      simp [lowerPart, upperPart, trailing, hi, hj.le, hic, hic', hjc, hjc', hpivot,
        h.remainder i j hi hj]

/-- Reducing a column does not change what the packed matrix stands for. -/
theorem Reduced.product_succ (h : Reduced col W W') : product (col + 1) W' = product col W := by
  ext i j
  simp only [product, Matrix.of_apply]
  rw [h.leading_succ, add_assoc, h.add_trailing_succ]

end Reduced

end DenseFactor.LU.Packed
