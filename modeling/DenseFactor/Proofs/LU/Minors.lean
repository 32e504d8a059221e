import Mathlib
import DenseFactor.Proofs.LU.Determinant

/-!
# DenseFactor.Proofs.LU.Minors

Over an exact field the elimination that takes the first acceptable row **keeps all rows in
place** exactly if no leading principal minor is zero.

Design points:

* As long as no row has moved, the packed matrix stands for the matrix itself. A leading minor
  of the product is that of its two parts, because one of them is upper triangular
  (`submatrix_mul_castLE`), so it is the product of the pivots up to there
  (`Packed.leadingMinor_product`). The same holds with another last row
  (`Packed.extendedMinor_product`).
* In one direction the next pivot is then the quotient of two minors. It is not zero, and the
  search that starts with its row ends there. One exchange would end the argument, so the
  invariant carries the order along (`EliminatesInOrder`).
* In the other direction the factors are those of the matrix, and no pivot is zero.
-/

namespace DenseFactor.LU

open ExactScalar (value)

variable {K : Type} [Field K] {n : ℕ}

/-! ### Leading minors -/

/-- The determinant of the first `k + 1` rows and columns. -/
def leadingMinor (A : Matrix (Fin n) (Fin n) K) (k : Fin n) : K :=
  (A.submatrix (Fin.castLE k.isLt) (Fin.castLE k.isLt)).det

/-- The determinant of the rows `rows 0, …, rows (k - 1)` and `r` in the first `k + 1`
columns. -/
def extendedMinor (A : Matrix (Fin n) (Fin n) K) (rows : Fin n → Fin n) (k r : Fin n) : K :=
  (A.submatrix (Function.update (fun j => rows (Fin.castLE k.isLt j)) (Fin.last k) r)
    (Fin.castLE k.isLt)).det

theorem extendedMinor_id (A : Matrix (Fin n) (Fin n) K) (k : Fin n) :
    extendedMinor A id k k = leadingMinor A k := by
  have hrows : Function.update (fun j => id (Fin.castLE k.isLt j)) (Fin.last k) k =
      Fin.castLE k.isLt := Function.update_eq_self (Fin.last k) (Fin.castLE k.isLt)
  rw [extendedMinor, hrows, leadingMinor]

/-- With an upper triangular factor the first columns of a product need only the first rows of
this factor. -/
theorem submatrix_mul_castLE {m p : ℕ} (L : Matrix (Fin m) (Fin n) K)
    {U : Matrix (Fin n) (Fin n) K} (hU : U.IsUpperTriangular) (hp : p ≤ n) (rows : Fin p → Fin m) :
    (L * U).submatrix rows (Fin.castLE hp) =
      L.submatrix rows (Fin.castLE hp) * U.submatrix (Fin.castLE hp) (Fin.castLE hp) := by
  ext i j
  simp only [Matrix.submatrix_apply, Matrix.mul_apply]
  symm
  refine Finset.sum_of_injOn (Fin.castLE hp) (Fin.castLE_injective hp).injOn (by simp) ?_ ?_
  · intro t _ ht
    -- what is not among the first rows stands below the diagonal
    have hjt : Fin.castLE hp j < t := by
      by_contra hle
      have hlt : (t : ℕ) < p := (Nat.le_of_not_lt hle).trans_lt j.isLt
      exact ht ⟨⟨t, hlt⟩, by simp, rfl⟩
    have hzero : U t (Fin.castLE hp j) = 0 := hU hjt
    rw [hzero, mul_zero]
  · intro t _
    rfl

namespace Packed

theorem upperUpTo_isUpperTriangular (k : ℕ) (W : Matrix (Fin n) (Fin n) K) :
    (upperUpTo k W).IsUpperTriangular := by
  intro i j hij
  have hlt : j < i := hij
  by_cases hi : (i : ℕ) < k
  · simp [upperUpTo, hi, upperPart, hlt.not_ge]
  · simp [upperUpTo, hi, hlt.ne']

/-- A minor of the first rows and one more, as soon as the columns before the last one are
reduced: the product of the pivots so far with what stands in the last column of this row. If
the last column is reduced as well, this row has to be the one on the diagonal. -/
theorem extendedMinor_product {m : ℕ} (W : Matrix (Fin n) (Fin n) K) {k i : Fin n}
    (hkm : (k : ℕ) ≤ m) (hi : i = k ∨ m = k ∧ k ≤ i) :
    extendedMinor (product m W) id k i =
      (∏ j : Fin k, W (Fin.castLE k.isLt.le j) (Fin.castLE k.isLt.le j)) * W i k := by
  have hupper := upperUpTo_isUpperTriangular m W
  set rows := Function.update (fun j => id (Fin.castLE k.isLt j)) (Fin.last k) i with hrows
  have hbefore (j : Fin k) : rows j.castSucc = Fin.castLE k.isLt.le j := by
    rw [hrows, Function.update_of_ne (Fin.castSucc_ne_last j)]
    rfl
  have hlast : rows (Fin.last k) = i := Function.update_self _ _ _
  have hk : Fin.castLE k.isLt (Fin.last k) = k := rfl
  have hlower : ((lowerUpTo m W).submatrix rows (Fin.castLE k.isLt)).IsLowerTriangular := by
    intro j t hjt
    have hlt : j < t := hjt
    -- only the last row may be another one, and nothing stands to its right
    obtain ⟨j, rfl⟩ := Fin.exists_castSucc_eq.2 (hlt.trans_le (Fin.le_last t)).ne
    have hj : (j : ℕ) < m := j.isLt.trans_le hkm
    have hjt' : Fin.castLE k.isLt.le j < Fin.castLE k.isLt t := hlt
    rw [Matrix.submatrix_apply, hbefore]
    by_cases ht : (t : ℕ) < m
    · simp [lowerUpTo, ht, lowerPart, hjt'.not_gt, hjt'.ne]
    · simp [lowerUpTo, ht, trailing, hj.not_ge]
  rw [extendedMinor, ← hrows, product_eq_mul, submatrix_mul_castLE _ hupper, Matrix.det_mul,
    Matrix.det_of_isLowerTriangular _ hlower,
    Matrix.det_of_isUpperTriangular (hupper.submatrix (f := Fin.castLE k.isLt)),
    ← Finset.prod_mul_distrib, Fin.prod_univ_castSucc]
  congr 1
  · refine Finset.prod_congr rfl fun j _ => ?_
    have hj : (j : ℕ) < m := j.isLt.trans_le hkm
    simp [hbefore, lowerUpTo, upperUpTo, hj, lowerPart, upperPart]
  · rcases hi with rfl | ⟨rfl, hki⟩
    · by_cases hi : (i : ℕ) < m
      · simp [hlast, hk, lowerUpTo, upperUpTo, hi, lowerPart_diag, upperPart_diag]
      · have him : m ≤ (i : ℕ) := not_lt.1 hi
        simp [hlast, hk, lowerUpTo, upperUpTo, hi, trailing, him]
    · simp [hlast, hk, lowerUpTo, upperUpTo, trailing, hki]

/-- A leading minor of the product is the product of the pivots up to there, as soon as the
columns before the last one are reduced. -/
theorem leadingMinor_product {m : ℕ} (W : Matrix (Fin n) (Fin n) K) {k : Fin n}
    (hkm : (k : ℕ) ≤ m) :
    leadingMinor (product m W) k =
      ∏ i : Fin (k + 1), W (Fin.castLE k.isLt i) (Fin.castLE k.isLt i) := by
  rw [← extendedMinor_id, extendedMinor_product W hkm (Or.inl rfl), Fin.prod_univ_castSucc]
  rfl

end Packed

/-! ### The order of the rows -/

section Order

variable {α : Type} [Scalar α] [ExactScalar α K] {A : Matrix (Fin n) (Fin n) α}
  {W W' : Matrix (Fin n) (Fin n) α} {σ : Equiv.Perm (Fin n)}

/-- The leading minors of a matrix whose rows are in place are products of its pivots. -/
theorem EliminatesExactly.leadingMinor_eq {m : ℕ} (h : EliminatesExactly A m 1 W) {k : Fin n}
    (hkm : (k : ℕ) ≤ m) : leadingMinor (A.map value) k =
      ∏ i : Fin (k + 1), value (W (Fin.castLE k.isLt i) (Fin.castLE k.isLt i)) := by
  have hrows : Packed.product m (W.map value) = A.map value := h.rows
  rw [← hrows, Packed.leadingMinor_product _ hkm]
  rfl

/-- What the elimination keeps: if no leading minor is zero, the rows are in place. -/
structure EliminatesInOrder (A : Matrix (Fin n) (Fin n) α) (k : ℕ) (σ : Equiv.Perm (Fin n))
    (W : Matrix (Fin n) (Fin n) α) : Prop where
  eliminates : EliminatesExactly A k σ W
  order (hminors : ∀ k, leadingMinor (A.map value) k ≠ 0) : σ = 1

namespace EliminatesInOrder

theorem start (A : Matrix (Fin n) (Fin n) α) : EliminatesInOrder A 0 1 A :=
  ⟨eliminatesExactly_start A, fun _ => rfl⟩

/-- If no leading minor is zero, the next pivot on the diagonal is not. -/
theorem pivot_ne_zero {col : Fin n} (h : EliminatesInOrder A col σ W)
    (hminors : ∀ k, leadingMinor (A.map value) k ≠ 0) : value (W col col) ≠ 0 := by
  obtain rfl := h.order hminors
  have hminor := hminors col
  rw [h.eliminates.leadingMinor_eq le_rfl] at hminor
  exact Finset.prod_ne_zero_iff.1 hminor (Fin.last col) (Finset.mem_univ _)

/-- A step that takes the first row that is not zero. -/
theorem step {col row : Fin n} (h : EliminatesInOrder A col σ W) (hrow : col ≤ row)
    (hne : value (W row col) ≠ 0) (hfirst : ∀ i, col ≤ i → i < row → value (W i col) = 0)
    (hreduced : ReducesColumn col (W.submatrix (Equiv.swap col row) id) W') :
    EliminatesInOrder A (col + 1) (σ * Equiv.swap col row) W' := by
  refine ⟨h.eliminates.step hrow hne hreduced, fun hminors => ?_⟩
  have hsame : row = col := by
    by_contra hother
    exact h.pivot_ne_zero hminors (hfirst col le_rfl (lt_of_le_of_ne hrow (Ne.symm hother)))
  rw [hsame, Equiv.swap_self, h.order hminors]
  rfl

end EliminatesInOrder

end Order

/-- Over an exact field with the exact test for zero, the decomposition that takes the first
acceptable row is complete with all rows in their own order exactly if no leading principal
minor is zero. Then the matrix is the product of the two factors. If the arithmetic fails, other
than on a division by zero, by `E` only, so does the decomposition. -/
theorem inOrder_iff_leadingMinor_ne_zero {α : Type} [FieldScalar α] [ExactScalar α K]
    {E : Failure → Prop} (hE : FailsBy α E fun y => value y ≠ 0)
    {A : Matrix (Fin n) (Fin n) α} {a : MatrixView α} (ha : a.Shows A) :
    Ends E (fun lu =>
        (lu.isSingular = false ∧ lu.pivot = Array.range n ↔
          ∀ k, leadingMinor (A.map value) k ≠ 0) ∧
        ((∀ k, leadingMinor (A.map value) k ≠ 0) →
          ∃ (l u : DenseMatrix α) (L U : Matrix (Fin n) (Fin n) α),
            (lu.lower? = .ok (some l) ∧ l.Stores L) ∧ (lu.upper? = .ok (some u) ∧ u.Stores U) ∧
            L.map value * U.map value = A.map value))
      (ofPredicate Scalar.isZero false a) := by
  refine (ends_ofRule hE selects_firstNonZero_exact (fun W col row h => (h.1 row rfl).1) ha
    (I := EliminatesInOrder A) (EliminatesInOrder.start A) ?_ none).imp ?_
  · intro col row σ W W' hrow hP hI hreduced
    obtain ⟨hne, hfirst⟩ := hP.1 row rfl
    exact hI.step hrow hne hfirst hreduced
  · intro lu hlu
    obtain ⟨σ, W, hfinished⟩ := hlu
    have hcomplete (hminors : ∀ k, leadingMinor (A.map value) k ≠ 0) : lu.isSingular = false := by
      by_contra hs
      obtain ⟨col, hI, hrejected⟩ := hfinished.rejected (Bool.not_eq_false _ ▸ hs)
      exact hI.pivot_ne_zero hminors (hrejected.2 rfl col le_rfl)
    have horder : lu.pivot = Array.range n ↔ σ = 1 := hfinished.holds.lists.eq_range_iff
    refine ⟨⟨fun h k => ?_, fun hminors => ?_⟩, fun hminors => ?_⟩
    · obtain ⟨hs, hpivot⟩ := h
      obtain rfl := horder.1 hpivot
      have hexact := (hfinished.complete hs).eliminates
      rw [hexact.leadingMinor_eq k.isLt.le]
      exact Finset.prod_ne_zero_iff.2 fun i _ => hexact.pivot_ne_zero _ (Fin.isLt _)
    · have hs := hcomplete hminors
      exact ⟨hs, horder.2 ((hfinished.complete hs).order hminors)⟩
    · have hs := hcomplete hminors
      have hI := hfinished.complete hs
      obtain rfl := hI.order hminors
      obtain ⟨_, hl, l, L, rfl, hL, hLW⟩ := Ends.never_iff.1 (ends_lower? hfinished.holds hs)
      obtain ⟨_, hu, u, U, rfl, hU, hUW⟩ := Ends.never_iff.1 (ends_upper? hfinished.holds hs)
      refine ⟨l, u, L, U, ⟨hl, hL⟩, ⟨hu, hU⟩, ?_⟩
      rw [hLW, hUW, ← Packed.product_all]
      exact hI.eliminates.rows

/-- A matrix of ratios whose rows stay in place. -/
def inOrder : Matrix (Fin 3) (Fin 3) (Ratio 64) :=
  !![Scalar.one, Scalar.one, Scalar.zero;
     Scalar.one, Scalar.zero, Scalar.one;
     Scalar.zero, Scalar.one, Scalar.one]

/-- No leading minor of `inOrder` is zero, because its decomposition moves no row. -/
theorem inOrder_iff_leadingMinor_ne_zero_three :
    ∃ (lu : LU (Ratio 64)) (l u : DenseMatrix (Ratio 64)) (L U : Matrix (Fin 3) (Fin 3) (Ratio 64)),
      ofPredicate Scalar.isZero false (.ofMatrix inOrder) = .ok lu ∧
        lu.isSingular = false ∧ lu.pivot = #[0, 1, 2] ∧
        (∀ k, leadingMinor (inOrder.map value) k ≠ 0) ∧
        (lu.lower? = .ok (some l) ∧ l.Stores L) ∧ (lu.upper? = .ok (some u) ∧ u.Stores U) ∧
        L.map value * U.map value = inOrder.map value := by
  have hrun : (ofPredicate Scalar.isZero false (.ofMatrix inOrder)).toOption.map
      (fun lu => (lu.isSingular, lu.pivot)) = some (false, #[0, 1, 2]) := by decide +kernel
  cases hlu : ofPredicate Scalar.isZero false (.ofMatrix inOrder) with
  | error e => simp [hlu, Except.toOption] at hrun
  | ok lu =>
      simp only [hlu, Except.toOption, Option.map_some, Option.some.injEq,
        Prod.mk.injEq] at hrun
      obtain ⟨hs, hpivot⟩ := hrun
      obtain ⟨hiff, hfactors⟩ := (inOrder_iff_leadingMinor_ne_zero Ratio.failsBy_overflow
        (MatrixView.ofMatrix_shows inOrder)).of_ok hlu
      have hminors := hiff.1 ⟨hs, hpivot⟩
      obtain ⟨l, u, L, U, hl, hu, hproduct⟩ := hfactors hminors
      exact ⟨lu, l, u, L, U, rfl, hs, hpivot, hminors, hl, hu, hproduct⟩

end DenseFactor.LU
