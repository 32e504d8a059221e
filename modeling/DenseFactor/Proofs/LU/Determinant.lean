import Mathlib
import DenseFactor.Proofs.LU.Factorization

/-!
# DenseFactor.Proofs.LU.Determinant

Over an exact field the elimination **decides singularity**, and its determinant is
the determinant.

With the exact test for zero the invariant of the run also says that no pivot so far
is zero. A rejected column then has nothing left, so the rows that the packed matrix
stands for are dependent; a complete run has a product of non-zero pivots, and the
parity of the exchanges is the sign of the permutation.
-/

namespace DenseFactor.LU

open ExactScalar (value)

variable {α K : Type} [Field K] {n : ℕ} {E : Failure → Prop}

theorem sign_mul_self (σ : Equiv.Perm (Fin n)) :
    (Equiv.Perm.sign σ : K) * (Equiv.Perm.sign σ : K) = 1 := by
  rcases Int.units_eq_one_or (Equiv.Perm.sign σ) with hσ | hσ <;> simp [hσ]

theorem sign_ne_zero (σ : Equiv.Perm (Fin n)) : (Equiv.Perm.sign σ : K) ≠ 0 :=
  left_ne_zero_of_mul_eq_one (sign_mul_self σ)

/-! ### The invariant -/

section Invariant

variable [Scalar α] [ExactScalar α K]

/-- The packed matrix stands for the rows of `A` in the order `σ`, and its first `k`
pivots are not zero. -/
structure EliminatesExactly (A : Matrix (Fin n) (Fin n) α) (k : ℕ) (σ : Equiv.Perm (Fin n))
    (W : Matrix (Fin n) (Fin n) α) : Prop where
  rows : RepresentsRows A k σ W
  pivot_ne_zero (i : Fin n) (hi : (i : ℕ) < k) : value (W i i) ≠ 0

theorem eliminatesExactly_start (A : Matrix (Fin n) (Fin n) α) : EliminatesExactly A 0 1 A where
  rows := representsRows_start A
  pivot_ne_zero _ hi := absurd hi (Nat.not_lt_zero _)

theorem EliminatesExactly.step {A : Matrix (Fin n) (Fin n) α} {col row : Fin n}
    {σ : Equiv.Perm (Fin n)} {W W' : Matrix (Fin n) (Fin n) α} (h : EliminatesExactly A col σ W)
    (hrow : col ≤ row) (hne : value (W row col) ≠ 0)
    (hreduced : ReducesColumn col (W.submatrix (Equiv.swap col row) id) W') :
    EliminatesExactly A (col + 1) (σ * Equiv.swap col row) W' := by
  have hpivot : value (W.submatrix (Equiv.swap col row) id col col) ≠ 0 := by
    simpa using hne
  refine ⟨h.rows.step hrow hreduced fun _ _ => hpivot, fun i hi => ?_⟩
  rw [hreduced.kept i i (Or.inl (by omega))]
  by_cases hlast : i = col
  · exact hlast ▸ hpivot
  · have hbefore : (i : ℕ) < col := by omega
    rw [Matrix.submatrix_apply, swap_of_lt le_rfl hrow hbefore]
    exact h.pivot_ne_zero i hbefore

/-- The determinant of what the packed matrix stands for. -/
theorem RepresentsRows.det_eq {A : Matrix (Fin n) (Fin n) α} {k : ℕ} {σ : Equiv.Perm (Fin n)}
    {W : Matrix (Fin n) (Fin n) α} (h : RepresentsRows A k σ W) :
    (Packed.product k (W.map value)).det = (Equiv.Perm.sign σ : K) * (A.map value).det := by
  unfold RepresentsRows at h
  rw [h, Matrix.det_permute]

/-- The rows of a matrix whose elimination meets an empty column are dependent. -/
theorem RepresentsRows.det_eq_zero {A : Matrix (Fin n) (Fin n) α} {col : Fin n}
    {σ : Equiv.Perm (Fin n)} {W : Matrix (Fin n) (Fin n) α} (h : RepresentsRows A col σ W)
    (hcolumn : ∀ i, col ≤ i → value (W i col) = 0) : (A.map value).det = 0 := by
  have hdet := h.det_eq
  rw [Packed.det_product_eq_zero hcolumn] at hdet
  rcases mul_eq_zero.1 hdet.symm with hzero | hzero
  · exact absurd hzero (sign_ne_zero σ)
  · exact hzero

/-- The determinant of a matrix whose elimination is complete. -/
theorem RepresentsRows.det_eq_sign_mul_prod {A : Matrix (Fin n) (Fin n) α}
    {σ : Equiv.Perm (Fin n)} {W : Matrix (Fin n) (Fin n) α} (h : RepresentsRows A n σ W) :
    (A.map value).det = (Equiv.Perm.sign σ : K) * ∏ i, value (W i i) := by
  have hdet := h.det_eq
  rw [Packed.det_product_all] at hdet
  simp only [Matrix.map_apply] at hdet
  rw [hdet, ← mul_assoc, sign_mul_self, one_mul]

/-! ### The computed determinant -/

/-- The product over the diagonal with the sign of the exchanges. -/
theorem ends_det {D : α → Prop} (hE : FailsBy α E D) {lu : LU α} {σ : Equiv.Perm (Fin n)}
    {W : Matrix (Fin n) (Fin n) α} (h : lu.elimination.Holds σ W) (hs : lu.isSingular = false) :
    Ends E (fun d => value d = (Equiv.Perm.sign σ : K) * ∏ i, value (W i i)) lu.det := by
  have hdim : lu.dim = n := h.packed.nrows
  have hloop (x : α) (hx : value x = (Equiv.Perm.sign σ : K)) :
      Ends E (fun d => value d = (Equiv.Perm.sign σ : K) * ∏ i, value (W i i))
        (foldPositions 0 n x fun product i => do
          Scalar.mul product (← lu.elimination.packed.entry i i)) := by
    rw [← hx]
    refine ends_product x (fun i => value (W i i)) fun i x => ?_
    rw [h.packed.entry i i, Ends.ok_bind_iff]
    exact (ExactScalar.ends_mul _ _).failing (hE.ends_mul _ _)
  have hsign := h.sign
  unfold det
  rw [hs, hdim]
  by_cases heven : lu.elimination.even = true
  · simp only [heven, if_true, Bool.false_eq_true, if_false] at hsign ⊢
    refine hloop _ ?_
    rw [hsign, ExactScalar.value_one]
    simp
  · simp only [heven, Bool.false_eq_true, if_false] at hsign ⊢
    refine ((ExactScalar.ends_sub _ _).failing (hE.ends_sub _ _)).bind fun x hx => hloop x ?_
    rw [hx, hsign, ExactScalar.value_zero, ExactScalar.value_one]
    simp

end Invariant

/-- Over an exact field with the exact test for zero, however pivots are chosen, a
column is rejected iff the determinant of the matrix is zero, and the computed
determinant is the determinant, whether the matrix is singular or not. Nothing is ever
divided by zero: if the arithmetic fails otherwise by `E` only, so do the decomposition
and its determinant. If pivots are chosen by magnitude, magnitudes have to tell zero from
the other elements. -/
theorem isSingular_iff_det_eq_zero [FieldScalar α] [ExactScalar α K]
    (hE : FailsBy α E fun y => value y ≠ 0) {A : Matrix (Fin n) (Fin n) α} {a : MatrixView α}
    (ha : a.Shows A) (numeric : Bool) (hnumeric : numeric = true → FaithfulMagnitude α) :
    Ends E (fun lu => (lu.isSingular = true ↔ (A.map value).det = 0) ∧
        Ends E (fun d => value d = (A.map value).det) lu.det)
      (ofPredicate Scalar.isZero numeric a) := by
  refine (ends_ofRule hE (selects_field_exact hnumeric) (fun _ _ row hP => hP.1 row rfl) ha
    (I := EliminatesExactly A) (eliminatesExactly_start A) ?_ none).imp ?_
  · intro col row σ W W' hrow hP hI hreduced
    exact hI.step hrow (hP.1 row rfl) hreduced
  · intro lu hlu
    obtain ⟨σ, W, hfinished⟩ := hlu
    by_cases hs : lu.isSingular = true
    · -- the run stopped at a column in which nothing was left
      obtain ⟨col, hI, -, hcolumn⟩ := hfinished.rejected hs
      have hzero := hI.rows.det_eq_zero (hcolumn rfl)
      refine ⟨⟨fun _ => hzero, fun _ => hs⟩, ?_⟩
      unfold det
      rw [if_pos hs, hzero]
      exact ExactScalar.value_zero
    · have hs : lu.isSingular = false := by simpa using hs
      have hI := hfinished.complete hs
      have hdet := hI.rows.det_eq_sign_mul_prod
      refine ⟨⟨fun h => absurd (hs.symm.trans h) Bool.false_ne_true, fun hzero => ?_⟩, ?_⟩
      · have hprod : ∏ i, value (W i i) ≠ 0 :=
          Finset.prod_ne_zero_iff.2 fun i _ => hI.pivot_ne_zero i i.isLt
        rw [hzero] at hdet
        exact absurd hdet.symm (mul_ne_zero (sign_ne_zero σ) hprod)
      · rw [hdet]
        exact ends_det hE hfinished.holds hs

/-- The determinant of `exchanging`. -/
theorem isSingular_iff_det_eq_zero_exchanging :
    ∃ (lu : LU (Ratio 64)) (d : Ratio 64),
      ofPredicate Scalar.isZero true (.ofMatrix exchanging) = .ok lu ∧
        lu.isSingular = false ∧ (exchanging.map value).det ≠ 0 ∧
        lu.det = .ok d ∧ d.value = -2 ∧ value d = (exchanging.map value).det := by
  obtain ⟨lu, hlu, hs, -⟩ := exists_decomposition_exchanging
  have hrun : (ofPredicate Scalar.isZero true (.ofMatrix exchanging) >>= det).toOption.map
      Ratio.value = some (-2) := by decide +kernel
  obtain ⟨hiff, hdet⟩ := (isSingular_iff_det_eq_zero Ratio.failsBy_overflow
    (MatrixView.ofMatrix_shows exchanging) true fun _ => inferInstance).of_ok hlu
  have hne : (exchanging.map value).det ≠ 0 := fun hzero =>
    Bool.false_ne_true (hs.symm.trans (hiff.2 hzero))
  rw [hlu] at hrun
  change lu.det.toOption.map Ratio.value = some (-2) at hrun
  cases hd : lu.det with
  | error e => simp [hd, Except.toOption] at hrun
  | ok d =>
      rw [hd] at hdet
      refine ⟨lu, d, hlu, hs, hne, hd, ?_, hdet⟩
      simpa [hd, Except.toOption] using hrun

end DenseFactor.LU
