import Mathlib
import DenseFactor.Proofs.Cholesky.Reduction

/-!
# DenseFactor.Proofs.Cholesky.Pivoted

What a pivoted Cholesky decomposition is worth over exact real numbers, for matrices that
are **semidefinite** and for those that are not.

Design points:

* Where a run settles, the matrix and the product of its root differ by what is left
  (`Settled.sub_root`). Of a semidefinite matrix this is semidefinite with a small diagonal,
  so all of it is small.
* The stopping test sees the diagonal alone. A matrix that is not semidefinite may
  therefore pass: what is left then has a zero diagonal, but it is not zero. The matrix
  `indefinite` is one.
-/

namespace DenseFactor.PivotedCholesky

open ExactScalar (value)
open scoped Matrix

noncomputable section

variable {n : ℕ}

/-! ### Settled runs -/

/-- The first `r` columns of a root, with its rows in the order of the matrix. -/
def matrixOrder {β : Type} {r : ℕ} (l : Matrix (Fin n) (Fin n) β) (σ : Equiv.Perm (Fin n))
    (hr : r ≤ n) : Matrix (Fin n) (Fin r) β :=
  l.submatrix σ.symm (Fin.castLE hr)

namespace Settled

variable {A w l : Matrix (Fin n) (Fin n) ℝ} {small : ℝ} {r : ℕ} {σ : Equiv.Perm (Fin n)}

/-- The product of the root falls short of the matrix by what is left. -/
theorem sub_root (h : Settled A small r σ w l) :
    A - matrixOrder l σ h.le * (matrixOrder l σ h.le)ᵀ =
      (residual w r).submatrix σ.symm σ.symm := by
  rw [← h.factor.sub_columns h.le]
  ext i j
  simp [Matrix.mul_apply, matrixOrder, PartialFactor.columns]

theorem rank_root (h : Settled A small r σ w l) : (matrixOrder l σ h.le).rank = r := by
  calc
    (matrixOrder l σ h.le).rank = (PartialFactor.columns l h.le).rank :=
      Matrix.rank_submatrix (PartialFactor.columns l h.le) σ.symm (Equiv.refl (Fin r))
    _ = r := h.factor.rank_columns h.le

/-- The diagonal that is left is small. -/
theorem abs_residual_le (h : Settled A small r σ w l) (hsmall : 0 ≤ small) (i : Fin n) :
    |residual w r i i| ≤ small := by
  by_cases hi : r ≤ (i : ℕ)
  · rw [residual_of_le w hi hi]
    exact h.small i hi
  · rw [residual_of_lt w (Or.inl (not_le.1 hi)), abs_zero]
    exact hsmall

/-- Of a semidefinite matrix everything that is left is small. -/
theorem abs_sub_root_le (h : Settled A small r σ w l) (hsmall : 0 ≤ small)
    (hA : A.PosSemidef) (i j : Fin n) :
    |(A - matrixOrder l σ h.le * (matrixOrder l σ h.le)ᵀ) i j| ≤ small := by
  rw [h.sub_root, Matrix.submatrix_apply]
  refine abs_le_of_posSemidef (h.semidefinite.1 hA) (fun i => ?_) _ _
  exact (le_abs_self _).trans (h.abs_residual_le hsmall i)

/-- If nothing counts as small, the root of a semidefinite matrix is exact. -/
theorem root_mul_transpose (h : Settled A 0 r σ w l) (hA : A.PosSemidef) :
    matrixOrder l σ h.le * (matrixOrder l σ h.le)ᵀ = A := by
  symm
  rw [← sub_eq_zero]
  ext i j
  exact abs_nonpos_iff.1 (h.abs_sub_root_le le_rfl hA i j)

/-- If nothing counts as small, the product of the root has the diagonal of the matrix. -/
theorem diag_sub_root (h : Settled A 0 r σ w l) (i : Fin n) :
    (A - matrixOrder l σ h.le * (matrixOrder l σ h.le)ᵀ) i i = 0 := by
  rw [h.sub_root, Matrix.submatrix_apply]
  exact abs_nonpos_iff.1 (h.abs_residual_le le_rfl _)

end Settled

/-- A matrix that is not semidefinite has no root. -/
theorem mul_transpose_ne {r : ℕ} {A : Matrix (Fin n) (Fin n) ℝ} (hA : ¬ A.PosSemidef)
    (B : Matrix (Fin n) (Fin r) ℝ) : B * Bᵀ ≠ A := by
  rintro rfl
  exact hA (Matrix.posSemidef_self_mul_conjTranspose B)

/-- A refused matrix with a diagonal entry above the bound is not semidefinite. -/
theorem Refused.not_posSemidef {A : Matrix (Fin n) (Fin n) ℝ} {small : ℝ} (hsmall : 0 ≤ small)
    (h : Refused A small) (hlarge : ∃ i, small < A i i) : ¬ A.PosSemidef := by
  intro hA
  cases h with
  | noPivot hle =>
      obtain ⟨i, hi⟩ := hlarge
      exact (hle i).not_gt hi
  | negative hI i hri hneg =>
      have hdiag := (hI.semidefinite.1 hA).diag_nonneg (i := i)
      rw [residual_of_le _ hri hri] at hdiag
      linarith

/-- If nothing counts as small, zero is the only semidefinite matrix that is refused. -/
theorem Refused.eq_zero {A : Matrix (Fin n) (Fin n) ℝ} (h : Refused A 0) (hA : A.PosSemidef) :
    A = 0 := by
  have hdiag (i : Fin n) : A i i ≤ 0 := by
    by_contra hlarge
    exact h.not_posSemidef le_rfl ⟨i, not_le.1 hlarge⟩ hA
  ext i j
  exact abs_nonpos_iff.1 (abs_le_of_posSemidef hA hdiag i j)

/-! ### Decompositions -/

section Decompositions

variable {ρ : Type} [RealScalar ρ] {E : Failure → Prop}

/-- The rows of the root find their places. -/
theorem Reduction.Holds.ends_inMatrixOrder {s : Reduction ρ} {σ : Equiv.Perm (Fin n)}
    {W L : Matrix (Fin n) (Fin n) ρ} (h : s.Holds σ W L) {r : ℕ} (hr : r ≤ n) :
    Ends Never (·.Stores (matrixOrder L σ hr)) (s.inMatrixOrder r) := by
  unfold Reduction.inMatrixOrder
  rw [h.order.size]
  refine (DenseMatrix.stores_zeros n r).foldlM_updateRow σ
    (Y := fun p t => L p (Fin.castLE hr t)) fun p m M hM => ?_
  rw [h.order.read p, Ends.ok_bind_iff]
  refine (h.root.rowSlice p).bind fun values hvalues => ?_
  obtain ⟨hsize, helement⟩ := hvalues
  have hhead : (values.extract 0 r).size = r := by
    rw [Array.size_extract, hsize, min_eq_left hr, Nat.sub_zero]
  refine hM.writeRow (DenseMatrix.stores_row hhead fun t => ?_) (σ p)
  have hlt : (t : ℕ) < min r values.size - 0 := by omega
  rw [Fin.getElem?_fin, Array.getElem?_extract, if_pos hlt, Nat.zero_add]
  exact helement (Fin.castLE hr t)

variable [ExactReal ρ] {A : Matrix (Fin n) (Fin n) ρ} {a : MatrixView ρ}

/-- A symmetric matrix is refused, or the root that settled is returned. -/
theorem ends_ofSmall (ha : a.Shows A) (hA : (A.map value).IsSymm) {small : ρ}
    (hsmall : 0 ≤ value small) :
    Ends (fun e => e = .notPositiveDefinite ∧ Refused (A.map value) (value small))
      (fun c => ∃ σ w L, ∃ h : Settled (A.map value) (value small) c.rank σ w (L.map value),
        c.root.Stores (matrixOrder L σ h.le))
      (ofSmall small a) := by
  unfold ofSmall
  rw [if_neg ha.square, ha.nrows]
  refine ha.ofView.bind ?_
  intro work hwork
  have hstart : Reduction.Holds { work, root := .zeros n n, order := Array.range n } 1 A
      (Matrix.of fun _ _ => Scalar.zero) :=
    ⟨hwork, DenseMatrix.stores_zeros n n, Lists.range n⟩
  have hzero : (Matrix.of fun (_ _ : Fin n) => (Scalar.zero : ρ)).map value = 0 := by
    ext i j
    exact ExactScalar.value_zero
  have hI := Reduces.start hA
  rw [← hzero] at hI
  rw [positions_zero]
  refine (Reduction.ends_run hsmall (Nat.zero_add n) hstart hI).bind ?_
  intro out hout
  obtain ⟨s, r⟩ := out
  obtain ⟨σ, W, L, hs, hsettled⟩ := hout
  refine (hs.ends_inMatrixOrder hsettled.le).of_never.bind ?_
  intro root hroot
  exact ⟨σ, W.map value, L, hsettled, hroot⟩

/-- Over exact real numbers, a semidefinite matrix with a diagonal entry above the bound is
decomposed. Its root has as many columns as the rank that is reported, and no entry of the
matrix differs from that of the product of the root by more than the bound. If the bound is
zero, the product is the matrix and the rank is that of the matrix. -/
theorem ofSmall_root_mul_transpose (ha : a.Shows A) (hA : (A.map value).PosSemidef) {small : ρ}
    (hsmall : 0 ≤ value small) (hlarge : ∃ i, value small < value (A i i)) :
    ∃ (c : PivotedCholesky ρ) (B : Matrix (Fin n) (Fin c.rank) ρ),
      ofSmall small a = .ok c ∧ c.root.Stores B ∧
        (∀ i j, |(A.map value - B.map value * (B.map value)ᵀ) i j| ≤ value small) ∧
        (value small = 0 → B.map value * (B.map value)ᵀ = A.map value ∧
          c.rank = (A.map value).rank) := by
  have hends := ends_ofSmall ha hA.isHermitian hsmall
  cases hresult : ofSmall small a with
  | error e =>
      obtain ⟨-, hrefused⟩ := hends.of_error hresult
      exact absurd hA (hrefused.not_posSemidef hsmall hlarge)
  | ok c =>
      obtain ⟨σ, w, L, hsettled, hroot⟩ := hends.of_ok hresult
      refine ⟨c, matrixOrder L σ hsettled.le, rfl, hroot, ?_, ?_⟩
      · exact hsettled.abs_sub_root_le hsmall hA
      · intro hzero
        rw [hzero] at hsettled
        have hproduct := hsettled.root_mul_transpose hA
        refine ⟨hproduct, ?_⟩
        calc
          c.rank = (matrixOrder (L.map value) σ hsettled.le).rank := hsettled.rank_root.symm
          _ = (matrixOrder (L.map value) σ hsettled.le *
              (matrixOrder (L.map value) σ hsettled.le)ᵀ).rank :=
            (Matrix.rank_self_mul_transpose _).symm
          _ = (A.map value).rank := by rw [hproduct]

/-- A matrix of rank one over the real numbers themselves, whose second position is
eliminated first. -/
theorem ofSmall_root_mul_transpose_two :
    letI := exactReal 1 1
    letI := exactReal.exact 1 1
    let A : Matrix (Fin 2) (Fin 2) ℝ := !![1, 2; 2, 4]
    ∃ (c : PivotedCholesky ℝ) (B : Matrix (Fin 2) (Fin c.rank) ℝ),
      ofSmall 0 (.ofMatrix A) = .ok c ∧ c.root.Stores B ∧ B * Bᵀ = A ∧ c.rank = A.rank := by
  let := exactReal 1 1
  let := exactReal.exact 1 1
  intro A
  have hA : A.PosSemidef := by
    let v : Matrix (Fin 2) (Fin 1) ℝ := !![1; 2]
    have hproduct : A = v * vᵀ := by
      ext i j
      fin_cases i <;> fin_cases j <;> norm_num [A, v, Matrix.mul_apply]
    rw [hproduct]
    exact Matrix.posSemidef_self_mul_conjTranspose v
  have hsmall : 0 ≤ value (0 : ℝ) := le_rfl
  have hlarge : ∃ i, value (0 : ℝ) < value (A i i) := ⟨0, one_pos⟩
  obtain ⟨c, B, hc, hB, -, hexact⟩ :=
    ofSmall_root_mul_transpose (MatrixView.ofMatrix_shows A) hA hsmall hlarge
  obtain ⟨hproduct, hrank⟩ := hexact rfl
  exact ⟨c, B, hc, hB, hproduct, hrank⟩

end Decompositions

/-! ### A matrix that passes -/

/-- After its first position this matrix has nothing left on the diagonal. -/
def indefinite : Matrix (Fin 3) (Fin 3) ℝ := !![1, 0, 0; 0, 0, 1; 0, 1, 0]

theorem indefinite_isSymm : indefinite.IsSymm := by
  ext i j
  fin_cases i <;> fin_cases j <;> rfl

theorem indefinite_not_posSemidef : ¬ indefinite.PosSemidef := by
  intro h
  have hform : form indefinite ![0, 1, -1] = -2 := by
    simp [form, indefinite, dotProduct, Matrix.mulVec, Fin.sum_univ_succ]
    norm_num
  have hnonneg := (posSemidef_iff_form indefinite_isSymm).1 h ![0, 1, -1]
  rw [hform] at hnonneg
  norm_num at hnonneg

theorem indefinite_column (i : Fin 3) : indefinite i 0 = if i = 0 then 1 else 0 := by
  fin_cases i <;> rfl

theorem indefinite_diag (i : Fin 3) : indefinite i i = if i = 0 then 1 else 0 := by
  fin_cases i <;> rfl

section Elimination

variable {r : ℕ} {σ : Equiv.Perm (Fin 3)} {w l : Matrix (Fin 3) (Fin 3) ℝ}

/-- The one entry on the diagonal is the first pivot, and its column has no other entry. -/
theorem Reduces.indefinite_first (h : Reduces indefinite r σ w l) (hr : 0 < r) :
    σ 0 = 0 ∧ ∀ j, j ≠ 0 → l j 0 = 0 := by
  have hpivot := h.factor.pivot 0 hr
  have hcolumn (j : Fin 3) : indefinite (σ j) (σ 0) = l j 0 * l 0 0 := by
    have hproduct := h.factor.column_eq (j := 0) hr j
    simpa [Fin.sum_univ_three] using hproduct
  have hfirst : σ 0 = 0 := by
    by_contra hne
    have hsquare := hcolumn 0
    rw [indefinite_diag, if_neg hne] at hsquare
    exact (mul_pos hpivot hpivot).ne hsquare
  refine ⟨hfirst, fun j hj => ?_⟩
  have hother : σ j ≠ 0 := fun heq => hj (σ.injective (heq.trans hfirst.symm))
  have hproduct := hcolumn j
  rw [hfirst, indefinite_column, if_neg hother] at hproduct
  exact (mul_eq_zero.1 hproduct.symm).resolve_right hpivot.ne'

/-- There is no second pivot. -/
theorem Reduces.indefinite_le (h : Reduces indefinite r σ w l) : r ≤ 1 := by
  by_contra hr
  have hsecond : ((1 : Fin 3) : ℕ) < r := not_le.1 hr
  obtain ⟨hfirst, hbelow⟩ := h.indefinite_first (by omega)
  have hother : σ 1 ≠ 0 := fun heq => absurd (σ.injective (heq.trans hfirst.symm)) one_ne_zero
  have hsquare := h.factor.column_eq hsecond 1
  rw [Matrix.submatrix_apply, indefinite_diag, if_neg hother] at hsquare
  have hzero : l 1 1 = 0 := by simpa [Fin.sum_univ_three, hbelow] using hsquare.symm
  exact (h.factor.pivot 1 hsecond).ne' hzero

/-- What is left has no negative entry on its diagonal. -/
theorem Reduces.indefinite_diag_nonneg (h : Reduces indefinite r σ w l) {i : Fin 3}
    (hi : r ≤ (i : ℕ)) : 0 ≤ w i i := by
  have hrest := h.factor.product i i
  rw [residual_of_le w hi hi, Matrix.submatrix_apply] at hrest
  have hdiag : 0 ≤ indefinite (σ i) (σ i) := by
    rw [indefinite_diag]
    split_ifs
    · exact zero_le_one
    · exact le_rfl
  by_cases hr : r = 0
  · subst hr
    have heq : indefinite (σ i) (σ i) = w i i := by simpa using hrest
    exact heq ▸ hdiag
  · have hone : r = 1 := le_antisymm h.indefinite_le (Nat.pos_of_ne_zero hr)
    subst hone
    obtain ⟨-, hbelow⟩ := h.indefinite_first one_pos
    have hne : i ≠ 0 := by
      rintro rfl
      simp at hi
    have heq : indefinite (σ i) (σ i) = w i i := by simpa [hbelow i hne] using hrest
    exact heq ▸ hdiag

end Elimination

theorem indefinite_not_refused : ¬ Refused indefinite 0 := by
  intro h
  cases h with
  | noPivot h =>
      have hfirst := h 0
      rw [indefinite_diag, if_pos rfl] at hfirst
      exact absurd hfirst (not_le.2 one_pos)
  | negative hI i hi hneg =>
      rw [neg_zero] at hneg
      exact absurd (hI.indefinite_diag_nonneg hi) (not_le.2 hneg)

/-! ### Exact roots -/

/-- Over exact real numbers, if only what is not positive counts as small, a symmetric matrix
is refused only as not positive definite, and only if it is zero or not semidefinite. Of any
other a root is returned whose product has the diagonal of the matrix, and is the matrix if and
only if that is semidefinite. -/
theorem of_root_exact_iff_posSemidef {ρ : Type} [RealScalar ρ] [ExactReal ρ]
    {A : Matrix (Fin n) (Fin n) ρ} {a : MatrixView ρ} (ha : a.Shows A)
    (hsymm : (A.map value).IsSymm) :
    Ends (fun e => e = .notPositiveDefinite ∧ ((A.map value).PosSemidef → A.map value = 0))
      (fun c => ∃ B : Matrix (Fin n) (Fin c.rank) ρ, c.root.Stores B ∧
        (∀ i, (B.map value * (B.map value)ᵀ) i i = value (A i i)) ∧
        (B.map value * (B.map value)ᵀ = A.map value ↔ (A.map value).PosSemidef))
      (of a) := by
  have hzero : value (0 : ρ) = 0 := ExactScalar.value_zero'
  have hends := ends_ofSmall ha hsymm hzero.ge
  rw [hzero] at hends
  refine (hends.weaken fun e he => ⟨he.1, he.2.eq_zero⟩).imp ?_
  intro c hc
  obtain ⟨σ, w, L, hsettled, hroot⟩ := hc
  refine ⟨matrixOrder L σ hsettled.le, hroot, fun i => ?_, ?_⟩
  · exact (sub_eq_zero.1 (hsettled.diag_sub_root i)).symm
  · constructor
    · intro hexact
      by_contra hA
      exact mul_transpose_ne hA _ hexact
    · exact hsettled.root_mul_transpose

/-- For `indefinite` a root is returned. -/
theorem exists_root_indefinite :
    letI := exactReal 1 1
    ∃ (c : PivotedCholesky ℝ) (B : Matrix (Fin 3) (Fin c.rank) ℝ),
      of (.ofMatrix indefinite) = .ok c ∧ c.root.Stores B := by
  let := exactReal 1 1
  let := exactReal.exact 1 1
  have hsmall : 0 ≤ value (0 : ℝ) := le_rfl
  have hends := ends_ofSmall (MatrixView.ofMatrix_shows indefinite) indefinite_isSymm hsmall
  cases hresult : ofSmall 0 (MatrixView.ofMatrix indefinite) with
  | error e => exact absurd (hends.of_error hresult).2 indefinite_not_refused
  | ok c =>
      obtain ⟨σ, w, L, hsettled, hroot⟩ := hends.of_ok hresult
      exact ⟨c, _, hresult, hroot⟩

/-- The product of the root that is returned for `indefinite` has its diagonal and is another
matrix. -/
theorem of_root_exact_iff_posSemidef_indefinite :
    letI := exactReal 1 1
    letI := exactReal.exact 1 1
    ∃ (c : PivotedCholesky ℝ) (B : Matrix (Fin 3) (Fin c.rank) ℝ),
      of (.ofMatrix indefinite) = .ok c ∧ c.root.Stores B ∧
        (∀ i, (B * Bᵀ) i i = indefinite i i) ∧ B * Bᵀ ≠ indefinite := by
  let := exactReal 1 1
  let := exactReal.exact 1 1
  obtain ⟨c, _, hc, _⟩ := exists_root_indefinite
  have hends := of_root_exact_iff_posSemidef (MatrixView.ofMatrix_shows indefinite)
    indefinite_isSymm
  obtain ⟨B, hB, hdiag, hexact⟩ := hends.of_ok hc
  exact ⟨c, B, hc, hB, hdiag, fun hproduct => indefinite_not_posSemidef (hexact.1 hproduct)⟩

/-- So a symmetric matrix that is not semidefinite need not be refused, and what is returned
for it need not be a root. -/
theorem exists_no_root_of_not_posSemidef :
    letI := exactReal 1 1
    indefinite.IsSymm ∧ ¬ indefinite.PosSemidef ∧
      ∃ (c : PivotedCholesky ℝ) (B : Matrix (Fin 3) (Fin c.rank) ℝ),
        of (.ofMatrix indefinite) = .ok c ∧ c.root.Stores B ∧ B * Bᵀ ≠ indefinite := by
  let := exactReal 1 1
  obtain ⟨c, B, hc, hB⟩ := exists_root_indefinite
  exact ⟨indefinite_isSymm, indefinite_not_posSemidef, c, B, hc, hB,
    mul_transpose_ne indefinite_not_posSemidef B⟩

end

end DenseFactor.PivotedCholesky
