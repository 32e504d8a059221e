import Mathlib
import DenseFactor.Proofs.QR.Rank
import DenseFactor.Proofs.QR.Shape

/-!
# DenseFactor.Proofs.QR.FullRank

Over exact real elements the solver of the decomposition with column pivoting is
non-singular exactly for **matrices of full rank**, wide ones included.

Design points:

* Without pivoting a zero on the diagonal of `R` only says that the leading columns depend
  on each other. Here the entry dominates what stands behind it, so nothing is left from
  there on and the rank is too small (`Dominates.rank_eq_iff`).
* The inner solver answers for `A · P`. Its row `i` is the unknown that column `i` of `A · P`
  belongs to, and the rows go to these places (`ends_scatterRows`). So the answer solves for
  `A` what the inner one solves for `A · P` (`mul_submatrix_symm`).
-/

namespace DenseFactor.RankRevealingQR

open ExactScalar (value)
open QR
open scoped Matrix

variable {m n c : ℕ}

/-! ### Full rank -/

/-- The rank is full if there is no zero on the diagonal. -/
theorem Dominates.rank_eq_iff {w : Matrix (Fin n) (Fin m) ℝ} {d : ℕ → ℝ}
    (h : Dominates (reducedMatrix w d (min m n)) d (min m n)) :
    (reducedMatrix w d (min m n)).rank = min m n ↔ ∀ k : Fin (min m n), d k ≠ 0 := by
  constructor
  · intro hrank k hzero
    have hle : (reducedMatrix w d (min m n)).rank ≤ k :=
      h.rank_le fun _ i j hi _ => h.eq_zero hzero hi j
    omega
  · intro hne
    refine le_antisymm (le_min ?_ ?_) (le_rank_of_diagonal le_rfl (fun i j hj hij => ?_) ?_)
    · exact Matrix.rank_le_height _
    · exact Matrix.rank_le_width _
    · exact reducedMatrix_below w d hj hij
    · intro t ht
      rw [reducedMatrix_diag w d ht]
      exact hne t

/-- The columns of a tall matrix of full rank are independent. -/
theorem mulVec_injective_of_rank {A : Matrix (Fin m) (Fin n) ℝ} (hmn : n ≤ m)
    (h : A.rank = min m n) : Function.Injective A.mulVec := by
  rw [Matrix.mulVec_injective_iff, linearIndependent_iff_card_eq_finrank_span, Set.finrank,
    ← Matrix.rank_eq_finrank_span_cols, h, min_eq_right hmn, Fintype.card_fin]

/-! ### The order of the unknowns -/

/-- Row `i` of the inner answer is row `σ i` of the answer. -/
theorem ends_scatterRows {ρ : Type} [RealScalar ρ] {permutation : Array ℕ}
    {σ : Equiv.Perm (Fin n)} (hσ : Lists permutation σ) {y : DenseMatrix ρ}
    {Y : Matrix (Fin n) (Fin c) ρ} (hy : y.Stores Y) :
    Ends Never (·.Stores (Y.submatrix σ.symm id)) (scatterRows permutation y) := by
  unfold scatterRows
  rw [hσ.size, hy.nrows, hy.ncols]
  refine (DenseMatrix.stores_zeros n c).foldlM_updateRow σ fun i x X hX => ?_
  rw [hσ.read i, Ends.ok_bind_iff]
  refine (hy.rowSlice i).bind fun values hvalues => ?_
  exact hX.writeRow (DenseMatrix.stores_row hvalues.1 hvalues.2) (σ i)

/-- Columns and unknowns in a new order make the same product. -/
theorem mul_submatrix_symm (A : Matrix (Fin m) (Fin n) ℝ) (Y : Matrix (Fin n) (Fin c) ℝ)
    (σ : Equiv.Perm (Fin n)) : A * Y.submatrix σ.symm id = A.submatrix id σ * Y := by
  have hreordered := Matrix.submatrix_mul_equiv A (Y.submatrix σ.symm id) id σ id
  have hrows : (Y.submatrix σ.symm id).submatrix σ id = Y := by
    ext i j
    simp
  rw [hrows, Matrix.submatrix_id_id] at hreordered
  exact hreordered.symm

/-- What is orthogonal to the columns in one order is so in every order. -/
theorem transpose_mul_eq_zero {A : Matrix (Fin m) (Fin n) ℝ} {M : Matrix (Fin m) (Fin c) ℝ}
    {σ : Equiv.Perm (Fin n)} (h : (A.submatrix id σ)ᵀ * M = 0) : Aᵀ * M = 0 := by
  ext i j
  have hentry := congrFun (congrFun h (σ.symm i)) j
  rw [Matrix.mul_apply] at hentry ⊢
  simpa using hentry

/-! ### The solver -/

section Solving

variable {ρ : Type} [RealScalar ρ] [ExactReal ρ] {f : QR.Factors ρ}
  {A : Matrix (Fin m) (Fin n) ρ} {W : Matrix (Fin n) (Fin m) ρ}

/-- The answer of the solver, in the order of the columns of the matrix. -/
theorem Solver.ends_solveMatrix {s : Solver ρ} {σ : Equiv.Perm (Fin n)}
    (hσ : Lists s.permutation σ)
    (h : s.inner.factors.Represents (𝕜 := ℝ) (A.submatrix id σ) (min m n) W)
    (hsingular : s.inner.singular = false)
    (hne : ∀ k : Fin (min m n), s.inner.factors.entries k ≠ 0) {b : MatrixView ρ}
    {B : Matrix (Fin m) (Fin c) ρ} (hb : b.Shows B) :
    Ends Never (fun x => ∃ X : Matrix (Fin n) (Fin c) ρ, x.Stores X ∧
        (∀ (i : Fin n) (j : Fin c), min m n ≤ (σ.symm i : ℕ) → X i j = 0) ∧
        (n ≤ m → (A.map value)ᵀ * (A.map value * X.map value - B.map value) = 0) ∧
        (m ≤ n → A.map value * X.map value = B.map value)) (s.solveMatrix b) := by
  have hinner : s.inner = { factors := s.inner.factors, singular := false } := by
    rw [← hsingular]
  unfold Solver.solveMatrix
  rw [hinner]
  refine (h.ends_solveMatrix hne hb).bind ?_
  intro y hy
  obtain ⟨Y, hY, hzero, hresidual⟩ := hy
  refine (ends_scatterRows hσ hY).imp fun x hx => ⟨_, hx, fun i j => hzero _ j, ?_⟩
  have hproduct : A.map value * (Y.submatrix σ.symm id).map value =
      (A.submatrix id σ).map value * Y.map value := mul_submatrix_symm _ (Y.map value) σ
  rw [hproduct]
  constructor
  · intro hmn
    have hnormal := h.normal_equations hmn hresidual
    rw [Matrix.conjTranspose_eq_transpose_of_trivial] at hnormal
    exact transpose_mul_eq_zero hnormal
  · intro hmn
    exact sub_eq_zero.1 (h.eq_zero_of_reflected hmn hresidual)

end Solving

/-! ### Any matrix -/

/-- Over exact real elements, with the threshold that is used unless another one is given, a
matrix of any shape has a solver, and it is non-singular exactly if the matrix has full rank.
Then every right-hand side has an answer. Where there are at least as many rows as columns,
its residual is orthogonal to the columns, so it is the one least-squares solution. Where there
are no more rows than columns, it is a solution with zeros for every unknown that the
permutation does not list among the first ones, one for every row. -/
theorem isNonSingular_iff_rank_eq_min {ρ : Type} [RealScalar ρ] [ExactReal ρ] {m n : ℕ}
    {A : Matrix (Fin m) (Fin n) ρ} {a : MatrixView ρ} (ha : a.Shows A) :
    ∃ qr : RankRevealingQR ρ, RankRevealingQR.of a = .ok qr ∧
      (LinearSolver.isNonSingular qr.solver = true ↔ (A.map value).rank = min m n) ∧
      (LinearSolver.isNonSingular qr.solver = true →
        ∀ (c : ℕ) (B : Matrix (Fin m) (Fin c) ρ) (b : MatrixView ρ), b.Shows B →
          ∃ (x : DenseMatrix ρ) (X : Matrix (Fin n) (Fin c) ρ),
            LinearSolver.solveMatrix qr.solver b = .ok x ∧ x.Stores X ∧
            (n ≤ m → (A.map value)ᵀ * (A.map value * X.map value - B.map value) = 0 ∧
              IsLeastSquares (A.map value) (B.map value) (X.map value)) ∧
            (m ≤ n → A.map value * X.map value = B.map value ∧
              ∀ (i : Fin n) (j : Fin c), (∀ k < m, qr.permutation[k]? ≠ some (i : ℕ)) →
                X i j = 0)) := by
  obtain ⟨qr, hqr, σ, W, hσ, hW, hdominates⟩ :=
    Ends.never_iff.1 (ends_ofThreshold ha (RealScalar.ofFloat defaultThreshold))
  have hlimit : value (qr.threshold * qr.norm) = 0 := by
    have hthreshold := ((ends_ofThreshold_norm a _).of_ok hqr).1
    have hzero : value (RealScalar.ofFloat defaultThreshold : ρ) = 0 :=
      ExactReal.value_ofFloat_zero
    rw [ExactScalar.value_mul, hthreshold, hzero, zero_mul]
  have hflag : LinearSolver.isNonSingular qr.solver = true ↔
      qr.solver.inner.singular = false := Iff.of_eq (Bool.not_eq_true' _)
  have hdiagonal := hW.singular_eq_false_iff hlimit
  have hrank : (∀ k : Fin (min m n), qr.factors.entries k ≠ 0) ↔
      (A.map value).rank = min m n := by
    rw [← rank_eq_of_represents hW, hdominates.rank_eq_iff]
  refine ⟨qr, hqr, hflag.trans (hdiagonal.trans hrank), ?_⟩
  intro hsolver c B b hb
  have hsingular := hflag.1 hsolver
  have hne := hdiagonal.1 hsingular
  obtain ⟨x, hx, X, hX, hzero, hnormal, hsolution⟩ :=
    Ends.never_iff.1 (Solver.ends_solveMatrix (s := qr.solver) hσ hW hsingular hne hb)
  refine ⟨x, X, hx, hX, fun hmn => ⟨hnormal hmn, ?_⟩, fun hmn => ⟨hsolution hmn, ?_⟩⟩
  · refine isLeastSquares_of_normal (mulVec_injective_of_rank hmn (hrank.1 hne)) ?_
    rw [Matrix.conjTranspose_eq_transpose_of_trivial]
    exact hnormal hmn
  · intro i j hout
    refine hzero i j ?_
    by_contra hlt
    refine hout (σ.symm i) (by omega) ?_
    rw [← Fin.getElem?_fin, hσ.element, Equiv.apply_symm_apply]

/-- A row whose first entry is zero: the second unknown stands first in the order, and the
first one is zero. -/
theorem isNonSingular_iff_rank_eq_min_row :
    letI := exactReal 1 1
    letI := exactReal.exact 1 1
    ∃ (qr : RankRevealingQR ℝ) (x : DenseMatrix ℝ) (X : Matrix (Fin 2) (Fin 1) ℝ),
      RankRevealingQR.of (.ofMatrix (!![0, 2] : Matrix (Fin 1) (Fin 2) ℝ)) = .ok qr ∧
        LinearSolver.isNonSingular qr.solver = true ∧ qr.permutation[0]? = some 1 ∧
        LinearSolver.solveMatrix qr.solver (.ofMatrix (!![4] : Matrix (Fin 1) (Fin 1) ℝ)) = .ok x ∧
        x.Stores X ∧ X 0 0 = 0 ∧ X 1 0 = 2 := by
  let := exactReal 1 1
  let := exactReal.exact 1 1
  let A : Matrix (Fin 1) (Fin 2) ℝ := !![0, 2]
  let B : Matrix (Fin 1) (Fin 1) ℝ := !![4]
  obtain ⟨qr, hqr, hiff, hsolve⟩ := isNonSingular_iff_rank_eq_min (MatrixView.ofMatrix_shows A)
  have hrank : (A.map value).rank = min 1 2 := by
    refine le_antisymm (Matrix.rank_le_height _) ?_
    have hcolumn : ((A.map value).submatrix id ![(1 : Fin 2)]).rank = 1 := by
      refine (Matrix.rank_of_det_ne_zero ?_).trans (Fintype.card_fin 1)
      have hentry : ((A.map value).submatrix id ![(1 : Fin 2)]).det = 2 := Matrix.det_fin_one _
      rw [hentry]
      exact two_ne_zero
    exact hcolumn.ge.trans (Matrix.rank_submatrix_le _ _ _)
  have hsolver := hiff.2 hrank
  obtain ⟨x, X, hx, hX, -, hwide⟩ :=
    hsolve hsolver 1 B (.ofMatrix B) (MatrixView.ofMatrix_shows B)
  obtain ⟨hsolution, hzero⟩ := hwide (by decide)
  have hentry : 2 * X 1 0 = 4 := by
    have hproduct := congrFun (congrFun hsolution 0) 0
    rw [Matrix.mul_apply, Fin.sum_univ_two] at hproduct
    have hfirst : A.map value 0 0 = 0 := rfl
    rw [hfirst, zero_mul, zero_add] at hproduct
    exact hproduct
  have hone : X 1 0 = 2 := by linarith
  -- an unknown that the order does not list first would be zero
  have hfirst : qr.permutation[0]? = some 1 := by
    by_contra hother
    have hout : X 1 0 = 0 := hzero 1 0 fun k hk => by
      obtain rfl : k = 0 := by omega
      exact hother
    have hfalse : (2 : ℝ) = 0 := hone.symm.trans hout
    norm_num at hfalse
  refine ⟨qr, x, X, hqr, hsolver, hfirst, hx, hX, hzero 0 0 fun k hk => ?_, hone⟩
  obtain rfl : k = 0 := by omega
  rw [hfirst]
  decide

end DenseFactor.RankRevealingQR
