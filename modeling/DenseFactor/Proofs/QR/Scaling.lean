import Mathlib
import DenseFactor.Proofs.QR.FullRank
import DenseFactor.Proofs.QR.Gram

/-!
# DenseFactor.Proofs.QR.Scaling

Over exact elements the QR solvers do **not depend on the scale of the matrix**: a multiple of
it passes the same test for singularity, and its solution is divided by the factor.

Design points:

* The limit of the test is a multiple of the norm, so it grows with the matrix, and so does
  every diagonal entry up to the first zero. With a zero on the diagonal both matrices fail the
  test, whatever else stands there.
* Column pivoting compares rests, which are in proportion as long as no diagonal entry is zero.
  So two reductions side by side choose the same columns (`Reduction.Together`). After a zero
  the rests are all zero and the orders need not be compared any more.
* Both solvers answer with the only solution of the normal equations that is zero outside the
  leading columns (`IsBasicSolution`). The solution for a multiple follows from this, without a
  second look at what the solver does.
-/

namespace DenseFactor

open ExactScalar (value)
open scoped Matrix

noncomputable section

variable {α ρ 𝕜 S : Type} [RCLike 𝕜] {m n q : ℕ} {c : 𝕜}

/-! ### The solution with zeros outside the leading columns -/

/-- The residual is orthogonal to the columns, and only the unknowns of the columns that come
first in the order `σ` may be other than zero. -/
structure IsBasicSolution (σ : Equiv.Perm (Fin n)) (A : Matrix (Fin m) (Fin n) 𝕜)
    (B : Matrix (Fin m) (Fin q) 𝕜) (X : Matrix (Fin n) (Fin q) 𝕜) : Prop where
  zero (i : Fin n) (j : Fin q) (hi : min m n ≤ (σ.symm i : ℕ)) : X i j = 0
  normal : Aᴴ * (A * X - B) = 0

namespace IsBasicSolution

variable {σ : Equiv.Perm (Fin n)} {A : Matrix (Fin m) (Fin n) 𝕜} {B : Matrix (Fin m) (Fin q) 𝕜}
  {X Y : Matrix (Fin n) (Fin q) 𝕜}

theorem smul (h : IsBasicSolution σ A B X) (hc : c ≠ 0) :
    IsBasicSolution σ (c • A) B (c⁻¹ • X) where
  zero i j hi := by rw [Matrix.smul_apply, h.zero i j hi, smul_zero]
  normal := by
    rw [Matrix.smul_mul, Matrix.mul_smul, smul_smul, mul_inv_cancel₀ hc, one_smul,
      Matrix.conjTranspose_smul, Matrix.smul_mul, h.normal, smul_zero]

/-- Two solutions have the same image. -/
theorem mul_sub_eq_zero (h : IsBasicSolution σ A B X) (h' : IsBasicSolution σ A B Y) :
    A * (X - Y) = 0 := by
  have hnormal : Aᴴ * A * (X - Y) = Aᴴ * (A * X - B) - Aᴴ * (A * Y - B) := by
    simp only [Matrix.mul_sub, Matrix.mul_assoc]
    abel
  rw [h.normal, h'.normal, sub_zero] at hnormal
  open scoped ComplexOrder in
  exact (Matrix.conjTranspose_mul_self_mul_eq_zero _ _).1 hnormal

/-- If the leading columns are independent, there is one solution only. -/
theorem unique (hA : LinearIndependent 𝕜 fun k : Fin (min m n) => A.col (σ (QR.asCol k)))
    (h : IsBasicSolution σ A B X) (h' : IsBasicSolution σ A B Y) : X = Y := by
  -- in the order `σ` the unknowns past the leading columns are zero
  have hzero (i : Fin n) (j : Fin q) (hi : min m n ≤ (i : ℕ)) :
      (X - Y).submatrix σ id i j = 0 := by
    have hplace : min m n ≤ (σ.symm (σ i) : ℕ) := by rwa [Equiv.symm_apply_apply]
    rw [Matrix.submatrix_apply, id, Matrix.sub_apply, h.zero _ _ hplace, h'.zero _ _ hplace,
      sub_zero]
  have hordered : A.submatrix id σ * (X - Y).submatrix σ id = 0 := by
    rw [Matrix.submatrix_mul_equiv, h.mul_sub_eq_zero h']
    rfl
  rw [QR.mul_eq_leadingColumns_mul hzero] at hordered
  have hinjective : Function.Injective (QR.leadingColumns (A.submatrix id σ)).mulVec :=
    Matrix.mulVec_injective_iff.2 hA
  ext i j
  by_cases hi : (σ.symm i : ℕ) < min m n
  · by_contra hne
    have hentry : (X - Y) (σ (σ.symm i)) j ≠ 0 := by
      rw [Equiv.apply_symm_apply]
      exact sub_ne_zero.2 hne
    have hpos := columnSquare_mul_pos hinjective (j := j)
      (Z := ((X - Y).submatrix σ id).submatrix (QR.asCol (m := m)) id)
      ⟨⟨σ.symm i, hi⟩, hentry⟩
    rw [hordered] at hpos
    simp [columnSquare] at hpos
  · rw [h.zero i j (not_lt.1 hi), h'.zero i j (not_lt.1 hi)]

end IsBasicSolution

/-! ### Solvers of multiples -/

section Solvers

variable [Scalar α] [ExactScalar α 𝕜] [LinearSolver S α]

/-- The solver answers every right-hand side with the one basic solution. -/
structure AnswersBasic (s : S) (σ : Equiv.Perm (Fin n)) (A : Matrix (Fin m) (Fin n) 𝕜) :
    Prop where
  independent : LinearIndependent 𝕜 fun k : Fin (min m n) => A.col (σ (QR.asCol k))
  answers {q : ℕ} {B : Matrix (Fin m) (Fin q) α} {b : MatrixView α} (hb : b.Shows B) :
    Ends Never (fun x => ∃ X : Matrix (Fin n) (Fin q) α, x.Stores X ∧
      IsBasicSolution σ A (B.map value) (X.map value)) (LinearSolver.solveMatrix s b)

/-- The second solver is that of the first one's `m x n` matrix times `c`: it takes the matrix
if the first does, and its solution is that of the first divided by `c`. -/
structure SolvesMultiple (m n : ℕ) (c : 𝕜) (s s' : S) : Prop where
  isNonSingular : LinearSolver.isNonSingular s' = LinearSolver.isNonSingular s
  solveMatrix (hs : LinearSolver.isNonSingular s = true) {q : ℕ} {B : Matrix (Fin m) (Fin q) α}
    {b : MatrixView α} (hb : b.Shows B) :
    ∃ (x x' : DenseMatrix α) (X X' : Matrix (Fin n) (Fin q) α),
      (LinearSolver.solveMatrix s b = .ok x ∧ x.Stores X) ∧
        (LinearSolver.solveMatrix s' b = .ok x' ∧ x'.Stores X') ∧
        X'.map value = c⁻¹ • X.map value

theorem SolvesMultiple.of_answersBasic {s s' : S} {A : Matrix (Fin m) (Fin n) 𝕜} (hc : c ≠ 0)
    (hflag : LinearSolver.isNonSingular s' = true ↔ LinearSolver.isNonSingular s = true)
    (h : LinearSolver.isNonSingular s = true →
      ∃ σ, AnswersBasic s σ A ∧ AnswersBasic s' σ (c • A)) :
    SolvesMultiple m n c s s' where
  isNonSingular := Bool.eq_iff_iff.2 hflag
  solveMatrix hs _ _ _ hb := by
    obtain ⟨σ, hbasic, hbasic'⟩ := h hs
    obtain ⟨x, hx, X, hX, hsolution⟩ := Ends.never_iff.1 (hbasic.answers hb)
    obtain ⟨x', hx', X', hX', hsolution'⟩ := Ends.never_iff.1 (hbasic'.answers hb)
    exact ⟨x, x', X, X', ⟨hx, hX⟩, ⟨hx', hX'⟩,
      hsolution'.unique hbasic'.independent (hsolution.smul hc)⟩

end Solvers

/-! ### The test -/

namespace QR

variable [RealScalar ρ] [ExactReal ρ] [EuclideanScalar α ρ] [ExactEuclidean α ρ 𝕜]
  {f f' : Factors α} {A A' : Matrix (Fin m) (Fin n) α} {W W' : Matrix (Fin n) (Fin m) α}
  {a a' : MatrixView α} {limit limit' : ρ}

/-- The limits of the test are in proportion. -/
theorem Factors.limit_smul (ha : a.Shows A) (ha' : a'.Shows A')
    (hscale : A'.map value = c • A.map value) {threshold norm norm' : ρ}
    (hthreshold : 0 ≤ value threshold)
    (hnorm : ∃ work, Factors.transposed a = .ok work ∧ norm = work.frobeniusNorm)
    (hnorm' : ∃ work, Factors.transposed a' = .ok work ∧ norm' = work.frobeniusNorm) :
    0 ≤ value (threshold * norm) ∧ 0 ≤ value (threshold * norm') ∧
      value (threshold * norm') = ‖c‖ * value (threshold * norm) := by
  obtain ⟨work, hwork, rfl⟩ := hnorm
  obtain ⟨work', hwork', rfl⟩ := hnorm'
  have hstores := (Factors.ends_transposed (E := Never) ha).of_ok hwork
  have hstores' := (Factors.ends_transposed (E := Never) ha').of_ok hwork'
  rw [ExactScalar.value_mul, ExactScalar.value_mul]
  refine ⟨mul_nonneg hthreshold work.frobeniusNorm_nonneg,
    mul_nonneg hthreshold work'.frobeniusNorm_nonneg, ?_⟩
  rw [hstores.frobeniusNorm_smul hstores' (congrArg Matrix.transpose hscale)]
  exact mul_left_comm _ _ _

/-- A diagonal entry above a limit is not zero. -/
theorem Factors.Represents.entries_ne_zero (h : f.Represents A (min m n) W)
    (hlimit : 0 ≤ value limit) (hs : (Solver.of f limit).singular = false) (k : Fin (min m n)) :
    f.entries k ≠ 0 :=
  norm_pos_iff.1 (hlimit.trans_lt ((h.singular_eq_false_iff_lt limit).1 hs k))

/-- With a limit in proportion to the diagonal entries the test answers the same. -/
theorem Factors.Represents.singular_eq_false_smul (h : f.Represents A (min m n) W)
    (h' : f'.Represents A' (min m n) W') (hc : c ≠ 0) (hlimit : 0 ≤ value limit)
    (hlimit' : 0 ≤ value limit') (hproportion : value limit' = ‖c‖ * value limit)
    (hnorm : (∀ k : Fin (min m n), f.entries k ≠ 0) →
      ∀ k : Fin (min m n), ‖f'.entries k‖ = ‖c‖ * ‖f.entries k‖)
    (hne : (∀ k : Fin (min m n), f'.entries k ≠ 0) → ∀ k : Fin (min m n), f.entries k ≠ 0) :
    (Solver.of f' limit').singular = false ↔ (Solver.of f limit).singular = false := by
  have hpos : 0 < ‖c‖ := norm_pos_iff.2 hc
  constructor
  · intro hs'
    have hentries := hnorm (hne (h'.entries_ne_zero hlimit' hs'))
    refine (h.singular_eq_false_iff_lt limit).2 fun k => ?_
    have hk := (h'.singular_eq_false_iff_lt limit').1 hs' k
    rw [hproportion, hentries] at hk
    exact lt_of_mul_lt_mul_left hk hpos.le
  · intro hs
    refine (h'.singular_eq_false_iff_lt limit').2 fun k => ?_
    rw [hproportion, hnorm (h.entries_ne_zero hlimit hs)]
    exact mul_lt_mul_of_pos_left ((h.singular_eq_false_iff_lt limit).1 hs k) hpos

/-- What a solver answers that takes its matrix. -/
theorem Solver.answersBasic {s : Solver α} (h : s.factors.Represents A (min m n) W)
    (hsingular : s.singular = false) (hne : ∀ k : Fin (min m n), s.factors.entries k ≠ 0) :
    AnswersBasic s 1 (A.map value) := by
  obtain ⟨f, singular⟩ := s
  obtain rfl : singular = false := hsingular
  refine ⟨h.linearIndependent_iff.2 hne, fun hb => ?_⟩
  refine (h.ends_solveMatrix hne hb).imp ?_
  rintro x ⟨X, hX, hzero, hresidual⟩
  refine ⟨X, hX, fun i j hi => ?_, ?_⟩
  · rw [Matrix.map_apply, hzero i j hi, ExactScalar.value_zero']
  · rcases le_total n m with hmn | hmn
    · exact h.normal_equations hmn hresidual
    · rw [h.eq_zero_of_reflected hmn hresidual, Matrix.mul_zero]

/-- The solvers of a matrix and of a multiple. -/
theorem ofThreshold_smul (ha : a.Shows A) (ha' : a'.Shows A')
    (hscale : A'.map value = c • A.map value) (hc : c ≠ 0) {threshold : ρ}
    (hthreshold : 0 ≤ value threshold) :
    ∃ qr qr' : QR α ρ, ofThreshold threshold a = .ok qr ∧ ofThreshold threshold a' = .ok qr' ∧
      SolvesMultiple m n c qr.solver qr'.solver := by
  obtain ⟨qr, hqr, W, hW⟩ := Ends.never_iff.1 (ends_ofThreshold ha threshold)
  obtain ⟨qr', hqr', W', hW'⟩ := Ends.never_iff.1 (ends_ofThreshold ha' threshold)
  obtain ⟨ht, hnorm⟩ := (ends_ofThreshold_norm a threshold).of_ok hqr
  obtain ⟨ht', hnorm'⟩ := (ends_ofThreshold_norm a' threshold).of_ok hqr'
  obtain ⟨hlimit, hlimit', hproportion⟩ :=
    Factors.limit_smul ha ha' hscale hthreshold hnorm hnorm'
  have hsolver : qr.solver = .of qr.factors (threshold * qr.norm) := by rw [solver, ht]
  have hsolver' : qr'.solver = .of qr'.factors (threshold * qr'.norm) := by rw [solver, ht']
  -- the first matrix is a multiple of the second, so neither diagonal has the only zero
  have hback : A.map value = c⁻¹ • A'.map value := by rw [hscale, inv_smul_smul₀ hc]
  have hnonzero (h : ∀ k : Fin (min m n), qr'.factors.entries k ≠ 0) (k : Fin (min m n)) :
      qr.factors.entries k ≠ 0 := by
    rw [← norm_ne_zero_iff, hW'.norm_entries_smul hW hback (inv_ne_zero hc) (fun t _ => h t) k.isLt]
    exact mul_ne_zero (norm_ne_zero_iff.2 (inv_ne_zero hc)) (norm_ne_zero_iff.2 (h k))
  have htest := hW.singular_eq_false_smul hW' hc hlimit hlimit' hproportion
    (fun h k => hW.norm_entries_smul hW' hscale hc (fun t _ => h t) k.isLt) hnonzero
  have hflag (s : Solver α) : LinearSolver.isNonSingular s = true ↔ s.singular = false :=
    Iff.of_eq (Bool.not_eq_true' _)
  refine ⟨qr, qr', hqr, hqr', ?_⟩
  rw [hsolver, hsolver']
  refine .of_answersBasic (A := A.map value) hc ?_ fun hs => ⟨1, ?_, ?_⟩
  · rw [hflag, hflag, htest]
  · have hsingular := (hflag _).1 hs
    exact Solver.answersBasic hW hsingular (hW.entries_ne_zero hlimit hsingular)
  · have hsingular' := htest.2 ((hflag _).1 hs)
    rw [← hscale]
    exact Solver.answersBasic hW' hsingular' (hW'.entries_ne_zero hlimit' hsingular')

/-- One column that is not zero passes every threshold below one. -/
theorem singular_eq_false_of_column {A : Matrix (Fin m) (Fin 1) α} {a : MatrixView α}
    (ha : a.Shows A) (hA : ∃ i, value (A i 0) ≠ 0) {threshold : ρ}
    (hthreshold : value threshold < 1) {qr : QR α ρ} (hqr : ofThreshold threshold a = .ok qr) :
    qr.solver.singular = false := by
  obtain ⟨W, hW⟩ := (ends_ofThreshold (E := Never) ha threshold).of_ok hqr
  obtain ⟨ht, work, hwork, hnorm⟩ := (ends_ofThreshold_norm a threshold).of_ok hqr
  have hstores := (Factors.ends_transposed (E := Never) ha).of_ok hwork
  have hpos : 0 < value qr.norm := by
    rw [hnorm]
    refine lt_of_le_of_ne work.frobeniusNorm_nonneg fun hzero => ?_
    obtain ⟨i, hi⟩ := hA
    exact hi (hstores.frobeniusNorm_eq_zero.1 hzero.symm 0 i)
  refine (hW.singular_eq_false_iff_lt _).2 fun k => ?_
  have hk : (k : ℕ) = 0 := by omega
  have hcol : (asCol k : Fin 1) = 0 := Subsingleton.elim _ _
  have hlength : ‖qr.factors.entries k‖ = value qr.norm := by
    refine (sq_eq_sq₀ (norm_nonneg _) hpos.le).1 ?_
    rw [hk, hW.sq_norm_first (hk ▸ k.isLt) hk, hcol, hnorm, hstores.sq_frobeniusNorm,
      Fin.sum_univ_one]
    rfl
  rw [ExactScalar.value_mul, ht, hlength]
  exact mul_lt_of_lt_one_left hpos hthreshold

end QR

/-! ### Column pivoting -/

namespace RankRevealingQR

open QR

variable [RealScalar ρ] [ExactReal ρ] {A A' : Matrix (Fin m) (Fin n) ρ} {a a' : MatrixView ρ}
  {c : ℝ}

/-- Two reductions after `k` steps. The columns stand in the same order, unless there is a zero
on the diagonal. -/
def Reduction.Together (s s' : Reduction ρ) (A A' : Matrix (Fin m) (Fin n) ρ) (k : ℕ) : Prop :=
  ∃ σ σ' W W', s.Holds A k σ W ∧ s'.Holds A' k σ' W' ∧
    ((∀ t : Fin (min m n), (t : ℕ) < k → s.factors.entries (𝕜 := ℝ) t ≠ 0) → σ' = σ)

section Together

variable {s s' : Reduction ρ} {k : Fin (min m n)} (hscale : A'.map value = c • A.map value)

include hscale

theorem submatrix_smul (σ : Equiv.Perm (Fin n)) :
    (A'.submatrix id σ).map value = c • (A.submatrix id σ).map value :=
  congrArg (fun M : Matrix (Fin m) (Fin n) ℝ => M.submatrix id σ) hscale

/-- Reductions of matrices in proportion choose the same column. -/
theorem Reduction.Holds.leads_unique {σ : Equiv.Perm (Fin n)} {W W' : Matrix (Fin n) (Fin m) ρ}
    (h : s.Holds A k σ W) (h' : s'.Holds A' k σ W') (hc : c ≠ 0)
    (hne : ∀ t : Fin (min m n), t < k → s.factors.entries (𝕜 := ℝ) t ≠ 0) {b b' : Fin n}
    (hb : Leads (tailSquare (W.map value)ᵀ k) k b)
    (hb' : Leads (tailSquare (W'.map value)ᵀ k) k b') : b' = b := by
  have htail := h.factors.tailGram_smul h'.factors (submatrix_smul hscale σ) hc hne le_rfl
    k.isLt.le
  refine hb.unique (mul_self_pos.2 hc) (fun j hj => ?_) hb'
  have hentry := congrFun (congrFun htail j) j
  rwa [Matrix.smul_apply, smul_eq_mul, tailGram_self, tailGram_self, tailSquare_unfinished _ _ hj,
    tailSquare_unfinished _ _ hj] at hentry

theorem Reduction.Together.step (h : s.Together s' A A' k) (hc : c ≠ 0) :
    ∃ r r', s.step (k : ℕ) = .ok r ∧ s'.step (k : ℕ) = .ok r' ∧ r.Together r' A A' (k + 1) := by
  obtain ⟨σ, σ', W, W', hs, hs', horder⟩ := h
  obtain ⟨r, hr, b, V, hb, hV, hkept⟩ := Ends.never_iff.1 hs.step
  obtain ⟨r', hr', b', V', hb', hV', -⟩ := Ends.never_iff.1 hs'.step
  refine ⟨r, r', hr, hr', _, _, V, V', hV, hV', fun hne => ?_⟩
  have hbefore (t : Fin (min m n)) (ht : t < k) : s.factors.entries (𝕜 := ℝ) t ≠ 0 := by
    rw [← hkept t ht]
    exact hne t (Nat.lt_succ_of_lt ht)
  obtain rfl := horder hbefore
  rw [hs.leads_unique hscale hs' hc hbefore hb hb']

/-- Two decompositions side by side. -/
theorem ofThreshold_together (ha : a.Shows A) (ha' : a'.Shows A') (hc : c ≠ 0) (threshold : ρ) :
    ∃ qr qr', ofThreshold threshold a = .ok qr ∧ ofThreshold threshold a' = .ok qr' ∧
      Reduction.Together ⟨qr.factors, qr.permutation⟩ ⟨qr'.factors, qr'.permutation⟩ A A'
        (min m n) := by
  obtain ⟨work, hwork, hW⟩ := Ends.never_iff.1 (Factors.ends_transposed ha)
  obtain ⟨work', hwork', hW'⟩ := Ends.never_iff.1 (Factors.ends_transposed ha')
  obtain ⟨r, r', hr, hr', htogether⟩ := foldlM_positions_pair
    (I := fun k (s s' : Reduction ρ) => s.Together s' A A' k)
    ⟨1, 1, _, _, Reduction.holds_start hW, Reduction.holds_start hW', fun _ => rfl⟩
    fun k s s' hk hs => Reduction.Together.step (k := ⟨k, hk⟩) hscale hs hc
  refine ⟨⟨r.factors, r.order, threshold, work.frobeniusNorm⟩,
    ⟨r'.factors, r'.order, threshold, work'.frobeniusNorm⟩, ?_, ?_, htogether⟩
  · unfold ofThreshold
    rw [ha.nrows, ha.ncols, hwork]
    change ((positions 0 (min m n)).foldlM Reduction.step _ >>= _) = _
    rw [hr]
    rfl
  · unfold ofThreshold
    rw [ha'.nrows, ha'.ncols, hwork']
    change ((positions 0 (min m n)).foldlM Reduction.step _ >>= _) = _
    rw [hr']
    rfl

end Together

/-! ### The solver with column pivoting -/

/-- A diagonal without zero is one of a matrix of full rank. -/
theorem Reduction.Holds.rank_eq_iff {s : Reduction ρ} {σ : Equiv.Perm (Fin n)}
    {W : Matrix (Fin n) (Fin m) ρ} (h : s.Holds A (min m n) σ W) :
    (A.map value).rank = min m n ↔
      ∀ k : Fin (min m n), s.factors.entries (𝕜 := ℝ) k ≠ 0 := by
  rw [← rank_eq_of_represents h.factors, h.dominates.rank_eq_iff]

/-- What a solver answers that takes its matrix. -/
theorem Solver.answersBasic {s : Solver ρ} {σ : Equiv.Perm (Fin n)}
    {W : Matrix (Fin n) (Fin m) ρ} (hσ : Lists s.permutation σ)
    (h : s.inner.factors.Represents (𝕜 := ℝ) (A.submatrix id σ) (min m n) W)
    (hsingular : s.inner.singular = false)
    (hne : ∀ k : Fin (min m n), s.inner.factors.entries (𝕜 := ℝ) k ≠ 0) :
    AnswersBasic s σ (A.map value) := by
  refine ⟨h.linearIndependent_iff.2 hne, fun hb => ?_⟩
  refine (Solver.ends_solveMatrix hσ h hsingular hne hb).imp ?_
  rintro x ⟨X, hX, hzero, hnormal, hsolution⟩
  refine ⟨X, hX, fun i j hi => ?_, ?_⟩
  · rw [Matrix.map_apply, hzero i j hi, ExactScalar.value_zero']
  · rw [Matrix.conjTranspose_eq_transpose_of_trivial]
    rcases le_total n m with hmn | hmn
    · exact hnormal hmn
    · rw [hsolution hmn, sub_self, Matrix.mul_zero]

/-- The solvers of a matrix and of a multiple. -/
theorem ofThreshold_smul (ha : a.Shows A) (ha' : a'.Shows A')
    (hscale : A'.map value = c • A.map value) (hc : c ≠ 0) {threshold : ρ}
    (hthreshold : 0 ≤ value threshold) :
    ∃ qr qr', ofThreshold threshold a = .ok qr ∧ ofThreshold threshold a' = .ok qr' ∧
      SolvesMultiple m n c qr.solver qr'.solver := by
  obtain ⟨qr, qr', hqr, hqr', σ, σ', W, W', hs, hs', horder⟩ :=
    ofThreshold_together hscale ha ha' hc threshold
  obtain ⟨ht, hnorm⟩ := (ends_ofThreshold_norm a threshold).of_ok hqr
  obtain ⟨ht', hnorm'⟩ := (ends_ofThreshold_norm a' threshold).of_ok hqr'
  obtain ⟨hlimit, hlimit', hproportion⟩ :=
    Factors.limit_smul ha ha' hscale hthreshold hnorm hnorm'
  have hsolver : qr.solver = ⟨.of qr.factors (threshold * qr.norm), qr.permutation⟩ := by
    rw [solver, ht]
  have hsolver' : qr'.solver = ⟨.of qr'.factors (threshold * qr'.norm), qr'.permutation⟩ := by
    rw [solver, ht']
  -- with a zero on the diagonal the orders may differ, but the rank does not depend on them
  have hrank : (A'.map value).rank = (A.map value).rank := by
    rw [hscale, Matrix.rank_smul_of_mem_nonZeroDivisors _ (mem_nonZeroDivisors_of_ne_zero hc)]
  have hnonzero (h : ∀ k : Fin (min m n), qr'.factors.entries (𝕜 := ℝ) k ≠ 0) :
      ∀ k : Fin (min m n), qr.factors.entries (𝕜 := ℝ) k ≠ 0 :=
    hs.rank_eq_iff.1 (hrank ▸ hs'.rank_eq_iff.2 h)
  have htest := hs.factors.singular_eq_false_smul hs'.factors hc hlimit hlimit' hproportion
    (fun h k => by
      obtain rfl := horder fun t _ => h t
      exact hs.factors.norm_entries_smul hs'.factors (submatrix_smul hscale σ') hc
        (fun t _ => h t) k.isLt) hnonzero
  have hflag (s : Solver ρ) : LinearSolver.isNonSingular s = true ↔ s.inner.singular = false :=
    Iff.of_eq (Bool.not_eq_true' _)
  refine ⟨qr, qr', hqr, hqr', ?_⟩
  rw [hsolver, hsolver']
  refine .of_answersBasic (A := A.map value) hc ?_ fun hsolves => ⟨σ, ?_, ?_⟩
  · rw [hflag, hflag, htest]
  · have hsingular := (hflag _).1 hsolves
    exact Solver.answersBasic hs.order hs.factors hsingular
      (hs.factors.entries_ne_zero hlimit hsingular)
  · have hsingular := (hflag _).1 hsolves
    have hsingular' := htest.2 hsingular
    obtain rfl := horder fun t _ => hs.factors.entries_ne_zero hlimit hsingular t
    rw [← hscale]
    exact Solver.answersBasic hs'.order hs'.factors hsingular'
      (hs'.factors.entries_ne_zero hlimit' hsingular')

end RankRevealingQR

end

/-- **The QR solvers do not depend on the scale of the matrix.** Over exact real or complex
elements, with any threshold that is not negative, every matrix `A` of any shape and rank and
every multiple `c · A` with `c ≠ 0` are decomposed, and the two solvers give the same answer to
the question whether they are non-singular. If so, both solve for every right-hand side with the
rows of `A`, and the solution for `c · A` is that for `A` divided by `c`. With column pivoting
the same holds over the reals. -/
theorem solvers_of_multiple {α ρ 𝕜 : Type} [RealScalar ρ] [ExactReal ρ] [EuclideanScalar α ρ]
    [RCLike 𝕜] [ExactEuclidean α ρ 𝕜] {m n : ℕ} {threshold : ρ} (hthreshold : 0 ≤ value threshold) :
    (∀ {A A' : Matrix (Fin m) (Fin n) α} {a a' : MatrixView α} {c : 𝕜}, a.Shows A → a'.Shows A' →
      A'.map value = c • A.map value → c ≠ 0 →
        ∃ qr qr' : QR α ρ,
          QR.ofThreshold threshold a = .ok qr ∧ QR.ofThreshold threshold a' = .ok qr' ∧
            SolvesMultiple m n c qr.solver qr'.solver) ∧
    ∀ {A A' : Matrix (Fin m) (Fin n) ρ} {a a' : MatrixView ρ} {c : ℝ}, a.Shows A → a'.Shows A' →
      A'.map value = c • A.map value → c ≠ 0 →
        ∃ qr qr' : RankRevealingQR ρ,
          RankRevealingQR.ofThreshold threshold a = .ok qr ∧
            RankRevealingQR.ofThreshold threshold a' = .ok qr' ∧
            SolvesMultiple m n c qr.solver qr'.solver := by
  constructor
  · intro A A' a a' c ha ha' hscale hc
    exact QR.ofThreshold_smul ha ha' hscale hc hthreshold
  · intro A A' a a' c ha ha' hscale hc
    exact RankRevealingQR.ofThreshold_smul ha ha' hscale hc hthreshold

/-- A complex column, turned and doubled, with a threshold that it passes, and a row whose second
entry is the larger one. -/
theorem solvers_of_multiple_turned_and_row :
    letI := exactReal 1 1
    letI := exactReal.exact 1 1
    let A : Matrix (Fin 2) (Fin 1) (Cartesian ℝ) := !![⟨0, 0⟩; ⟨0, 1⟩]
    let A' : Matrix (Fin 2) (Fin 1) (Cartesian ℝ) := !![⟨0, 0⟩; ⟨-2, 0⟩]
    let B : Matrix (Fin 2) (Fin 1) (Cartesian ℝ) := !![⟨1, 0⟩; ⟨0, 2⟩]
    (∃ (qr qr' : QR (Cartesian ℝ) ℝ) (x x' : DenseMatrix (Cartesian ℝ))
        (X X' : Matrix (Fin 1) (Fin 1) (Cartesian ℝ)),
      (QR.ofThreshold 2⁻¹ (.ofMatrix A) = .ok qr ∧
        QR.ofThreshold 2⁻¹ (.ofMatrix A') = .ok qr') ∧
        LinearSolver.isNonSingular qr.solver = true ∧
        LinearSolver.isNonSingular qr'.solver = true ∧
        (LinearSolver.solveMatrix qr.solver (.ofMatrix B) = .ok x ∧ x.Stores X) ∧
        (LinearSolver.solveMatrix qr'.solver (.ofMatrix B) = .ok x' ∧ x'.Stores X') ∧
        X'.map Cartesian.toComplex = (2 * Complex.I)⁻¹ • X.map Cartesian.toComplex) ∧
    ∃ qr qr' : RankRevealingQR ℝ,
      RankRevealingQR.ofThreshold 0 (.ofMatrix (!![0, 2] : Matrix (Fin 1) (Fin 2) ℝ)) = .ok qr ∧
        RankRevealingQR.ofThreshold 0 (.ofMatrix (!![0, -6] : Matrix (Fin 1) (Fin 2) ℝ)) =
          .ok qr' ∧
        SolvesMultiple 1 2 (-3 : ℝ) qr.solver qr'.solver := by
  let := exactReal 1 1
  let := exactReal.exact 1 1
  intro A A' B
  have hA₀ : A.map value 0 0 = 0 := Complex.ext rfl rfl
  have hA₁ : A.map value 1 0 = Complex.I := Complex.ext rfl rfl
  constructor
  · have hscale : A'.map value = (2 * Complex.I) • A.map value := by
      have hA'₀ : A'.map value 0 0 = 0 := Complex.ext rfl rfl
      have hA'₁ : A'.map value 1 0 = -2 := by
        have hre : (-2 : ℂ).re = -2 := by simp
        have him : (-2 : ℂ).im = 0 := by simp
        exact Complex.ext hre.symm him.symm
      ext i j
      fin_cases j
      fin_cases i
      · change A'.map value 0 0 = 2 * Complex.I * A.map value 0 0
        rw [hA'₀, hA₀, mul_zero]
      · change A'.map value 1 0 = 2 * Complex.I * A.map value 1 0
        rw [hA'₁, hA₁]
        linear_combination -2 * Complex.I_mul_I
    have hthreshold : 0 ≤ value (2⁻¹ : ℝ) := inv_nonneg.2 zero_le_two
    have hfactor : 2 * Complex.I ≠ 0 := mul_ne_zero two_ne_zero Complex.I_ne_zero
    obtain ⟨qr, qr', hqr, hqr', hsolves⟩ := (solvers_of_multiple hthreshold).1
      (MatrixView.ofMatrix_shows A) (MatrixView.ofMatrix_shows A') hscale hfactor
    have hnonzero : value (A 1 0) ≠ 0 := by
      change A.map value 1 0 ≠ 0
      rw [hA₁]
      exact Complex.I_ne_zero
    have hregular : LinearSolver.isNonSingular qr.solver = true :=
      (Bool.not_eq_true' _).mpr <| QR.singular_eq_false_of_column (MatrixView.ofMatrix_shows A)
        ⟨1, hnonzero⟩ (inv_lt_one_of_one_lt₀ (one_lt_two : (1 : ℝ) < 2)) hqr
    obtain ⟨x, x', X, X', hx, hx', hX⟩ :=
      hsolves.solveMatrix hregular (MatrixView.ofMatrix_shows B)
    exact ⟨qr, qr', x, x', X, X', ⟨hqr, hqr'⟩, hregular, hsolves.isNonSingular.trans hregular, hx,
      hx', hX⟩
  · have hscale : (!![0, -6] : Matrix (Fin 1) (Fin 2) ℝ).map value =
        (-3 : ℝ) • (!![0, 2] : Matrix (Fin 1) (Fin 2) ℝ).map value := by
      ext i j
      fin_cases i
      fin_cases j
      · change (0 : ℝ) = -3 * 0
        norm_num
      · change (-6 : ℝ) = -3 * 2
        norm_num
    have hthreshold : 0 ≤ value (0 : ℝ) := le_rfl
    exact (solvers_of_multiple (α := ℝ) hthreshold).2 (MatrixView.ofMatrix_shows _)
      (MatrixView.ofMatrix_shows _) hscale (by norm_num)

end DenseFactor
