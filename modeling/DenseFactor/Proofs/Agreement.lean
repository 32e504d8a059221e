import Mathlib
import DenseFactor.Cholesky.Pivoted
import DenseFactor.Method
import DenseFactor.Proofs.LU.Order
import DenseFactor.Scalar.Binary

/-!
# DenseFactor.Proofs.Agreement

A matrix is read **inside its shape only**: two that agree there have the same decompositions
and the same solutions, down to the failure where there is none.

Design points:

* `v.Agrees w` says that two readable things have one shape and the same entries in it, and
  nothing of what they answer elsewhere. An entry that cannot be read counts as well.
* A matrix is read in three ways: copied in its own order, copied as its transpose, and gathered
  row by row through the pivots of an elimination. Only the last one needs an argument, as the
  rows it reads are computed.
-/

namespace DenseFactor

variable {α β ρ : Type}

namespace MatrixView

/-- The function reads a matrix inside its shape only. -/
def ReadsInside (f : MatrixView α → β) : Prop := ∀ v w : MatrixView α, v.Agrees w → f v = f w

namespace Agrees

variable {v w : MatrixView α}

theorem symm (h : v.Agrees w) : w.Agrees v := by
  obtain ⟨hrows, hcols, hentry⟩ := h
  exact ⟨hrows.symm, hcols.symm, fun i hi j hj => (hentry i (hrows ▸ hi) j (hcols ▸ hj)).symm⟩

/-- A dense copy agrees with what it was copied from. -/
theorem of_ofView {m : DenseMatrix α} (h : DenseMatrix.ofView v = .ok m) : m.view.Agrees v := by
  obtain ⟨hrows, hcols, -, hentry⟩ := DenseMatrix.tabulate_eq_ok_iff.1 h
  refine ⟨hrows, hcols, fun i hi j hj => ?_⟩
  rw [hentry i (hrows ▸ hi) j (hcols ▸ hj)]
  exact (DenseMatrix.entry_eq_storedAt hi hj).symm

/-! ### Ways to read -/

theorem ofView (h : v.Agrees w) : DenseMatrix.ofView v = DenseMatrix.ofView w := by
  obtain ⟨hrows, hcols, hentry⟩ := h
  unfold DenseMatrix.ofView
  rw [← hrows, ← hcols]
  exact DenseMatrix.tabulate_congr hentry

theorem transposed (h : v.Agrees w) : QR.Factors.transposed v = QR.Factors.transposed w := by
  obtain ⟨hrows, hcols, hentry⟩ := h
  unfold QR.Factors.transposed
  rw [← hrows, ← hcols]
  exact DenseMatrix.tabulate_congr fun i hi j hj => hentry j hj i hi

/-- The rows are gathered through a run that lists them. -/
theorem gathered {n : ℕ} (h : v.Agrees w) {pivot : Array ℕ} {τ : Equiv.Perm (Fin n)}
    (hpivot : Lists pivot τ) (hrows : v.nrows = n) :
    (DenseMatrix.tabulate n v.ncols fun i j => do v.entry (← Storage.read pivot i) j) =
      (DenseMatrix.tabulate n w.ncols fun i j => do w.entry (← Storage.read pivot i) j) := by
  obtain ⟨-, hcols, hentry⟩ := h
  rw [← hcols]
  refine DenseMatrix.tabulate_congr fun i hi j hj => ?_
  have hread : Storage.read pivot i = .ok (τ ⟨i, hi⟩ : ℕ) := hpivot.read ⟨i, hi⟩
  have hlt : (τ ⟨i, hi⟩ : ℕ) < v.nrows := hrows ▸ (τ ⟨i, hi⟩).isLt
  rw [hread]
  exact hentry _ hlt j hj

end Agrees

end MatrixView

open MatrixView (ReadsInside)
open LinearSolver (solveMatrix)

/-! ### Decompositions -/

theorem LU.ofRule_readsInside [Scalar α] (rule : PivotRule α) (threshold : Option Float) :
    ReadsInside (ofRule rule threshold) := by
  intro v w h
  unfold ofRule
  rw [h.ofView, h.1, h.2.1]

theorem QR.ofThreshold_readsInside [RealScalar ρ] [EuclideanScalar α ρ] (threshold : ρ) :
    ReadsInside (ofThreshold threshold : MatrixView α → Except Failure (QR α ρ)) := by
  intro v w h
  unfold ofThreshold
  rw [h.transposed, h.1, h.2.1]

theorem RankRevealingQR.ofThreshold_readsInside [RealScalar ρ] (threshold : ρ) :
    ReadsInside (ofThreshold threshold) := by
  intro v w h
  unfold ofThreshold
  rw [h.transposed, h.1, h.2.1]

theorem Cholesky.ofThresholds_readsInside [RealScalar ρ] (symmetry positivity : ρ) :
    ReadsInside (ofThresholds symmetry positivity) := by
  intro v w h
  unfold ofThresholds
  rw [h.ofView, h.1, h.2.1]

theorem PivotedCholesky.ofSmall_readsInside [RealScalar ρ] (small : ρ) :
    ReadsInside (ofSmall small) := by
  intro v w h
  unfold ofSmall
  rw [h.ofView, h.1, h.2.1]

theorem SVD.ofTolerance?_readsInside [RealScalar ρ] (tolerance? : Option ρ) :
    ReadsInside (ofTolerance? tolerance?) := by
  intro v w h
  unfold ofTolerance?
  rw [h.ofView, h.1, h.2.1]

/-! ### Solvers -/

/-- The right-hand side is gathered through the pivots, which are rows of it. -/
theorem LU.solver_readsInside [Scalar α] {rule : PivotRule α} {threshold : Option Float}
    {a : MatrixView α} {lu : LU α} (hlu : ofRule rule threshold a = .ok lu) :
    ReadsInside (solveMatrix lu.solver) := by
  intro v w h
  obtain ⟨τ, hτ⟩ := (ends_ofRule_orders rule threshold a).of_ok hlu
  have hpivot : Lists lu.solver.pivot τ := hτ.lists
  show lu.solver.solveMatrix v = lu.solver.solveMatrix w
  rw [lu.solver.solveMatrix_eq, lu.solver.solveMatrix_eq, hpivot.size, ← h.1]
  by_cases hrows : v.nrows = a.nrows
  · rw [if_pos hrows, if_pos hrows, h.gathered hpivot hrows]
  · rw [if_neg hrows, if_neg hrows]

theorem QR.Solver.readsInside [RealScalar ρ] [EuclideanScalar α ρ] (s : Solver α) :
    ReadsInside (solveMatrix s) := by
  intro v w h
  show s.solveMatrix v = s.solveMatrix w
  rw [s.solveMatrix_eq, s.solveMatrix_eq, h.ofView, h.1, h.2.1]

theorem RankRevealingQR.Solver.readsInside [RealScalar ρ] (s : Solver ρ) :
    ReadsInside (solveMatrix s) := by
  intro v w h
  have hinner : s.inner.solveMatrix v = s.inner.solveMatrix w := s.inner.readsInside v w h
  show s.solveMatrix v = s.solveMatrix w
  unfold Solver.solveMatrix
  rw [hinner]

theorem Cholesky.Solver.readsInside [RealScalar ρ] (s : Solver ρ) :
    ReadsInside (solveMatrix s) := by
  intro v w h
  show s.solveMatrix v = s.solveMatrix w
  rw [s.solveMatrix_eq, s.solveMatrix_eq, h.ofView, h.1]

theorem SVD.Solver.readsInside [RealScalar ρ] (s : Solver ρ) : ReadsInside (solveMatrix s) := by
  intro v w h
  show s.solveMatrix v = s.solveMatrix w
  rw [s.solveMatrix_eq, s.solveMatrix_eq, h.ofView, h.1]

/-! ### All of them -/

/-- **Only the entries of the shape matter.** Let two matrices have one shape and the same
entries in it, whatever they answer elsewhere. Every construction of a decomposition gives the
same decomposition of both, or refuses both for the same reason. Every solver answers both in
the same way when they are its right-hand sides; of the solver by elimination this holds as it
comes from a decomposition, of the others whatever they hold. -/
theorem matrices_readInside :
    (∀ {α ρ : Type} [RealScalar ρ] [EuclideanScalar α ρ] (threshold : ρ),
      ReadsInside (LU.ofThreshold threshold : MatrixView α → Except Failure (LU α))) ∧
    (∀ {α : Type} [FieldScalar α] (isZero : α → Bool) (numeric : Bool),
      ReadsInside (LU.ofPredicate isZero numeric)) ∧
    (∀ {α ρ : Type} [RealScalar ρ] [EuclideanScalar α ρ] (threshold : ρ),
      ReadsInside (QR.ofThreshold threshold : MatrixView α → Except Failure (QR α ρ))) ∧
    (∀ {ρ : Type} [RealScalar ρ] (threshold : ρ),
      ReadsInside (RankRevealingQR.ofThreshold threshold)) ∧
    (∀ {ρ : Type} [RealScalar ρ] (symmetry positivity : ρ),
      ReadsInside (Cholesky.ofThresholds symmetry positivity)) ∧
    (∀ {ρ : Type} [RealScalar ρ] (small : ρ), ReadsInside (PivotedCholesky.ofSmall small)) ∧
    (∀ {ρ : Type} [RealScalar ρ] (tolerance? : Option ρ),
      ReadsInside (SVD.ofTolerance? tolerance?)) ∧
    (∀ {α : Type} [Scalar α] (rule : LU.PivotRule α) (threshold : Option Float)
      (a : MatrixView α) (lu : LU α), LU.ofRule rule threshold a = .ok lu →
      ReadsInside (solveMatrix lu.solver)) ∧
    (∀ {α ρ : Type} [RealScalar ρ] [EuclideanScalar α ρ] (s : QR.Solver α),
      ReadsInside (solveMatrix s)) ∧
    (∀ {ρ : Type} [RealScalar ρ] (s : RankRevealingQR.Solver ρ), ReadsInside (solveMatrix s)) ∧
    (∀ {ρ : Type} [RealScalar ρ] (s : Cholesky.Solver ρ), ReadsInside (solveMatrix s)) ∧
    ∀ {ρ : Type} [RealScalar ρ] (s : SVD.Solver ρ), ReadsInside (solveMatrix s) := by
  refine ⟨?lu_threshold, ?lu_predicate, QR.ofThreshold_readsInside,
    RankRevealingQR.ofThreshold_readsInside, Cholesky.ofThresholds_readsInside,
    PivotedCholesky.ofSmall_readsInside, SVD.ofTolerance?_readsInside, ?lu_solver,
    QR.Solver.readsInside, RankRevealingQR.Solver.readsInside, Cholesky.Solver.readsInside,
    SVD.Solver.readsInside⟩
  case lu_threshold =>
    intro α ρ _ _ threshold
    exact LU.ofRule_readsInside _ _
  case lu_predicate =>
    intro α _ isZero numeric
    exact LU.ofRule_readsInside _ _
  case lu_solver =>
    intro α _ rule threshold a lu hlu
    exact LU.solver_readsInside hlu

/-- A vector of ratios and the cells it consists of, which differ outside their shape, and a
matrix of cells and its dense copy. -/
theorem matrices_readInside_scattered :
    let vector : ColumnVector (Ratio 64) := .ofArray #[Scalar.zero, Scalar.one, Scalar.zero]
    let cell : MatrixView (Ratio 64) := .scattered 3 1 [(1, 0, Scalar.one)]
    let cells : MatrixView Float := .scattered 2 2 [(0, 0, 1), (1, 1, 2)]
    cell.Agrees vector.view ∧ cell.entry 0 1 ≠ vector.view.entry 0 1 ∧
      (∃ lu, LU.ofPredicate Scalar.isZero true (.ofMatrix LU.exchanging) = .ok lu ∧
        solveMatrix lu.solver cell = solveMatrix lu.solver vector.view) ∧
      ∃ copy, DenseMatrix.ofView cells = .ok copy ∧
        SVD.ofTolerance? none cells = SVD.ofTolerance? none copy.view := by
  intro vector cell cells
  obtain ⟨-, -, -, -, -, -, hsvd, hsolver, -⟩ := matrices_readInside
  have hagrees : cell.Agrees vector.view := by
    refine ⟨rfl, rfl, fun i hi j hj => ?_⟩
    obtain rfl : j = 0 := Nat.lt_one_iff.1 hj
    have hrow : i = 0 ∨ i = 1 ∨ i = 2 := by
      have hi : i < 3 := hi
      omega
    obtain rfl | rfl | rfl := hrow
    · rfl
    · rfl
    · rfl
  have hdiffer : cell.entry 0 1 ≠ vector.view.entry 0 1 := by
    intro h
    have hzero : (Scalar.zero : Ratio 64) = Scalar.one := Except.ok.inj h
    exact absurd hzero (by decide)
  refine ⟨hagrees, hdiffer, ?_, ?_⟩
  · obtain ⟨lu, hlu, -⟩ := LU.exists_decomposition_exchanging
    exact ⟨lu, hlu, hsolver _ none _ lu hlu cell vector.view hagrees⟩
  · have hreadable : cells.Readable := fun i _ j _ => ⟨_, rfl⟩
    obtain ⟨copy, hcopy, -⟩ := Ends.never_iff.1 (DenseMatrix.ends_ofView_shape hreadable)
    exact ⟨copy, hcopy, hsvd none cells copy.view (.symm (.of_ofView hcopy))⟩

/-! ### Shortcuts -/

/-- The methods read a matrix as their decompositions do. -/
theorem methods_readInside [RealScalar ρ] [EuclideanScalar α ρ] :
    (∀ method : LU.Method,
      ReadsInside (SolverMethod.solverOf method : MatrixView α → Except Failure _)) ∧
    (∀ method : QR.Method,
      ReadsInside (SolverMethod.solverOf method : MatrixView α → Except Failure _)) ∧
    (∀ method : RankRevealingQR.Method,
      ReadsInside (SolverMethod.solverOf method : MatrixView ρ → Except Failure _)) ∧
    (∀ method : Cholesky.Method,
      ReadsInside (SolverMethod.solverOf method : MatrixView ρ → Except Failure _)) ∧
    ∀ method : SVD.Method,
      ReadsInside (SolverMethod.solverOf method : MatrixView ρ → Except Failure _) := by
  refine ⟨?lu, ?qr, ?rrqr, ?cholesky, ?svd⟩
  case lu =>
    intro method v w h
    exact congrArg (· >>= _) (LU.ofRule_readsInside _ _ v w h)
  case qr =>
    intro method v w h
    exact congrArg (· >>= _) (QR.ofThreshold_readsInside _ v w h)
  case rrqr =>
    intro method v w h
    exact congrArg (· >>= _) (RankRevealingQR.ofThreshold_readsInside _ v w h)
  case cholesky =>
    intro method v w h
    exact congrArg (· >>= _) (Cholesky.ofThresholds_readsInside _ _ v w h)
  case svd =>
    intro method v w h
    exact congrArg (· >>= _) (SVD.ofTolerance?_readsInside _ v w h)

end DenseFactor
