import Mathlib
import DenseFactor.Proofs.Columns
import DenseFactor.Proofs.LU.Factorization
import DenseFactor.Proofs.Solver.Basic

/-!
# DenseFactor.Proofs.Solver.Columns

Many right-hand sides solved at once are solved **each for itself**.

Design points:

* Every solver works on all columns in one buffer. Followed on one column, each of its
  passes does to that column what it does to it inside the buffer, because the entry it
  computes at `(i, j)` reads column `j` and the factors, and nothing else.
* The argument uses no law of arithmetic. It holds for rounded numbers, where another
  order of operations would give other bits, and also where some operations fail: then
  only the columns of an answer that exists are spoken of.
* `SolvesByColumns` also says that the column can be read and that the solver accepts it.
  Of an LU solver this needs that its pivots lie in range, which every construction
  ensures. The other solvers have the property whatever they consist of.
-/

namespace DenseFactor

namespace LinearSolver

variable {σ α : Type} [LinearSolver σ α]

/-- Where the solver has an answer for all columns, it has one for each of them, and that
is the column of the answer. -/
def SolvesByColumns (s : σ) : Prop :=
  ∀ (b : MatrixView α) (x : DenseMatrix α), solveMatrix s b = .ok x → ∀ j < b.ncols,
    j < x.ncols ∧ ∃ bⱼ xⱼ : ColumnVector α,
      ColumnVector.ofColumn b j = .ok bⱼ ∧ solve s bⱼ = .ok xⱼ ∧
        ColumnVector.ofColumn x.view j = .ok xⱼ

/-- A solver that reads all of the right-hand side, and whose answer to a column follows
its answer to the whole, solves by columns. -/
theorem solvesByColumns {s : σ} {r : ℕ}
    (hread : ∀ b, Ends Always (fun _ => b.Readable) (solveMatrix s b))
    (hfollows : ∀ {b v : MatrixView α} {j : Fin b.ncols}, b.IsColumn j v →
      Follows (DenseMatrix.IsColumn r j) (solveMatrix s b) (solveMatrix s v)) :
    SolvesByColumns s := by
  intro b x hx j hj
  have hreadable : b.Readable := (hread b).of_ok hx
  obtain ⟨bⱼ, hbⱼ⟩ := ColumnVector.exists_ofColumn fun i hi => hreadable i hi j hj
  have hcolumn : b.IsColumn ⟨j, hj⟩ bⱼ.view := ColumnVector.ofColumn_isColumn hbⱼ
  obtain ⟨y, hy, hxy⟩ := hfollows hcolumn x hx
  obtain ⟨xⱼ, hxⱼ, hyⱼ⟩ := hxy.ofColumn
  refine ⟨hxy.ncols.1 ▸ hj, bⱼ, xⱼ, hbⱼ, ?_, hxⱼ⟩
  rw [solve, hy]
  exact hyⱼ

end LinearSolver

variable {α ρ : Type} {r c : ℕ} {j : Fin c}

/-- An answer that begins with a dense copy is computed from a readable view. -/
theorem ends_readable_of_ofView {β : Type} {b : MatrixView α}
    {f : DenseMatrix α → Except Failure β} {n : ℕ} {e : Failure} :
    Ends Always (fun _ => b.Readable)
      (if b.nrows = n then DenseMatrix.ofView b >>= f else .error e) := by
  by_cases hrows : b.nrows = n
  · rw [if_pos hrows]
    exact DenseMatrix.ends_ofView_readable.bind fun _ h => Ends.always.imp fun _ _ => h
  · rw [if_neg hrows]
    exact trivial

/-! ### LU -/

namespace LU

variable [Scalar α] {packed x y : DenseMatrix α}

theorem follows_eliminateDown (hxy : DenseMatrix.IsColumn r j x y) (col : ℕ) :
    Follows (DenseMatrix.IsColumn r j) (eliminateDown packed x col)
      (eliminateDown packed y col) := by
  refine Follows.mapEntries hxy fun i old => .ite (fun _ => ?_) fun _ => .refl _
  refine (Follows.refl _).bind_eq fun factor => .ite (fun _ => .refl _) fun _ => ?_
  exact (hxy.entry col).bind_eq fun e => .refl _

theorem follows_dividePivotRow (hxy : DenseMatrix.IsColumn r j x y) (col : ℕ) :
    Follows (DenseMatrix.IsColumn r j) (dividePivotRow packed x col)
      (dividePivotRow packed y col) :=
  (Follows.refl _).bind_eq fun _ => Follows.mapEntries hxy fun _ _ => .refl _

theorem follows_eliminateUp (hxy : DenseMatrix.IsColumn r j x y) (col : ℕ) :
    Follows (DenseMatrix.IsColumn r j) (eliminateUp packed x col) (eliminateUp packed y col) := by
  refine Follows.mapEntries hxy fun i old => .ite (fun _ => ?_) fun _ => .refl _
  refine (Follows.refl _).bind_eq fun factor => ?_
  exact (hxy.entry col).bind_eq fun e => .refl _

theorem follows_substitute (n : ℕ) (hxy : DenseMatrix.IsColumn r j x y) :
    Follows (DenseMatrix.IsColumn r j) (substitute packed n x) (substitute packed n y) := by
  refine (Follows.foldlM _ hxy fun col _ x y hxy => follows_eliminateDown hxy col).bind ?_
  intro x y hxy
  refine Follows.foldlM _ hxy fun col _ x y hxy => ?_
  exact (follows_dividePivotRow hxy col).bind fun x y hxy => follows_eliminateUp hxy col

variable {n : ℕ} {s : Solver α} {σ : Equiv.Perm (Fin n)}

/-- All rows of the right-hand side are read, each at the position that the permutation
leads to it. -/
theorem Solver.ends_readable (hpivot : Lists s.pivot σ) (b : MatrixView α) :
    Ends Always (fun _ => b.Readable) (s.solveMatrix b) := by
  rw [s.solveMatrix_eq b, hpivot.size]
  by_cases hrows : b.nrows = n
  · rw [if_pos hrows]
    by_cases hsingular : s.singular = true
    · rw [if_pos hsingular]
      exact trivial
    rw [if_neg hsingular]
    refine Ends.bind (P := fun _ => b.Readable) ?_ fun _ h => Ends.always.imp fun _ _ => h
    refine Ends.always.self.imp ?_
    intro permuted hpermuted i hi k hk
    obtain ⟨hpn, hpc, wf, hentry⟩ := DenseMatrix.tabulate_eq_ok_iff.1 hpermuted.1
    let place : Fin n := σ.symm ⟨i, hrows ▸ hi⟩
    have hread : Storage.read s.pivot place = .ok i := by
      rw [hpivot.read place, Equiv.apply_symm_apply]
    have hplace := hentry place place.isLt k hk
    rw [hread] at hplace
    rw [show b.entry i k = permuted.entry place k from hplace]
    exact wf.exists_entry (hpn ▸ place.isLt) (hpc ▸ hk)
  · rw [if_neg hrows]
    exact trivial

theorem Solver.follows_solveMatrix (hpivot : Lists s.pivot σ) {b v : MatrixView α}
    {j : Fin b.ncols} (hv : b.IsColumn j v) :
    Follows (DenseMatrix.IsColumn n j) (s.solveMatrix b) (s.solveMatrix v) := by
  rw [s.solveMatrix_eq b, s.solveMatrix_eq v, hv.nrows, hv.ncols, hpivot.size]
  refine Follows.ite (fun hrows => ?_) fun _ => .error _
  refine Follows.ite (fun _ => .error _) fun _ => ?_
  refine (Follows.tabulate j fun i => ?_).bind fun x y hxy => follows_substitute n hxy
  rw [hpivot.read i]
  have hrow : (σ i : ℕ) < b.nrows := hrows ▸ (σ i).isLt
  show Follows Eq (b.entry (σ i) j) (v.entry (σ i) 0)
  rw [hv.entry (σ i) hrow]
  exact .refl _

/-- The solver of a decomposition solves by columns, however its pivots were chosen. -/
theorem solver_solvesByColumns {rule : PivotRule α}
    {P : ∀ {n : ℕ}, Matrix (Fin n) (Fin n) α → Fin n → Option (Fin n) → Prop}
    (hrule : rule.Selects P) {a : MatrixView α} {threshold : Option Float} {lu : LU α}
    (hlu : ofRule rule threshold a = .ok lu) : LinearSolver.SolvesByColumns lu.solver := by
  obtain ⟨-, σ, W, hholds⟩ := exists_holds_of_ofRule hrule hlu rfl
  have hpivot : Lists lu.solver.pivot σ := hholds.lists
  exact LinearSolver.solvesByColumns (Solver.ends_readable hpivot)
    (Solver.follows_solveMatrix hpivot)

end LU

/-! ### QR -/

namespace QR

variable [EuclideanScalar α ρ] {f : Factors α} {x y : DenseMatrix α}

/-- The sums of the other columns are computed too, but each column is given its own. -/
theorem follows_reflectColumns (hxy : DenseMatrix.IsColumn r j x y) (minor : ℕ) :
    Follows (DenseMatrix.IsColumn r j) (reflectColumns f x minor) (reflectColumns f y minor) := by
  unfold reflectColumns
  rw [hxy.ncols.1, hxy.ncols.2]
  refine (Follows.refl _).bind_eq fun head => (Follows.refl _).bind_eq fun entry => ?_
  refine (Follows.collect j.isLt ?_).bind fun xs ys hsums => ?_
  · refine Follows.bind_eq (Follows.foldPositions fun i sum _ _ => ?_) fun sum => .refl _
    exact (Follows.refl _).bind_eq fun v => (hxy.entry i).bind_eq fun e => .refl _
  · refine Follows.mapEntries hxy fun i old => .ite (fun _ => ?_) fun _ => .refl _
    exact hsums.bind_eq fun sum => .refl _

theorem follows_divideRow (hxy : DenseMatrix.IsColumn r j x y) (row : ℕ) :
    Follows (DenseMatrix.IsColumn r j) (divideRow f x row) (divideRow f y row) :=
  (Follows.refl _).bind_eq fun _ => Follows.mapEntries hxy fun _ _ => .refl _

theorem follows_eliminateAbove (hxy : DenseMatrix.IsColumn r j x y) (row : ℕ) :
    Follows (DenseMatrix.IsColumn r j) (eliminateAbove f x row) (eliminateAbove f y row) := by
  refine Follows.mapEntries hxy fun i old => .ite (fun _ => ?_) fun _ => .refl _
  exact (hxy.entry row).bind_eq fun e => .refl _

theorem follows_backSubstitute (hxy : DenseMatrix.IsColumn r j x y) :
    Follows (DenseMatrix.IsColumn r j) (backSubstitute f x) (backSubstitute f y) := by
  refine Follows.foldlM _ hxy fun row _ x y hxy => ?_
  exact (follows_divideRow hxy row).bind fun x y hxy => follows_eliminateAbove hxy row

theorem Solver.ends_readable (s : Solver α) (b : MatrixView α) :
    Ends Always (fun _ => b.Readable) (s.solveMatrix b) := by
  rw [s.solveMatrix_eq b]
  by_cases hsingular : s.singular = true
  · rw [if_pos hsingular]
    split <;> exact trivial
  · rw [if_neg hsingular]
    exact ends_readable_of_ofView

theorem Solver.follows_solveMatrix {s : Solver α} {b v : MatrixView α} {j : Fin b.ncols}
    (hv : b.IsColumn j v) :
    Follows (DenseMatrix.IsColumn s.factors.ncols j) (s.solveMatrix b) (s.solveMatrix v) := by
  rw [s.solveMatrix_eq b, s.solveMatrix_eq v, hv.nrows, hv.ncols]
  refine Follows.ite (fun _ => ?_) fun _ => .error _
  refine Follows.ite (fun _ => .error _) fun _ => ?_
  refine hv.ofView.bind fun x y hxy => ?_
  refine (Follows.foldlM _ hxy fun minor _ x y hxy => follows_reflectColumns hxy minor).bind ?_
  intro x y hxy
  refine (follows_backSubstitute hxy).bind fun x y hxy => ?_
  exact Follows.tabulate j fun i => .ite (fun _ => hxy.entry i) fun _ => .refl _

theorem Solver.solvesByColumns (s : Solver α) : LinearSolver.SolvesByColumns s :=
  LinearSolver.solvesByColumns s.ends_readable Solver.follows_solveMatrix

end QR

/-! ### Rank-revealing QR -/

namespace RankRevealingQR

variable [RealScalar ρ]

/-- Whole rows are moved, and of each row the entry of the column moves with it. -/
theorem follows_scatterRows {permutation : Array ℕ} {x y : DenseMatrix ρ}
    (hxy : DenseMatrix.IsColumn r j x y) :
    Follows (DenseMatrix.IsColumn r j) (scatterRows permutation x)
      (scatterRows permutation y) := by
  unfold scatterRows
  rw [hxy.nrows.1, hxy.nrows.2]
  have hstart : DenseMatrix.IsColumn r j (DenseMatrix.zeros r x.ncols : DenseMatrix ρ)
      (DenseMatrix.zeros r y.ncols) := by
    rw [hxy.ncols.1, hxy.ncols.2]
    exact DenseMatrix.isColumn_zeros r j
  refine Follows.foldlM _ hstart fun i _ x' y' hxy' => ?_
  refine (Follows.refl _).bind_eq fun row => (Follows.rowSlice hxy i).bind fun us vs huv => ?_
  exact Follows.writeBlock hxy' huv

theorem Solver.solvesByColumns (s : Solver ρ) : LinearSolver.SolvesByColumns s := by
  refine LinearSolver.solvesByColumns (r := s.inner.factors.ncols) (fun b => ?_)
    fun {b v j} hv => ?_
  · exact (s.inner.ends_readable b).bind fun _ h => Ends.always.imp fun _ _ => h
  · exact (QR.Solver.follows_solveMatrix hv).bind fun x y hxy => follows_scatterRows hxy

end RankRevealingQR

/-! ### Cholesky -/

namespace Cholesky

variable [RealScalar ρ] {upper x y : DenseMatrix ρ}

theorem follows_divideRow (hxy : DenseMatrix.IsColumn r j x y) (row : ℕ) :
    Follows (DenseMatrix.IsColumn r j) (divideRow upper x row) (divideRow upper y row) :=
  (Follows.refl _).bind_eq fun _ => Follows.mapEntries hxy fun _ _ => .refl _

theorem follows_forwardStep (hxy : DenseMatrix.IsColumn r j x y) (row : ℕ) :
    Follows (DenseMatrix.IsColumn r j) (forwardStep upper x row) (forwardStep upper y row) := by
  refine (follows_divideRow hxy row).bind fun x y hxy => ?_
  refine Follows.mapEntries hxy fun i old => .ite (fun _ => ?_) fun _ => .refl _
  exact (hxy.entry row).bind_eq fun e => .refl _

theorem follows_backwardStep (hxy : DenseMatrix.IsColumn r j x y) (row : ℕ) :
    Follows (DenseMatrix.IsColumn r j) (backwardStep upper x row) (backwardStep upper y row) := by
  refine (follows_divideRow hxy row).bind fun x y hxy => ?_
  refine Follows.mapEntries hxy fun i old => .ite (fun _ => ?_) fun _ => .refl _
  exact (hxy.entry row).bind_eq fun e => .refl _

theorem Solver.solvesByColumns (s : Solver ρ) : LinearSolver.SolvesByColumns s := by
  refine LinearSolver.solvesByColumns (r := s.upper.nrows) (fun b => ?_) fun {b v j} hv => ?_
  · show Ends Always _ (s.solveMatrix b)
    rw [s.solveMatrix_eq b]
    exact ends_readable_of_ofView
  · show Follows _ (s.solveMatrix b) (s.solveMatrix v)
    rw [s.solveMatrix_eq b, s.solveMatrix_eq v, hv.nrows]
    refine Follows.ite (fun hrows => ?_) fun _ => .error _
    rw [← hrows]
    refine hv.ofView.bind fun x y hxy => ?_
    refine (Follows.foldlM _ hxy fun row _ x y hxy => follows_forwardStep hxy row).bind ?_
    intro x y hxy
    exact Follows.foldlM _ hxy fun row _ x y hxy => follows_backwardStep hxy row

end Cholesky

/-! ### Singular values -/

/-- A column of a product is the product with the column. -/
theorem DenseMatrix.follows_mul [Scalar α] {m x y : DenseMatrix α}
    (hxy : DenseMatrix.IsColumn r j x y) :
    Follows (DenseMatrix.IsColumn m.nrows j) (m.mul x) (m.mul y) := by
  unfold DenseMatrix.mul
  rw [hxy.nrows.1, hxy.nrows.2, hxy.ncols.1, hxy.ncols.2]
  refine Follows.ite (fun _ => .error _) fun _ => Follows.tabulate j fun i => ?_
  refine Follows.foldPositions fun k sum _ _ => (Follows.refl _).bind_eq fun v => ?_
  refine Follows.ite (fun _ => .refl _) fun _ => ?_
  exact (hxy.entry k).bind_eq fun e => .refl _

namespace SVD

variable [RealScalar ρ]

theorem Solver.solvesByColumns (s : Solver ρ) : LinearSolver.SolvesByColumns s := by
  refine LinearSolver.solvesByColumns (r := s.pseudoInverse.nrows) (fun b => ?_)
    fun {b v j} hv => ?_
  · show Ends Always _ (s.solveMatrix b)
    rw [s.solveMatrix_eq b]
    exact ends_readable_of_ofView
  · show Follows _ (s.solveMatrix b) (s.solveMatrix v)
    rw [s.solveMatrix_eq b, s.solveMatrix_eq v, hv.nrows]
    refine Follows.ite (fun _ => ?_) fun _ => .error _
    exact hv.ofView.bind fun x y hxy => DenseMatrix.follows_mul hxy

end SVD

/-! ### All solvers -/

open LinearSolver (SolvesByColumns)

/-- **Columns are solved independently.** Over any elements, with rounding or without, let
a solver answer a right-hand side of several columns. Then it answers each column by
itself, and the answer is that column of the whole answer, element by element the same.
This holds of the LU solver of every decomposition, by a threshold or by a predicate, and
of every QR, rank-revealing QR, Cholesky and singular value solver. -/
theorem solvers_solveByColumns :
    (∀ {α ρ : Type} [RealScalar ρ] [EuclideanScalar α ρ] (threshold : ρ) (a : MatrixView α)
      (lu : LU α), LU.ofThreshold threshold a = .ok lu → SolvesByColumns lu.solver) ∧
    (∀ {α : Type} [FieldScalar α] (isZero : α → Bool) (numeric : Bool) (a : MatrixView α)
      (lu : LU α), LU.ofPredicate isZero numeric a = .ok lu → SolvesByColumns lu.solver) ∧
    (∀ {α ρ : Type} [EuclideanScalar α ρ] (s : QR.Solver α), SolvesByColumns s) ∧
    (∀ {ρ : Type} [RealScalar ρ] (s : RankRevealingQR.Solver ρ), SolvesByColumns s) ∧
    (∀ {ρ : Type} [RealScalar ρ] (s : Cholesky.Solver ρ), SolvesByColumns s) ∧
    ∀ {ρ : Type} [RealScalar ρ] (s : SVD.Solver ρ), SolvesByColumns s := by
  refine ⟨?lu_threshold, ?lu_predicate, ?qr, ?rrqr, ?cholesky, ?svd⟩
  case lu_threshold =>
    intro α ρ _ _ threshold a lu hlu
    exact LU.solver_solvesByColumns (LU.selects_largestModulus threshold) hlu
  case lu_predicate =>
    intro α _ isZero numeric a lu hlu
    exact LU.solver_solvesByColumns (LU.selects_field isZero numeric) hlu
  case qr =>
    intro α ρ _ s
    exact s.solvesByColumns
  case rrqr =>
    intro ρ _ s
    exact s.solvesByColumns
  case cholesky =>
    intro ρ _ s
    exact s.solvesByColumns
  case svd =>
    intro ρ _ s
    exact s.solvesByColumns

/-- The columns of `exchanging.transpose`, solved together and one by one. -/
theorem solvers_solveByColumns_exchanging :
    ∃ (lu : LU (Ratio 64)) (x : DenseMatrix (Ratio 64)),
      LU.ofPredicate Scalar.isZero true (.ofMatrix LU.exchanging) = .ok lu ∧
        LinearSolver.solveMatrix lu.solver (.ofMatrix LU.exchanging.transpose) = .ok x ∧
        ∀ j < 3, j < x.ncols ∧ ∃ bⱼ xⱼ : ColumnVector (Ratio 64),
          ColumnVector.ofColumn (.ofMatrix LU.exchanging.transpose) j = .ok bⱼ ∧
            LinearSolver.solve lu.solver bⱼ = .ok xⱼ ∧
            ColumnVector.ofColumn x.view j = .ok xⱼ := by
  obtain ⟨lu, hlu, -, -⟩ := LU.exists_decomposition_exchanging
  have hrun : (do
      let lu ← LU.ofPredicate Scalar.isZero true (.ofMatrix LU.exchanging)
      LinearSolver.solveMatrix lu.solver (.ofMatrix LU.exchanging.transpose)).isOk = true := by
    decide +kernel
  rw [hlu] at hrun
  change (LinearSolver.solveMatrix lu.solver (.ofMatrix LU.exchanging.transpose)).isOk = true
    at hrun
  cases hx : LinearSolver.solveMatrix lu.solver (.ofMatrix LU.exchanging.transpose) with
  | error e => simp [hx, Except.isOk, Except.toBool] at hrun
  | ok x =>
      have hcolumns := solvers_solveByColumns.2.1 Scalar.isZero true _ lu hlu
      exact ⟨lu, x, hlu, hx, hcolumns _ x hx⟩

end DenseFactor
