import Mathlib
import DenseFactor.Cholesky.Basic
import DenseFactor.LU.Basic
import DenseFactor.QR.RankRevealing
import DenseFactor.SVD.Basic

/-!
# DenseFactor.Proofs.Solver.Basic

What each solver does with a right-hand side, **test by test**: first the number of rows
is compared, then a matrix that counts as singular is refused, then the answer is
computed.

Later modules take the solvers from these equations.
-/

namespace DenseFactor

variable {α β ρ : Type}

/-- The test of the number of rows comes before everything else. -/
theorem checkRows_bind (b : MatrixView α) (n : ℕ) (f : Unit → Except Failure β) :
    (checkRows b n >>= f) = if b.nrows = n then f () else .error (.rowCount n b.nrows) := by
  unfold checkRows
  by_cases h : b.nrows = n
  · rw [if_pos h, if_pos h]
    rfl
  · rw [if_neg h, if_neg h]
    rfl

theorem LU.Solver.solveMatrix_eq [Scalar α] (s : LU.Solver α) (b : MatrixView α) :
    s.solveMatrix b =
      if b.nrows = s.pivot.size then
        if s.singular then .error .singular
        else do
          let permuted ← DenseMatrix.tabulate s.pivot.size b.ncols fun i j => do
            b.entry (← Storage.read s.pivot i) j
          substitute s.packed s.pivot.size permuted
      else .error (.rowCount s.pivot.size b.nrows) :=
  checkRows_bind _ _ _

theorem QR.Solver.solveMatrix_eq [EuclideanScalar α ρ] (s : QR.Solver α)
    (b : MatrixView α) :
    s.solveMatrix b =
      if b.nrows = s.factors.nrows then
        if s.singular then .error .singular
        else do
          let y ← (positions 0 s.factors.diagonal.size).foldlM (reflectColumns s.factors)
            (← DenseMatrix.ofView b)
          let x ← backSubstitute s.factors y
          DenseMatrix.tabulate s.factors.ncols b.ncols fun i j =>
            if i < s.factors.diagonal.size then x.entry i j else .ok 0
      else .error (.rowCount s.factors.nrows b.nrows) :=
  checkRows_bind _ _ _

theorem RankRevealingQR.Solver.solveMatrix_eq [RealScalar ρ] (s : RankRevealingQR.Solver ρ)
    (b : MatrixView ρ) :
    s.solveMatrix b =
      if b.nrows = s.inner.factors.nrows then
        if s.inner.singular then .error .singular
        else s.inner.solveMatrix b >>= scatterRows s.permutation
      else .error (.rowCount s.inner.factors.nrows b.nrows) := by
  show (s.inner.solveMatrix b >>= scatterRows s.permutation) = _
  by_cases hrows : b.nrows = s.inner.factors.nrows
  · rw [if_pos hrows]
    by_cases hsingular : s.inner.singular = true
    · rw [if_pos hsingular, s.inner.solveMatrix_eq b, if_pos hrows, if_pos hsingular]
      rfl
    · rw [if_neg hsingular]
  · rw [if_neg hrows, s.inner.solveMatrix_eq b, if_neg hrows]
    rfl

theorem Cholesky.Solver.solveMatrix_eq [RealScalar ρ] (s : Cholesky.Solver ρ)
    (b : MatrixView ρ) :
    s.solveMatrix b =
      if b.nrows = s.upper.nrows then do
        let y ← (positions 0 s.upper.nrows).foldlM (forwardStep s.upper)
          (← DenseMatrix.ofView b)
        (positions 0 s.upper.nrows).reverse.foldlM (backwardStep s.upper) y
      else .error (.rowCount s.upper.nrows b.nrows) :=
  checkRows_bind _ _ _

theorem SVD.Solver.solveMatrix_eq [RealScalar ρ] (s : SVD.Solver ρ) (b : MatrixView ρ) :
    s.solveMatrix b =
      if b.nrows = s.pseudoInverse.ncols then do
        s.pseudoInverse.mul (← DenseMatrix.ofView b)
      else .error (.rowCount s.pseudoInverse.ncols b.nrows) :=
  checkRows_bind _ _ _

end DenseFactor
