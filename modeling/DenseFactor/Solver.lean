import DenseFactor.Matrix.Column

/-!
# DenseFactor.Solver

What a finished decomposition of an `m x n` matrix `A` offers: solutions of
`A · X = B` for any number of right-hand sides at once.

Design points:

* `solveMatrix` takes the right-hand sides as the columns of anything readable
  with `nrows` rows; its answer has `ncols` rows. The number of rows is checked
  before anything else.
* One right-hand side is a matrix of one column, and the inverse is the answer to
  the identity. A solver that knows its inverse gives it directly.
-/

namespace DenseFactor

/-- Solvers of type `σ` over elements of type `α`. -/
class LinearSolver (σ : Type) (α : outParam Type) where
  /-- The number of rows of the decomposed matrix. -/
  nrows : σ → Nat
  /-- The number of columns of the decomposed matrix. -/
  ncols : σ → Nat
  /-- Whether the matrix is invertible within the tolerance of its
  decomposition. -/
  isNonSingular : σ → Bool
  /-- Solves for every column of the right-hand side. -/
  solveMatrix : σ → MatrixView α → Except Failure (DenseMatrix α)
  /-- The inverse, or pseudo-inverse, of the decomposed matrix. -/
  inverse : σ → Except Failure (DenseMatrix α)

/-- The right-hand side has the expected number of rows. -/
def checkRows {α : Type} (b : MatrixView α) (expected : Nat) : Except Failure Unit :=
  if b.nrows = expected then .ok () else .error (.rowCount expected b.nrows)

namespace LinearSolver

variable {σ α : Type}

/-- The answer to a single right-hand side. -/
def solve [LinearSolver σ α] (solver : σ) (b : ColumnVector α) :
    Except Failure (ColumnVector α) := do
  let x ← solveMatrix solver b.view
  ColumnVector.ofColumn x.view 0

/-- The answer of a solver to the identity. -/
def solveIdentity [Scalar α]
    (solveMatrix : MatrixView α → Except Failure (DenseMatrix α)) (n : Nat) :
    Except Failure (DenseMatrix α) := do
  let identity ← DenseMatrix.identity n
  solveMatrix identity.view

end LinearSolver

end DenseFactor
