import DenseFactor.LU.Basic
import DenseFactor.SVD.Basic

/-!
# DenseFactor.Matrix.Equation

Questions asked of a matrix directly, answered by a decomposition with its default
settings: solutions, inverse and determinant by LU, the rank by singular values.
-/

namespace DenseFactor.DenseMatrix

variable {α ρ : Type} [RealScalar ρ] [EuclideanScalar α ρ]

/-- The solution of `A · x = b`. -/
def solve (a : DenseMatrix α) (b : ColumnVector α) : Except Failure (ColumnVector α) := do
  LinearSolver.solve (← LU.of a.view).solver b

/-- The inverse; a singular matrix has none. -/
def inverse (a : DenseMatrix α) : Except Failure (DenseMatrix α) := do
  LinearSolver.inverse (← LU.of a.view).solver

/-- The determinant, zero for a singular matrix. -/
def det (a : DenseMatrix α) : Except Failure α := do
  (← LU.of a.view).det

/-- The number of singular values above the default tolerance. -/
def rank (a : DenseMatrix ρ) : Except Failure Nat := do
  return (← SVD.of a.view).rank

end DenseFactor.DenseMatrix
