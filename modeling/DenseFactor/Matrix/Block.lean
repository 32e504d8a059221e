import DenseFactor.Matrix.Basic

/-!
# DenseFactor.Matrix.Block

Blocks of a matrix and tests for symmetry.

Symmetry is tested pair by pair above the diagonal. Within a tolerance, the
difference of a pair is compared with the tolerance times the larger modulus of
the two, so the test does not depend on the scale of the matrix.
-/

namespace DenseFactor.DenseMatrix

variable {α : Type}

/-- The inclusive block of rows `firstRow` to `lastRow` and columns `firstCol` to
`lastCol`. -/
def block (m : DenseMatrix α) (firstRow lastRow firstCol lastCol : Nat) :
    Except Failure (DenseMatrix α) := do
  unless firstRow ≤ lastRow ∧ lastRow < m.nrows ∧
      firstCol ≤ lastCol ∧ lastCol < m.ncols do
    throw (.misuse (.noBlock firstRow lastRow firstCol lastCol m.shape))
  tabulate (lastRow - firstRow + 1) (lastCol - firstCol + 1) fun i j =>
    m.entry (firstRow + i) (firstCol + j)

/-- Whether a test holds of every entry above the diagonal and the entry across the
diagonal from it; the first pair that fails ends the search. -/
def allOppositePairs (m : DenseMatrix α) (test : α → α → Bool) : Except Failure Bool :=
  (positions 0 m.nrows).allM fun i =>
    (positions (i + 1) m.ncols).allM fun j => do
      return test (← m.entry i j) (← m.entry j i)

/-- Whether the matrix equals its transpose. -/
def isSymmetric [Scalar α] (m : DenseMatrix α) : Except Failure Bool :=
  if m.isSquare then m.allOppositePairs Scalar.beq else .ok false

/-- Whether every entry differs from the one across the diagonal by at most the
tolerance times the larger of their absolute values. -/
def isSymmetricWithin [RealScalar α] (m : DenseMatrix α) (tolerance : α) :
    Except Failure Bool :=
  if m.isSquare then
    m.allOppositePairs fun x y =>
      RealScalar.abs (x - y) ≤
        tolerance * RealScalar.maximum (RealScalar.abs x) (RealScalar.abs y)
  else .ok false

end DenseFactor.DenseMatrix
