import DenseFactor.Matrix.Column

/-!
# DenseFactor.Matrix.Norm

Norms of matrices and vectors over the moduli of their elements.

Sums run in storage order from zero. A largest value starts at zero and passes
over a NaN.
-/

namespace DenseFactor

variable {α ρ : Type} [RealScalar ρ] [EuclideanScalar α ρ]

namespace DenseMatrix

/-- The moduli of the stored elements. -/
def moduli (m : DenseMatrix α) : List ρ :=
  m.data.toList.map EuclideanScalar.modulus

/-- The root of the sum of the squared moduli. -/
def frobeniusNorm (m : DenseMatrix α) : ρ :=
  RealScalar.sqrt (m.moduli.foldl (fun sum x => sum + x * x) 0)

/-- The largest modulus. -/
def maxModulus (m : DenseMatrix α) : ρ := RealScalar.largest m.moduli

/-- The largest sum of moduli of a column. -/
def normOne (m : DenseMatrix α) : Except Failure ρ := do
  let sums ← Storage.collect m.ncols fun j =>
    foldPositions 0 m.nrows 0 fun sum i => do
      return sum + EuclideanScalar.modulus (← m.entry i j)
  return RealScalar.largest sums.toList

/-- The largest sum of moduli of a row. -/
def normInf (m : DenseMatrix α) : Except Failure ρ := do
  let sums ← Storage.collect m.nrows fun i =>
    foldPositions 0 m.ncols 0 fun sum j => do
      return sum + EuclideanScalar.modulus (← m.entry i j)
  return RealScalar.largest sums.toList

end DenseMatrix

/-- The Euclidean norm of a vector. -/
def ColumnVector.norm (v : ColumnVector α) : ρ := v.column.frobeniusNorm

end DenseFactor
