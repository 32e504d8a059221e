import DenseFactor.SVD.Iteration
import DenseFactor.Matrix.Norm
import DenseFactor.Matrix.Product
import DenseFactor.Solver

/-!
# DenseFactor.SVD.Basic

Singular value decomposition `A = U · S · Vᵀ` of any real matrix, what can be read
off it, and its least-squares solver.

Design points:

* The decomposition is compact: with `p` the smaller dimension, `U` has `p`
  columns, `V` has `p` columns and there are `p` singular values, sorted
  descending. A wide matrix is decomposed through its transpose.
* The matrix is divided by its largest entry first, so that the norms of the
  reflections stay in range, and the singular values are scaled back.
* A NaN in the bidiagonal form makes all singular values NaN.
* Singular values above the tolerance count toward the rank and enter the
  pseudo-inverse. The solver multiplies by the pseudo-inverse and never refuses.
-/

namespace DenseFactor

/-- A singular value decomposition. -/
structure SVD (ρ : Type) where
  /-- The left singular vectors as columns (`m x p`). -/
  u : DenseMatrix ρ
  /-- The right singular vectors as columns (`n x p`). -/
  v : DenseMatrix ρ
  /-- The singular values, largest first. -/
  values : Array ρ
  /-- Singular values above it count toward the rank. -/
  tolerance : ρ

namespace SVD

variable {ρ : Type} [RealScalar ρ]

/-! ### Construction -/

/-- The compact factors of a matrix. -/
structure Factors (ρ : Type) where
  u : DenseMatrix ρ
  values : Array ρ
  v : DenseMatrix ρ
  /-- The form the reduction ended with, of the matrix or of its transpose. -/
  form : Bidiagonal ρ

/-- The factor a matrix is divided by before it is decomposed: its largest modulus,
or none if that is zero or not finite. -/
def scale? (a : DenseMatrix ρ) : Option ρ :=
  let largest := a.maxModulus
  if decide (0 < largest) && RealScalar.isFinite largest then some largest else none

/-- Divides every element by the scale. -/
def scaledDown (a : DenseMatrix ρ) : Option ρ → DenseMatrix ρ
  | some scale => { a with data := a.data.map (· / scale) }
  | none => a

/-- Multiplies every singular value by the scale. -/
def scaledUp (values : Array ρ) : Option ρ → Array ρ
  | some scale => values.map (· * scale)
  | none => values

/-- Whether an entry of the form is a NaN. -/
def Bidiagonal.hasNaN (b : Bidiagonal ρ) : Bool :=
  b.diag.any RealScalar.isNaN || b.offDiag.any RealScalar.isNaN

/-- The factors of a matrix with at least as many rows as columns. -/
def ofTall (a : DenseMatrix ρ) : Except Failure (Factors ρ) := do
  let scale := scale? a
  let b ← Bidiagonal.ofTall (scaledDown a scale)
  let (form, values) ←
    if b.hasNaN then
      pure (b, b.diag.map fun _ => RealScalar.nan)
    else do
      let form ← b.diagonalize (30 * max a.nrows a.ncols)
      pure (form, scaledUp form.diag scale)
  let u ← DenseMatrix.tabulate a.nrows a.ncols form.u.entry
  return { u, values, v := form.v, form }

/-- The factors of any matrix. -/
def factorize (a : DenseMatrix ρ) : Except Failure (Factors ρ) := do
  if a.ncols ≤ a.nrows then
    ofTall a
  else
    let f ← ofTall (← a.transpose)
    return { f with u := f.v, v := f.u }

/-- The first of the singular values, zero if there is none. -/
def largestOf (values : Array ρ) : ρ := values.toList.headD 0

/-- The tolerance unless another one is given: the larger dimension times the
largest singular value times the rounding unit, but not below the root of the least
positive number. -/
def defaultTolerance (nrows ncols : Nat) (values : Array ρ) : ρ :=
  let scaled := RealScalar.ofFloat (Float.ofNat (max nrows ncols)) *
    largestOf values * RealScalar.epsilon
  RealScalar.maximum scaled (RealScalar.sqrt RealScalar.minPositive)

/-- Decomposes with a tolerance, or with the default one. -/
def ofTolerance? (tolerance? : Option ρ) (a : MatrixView ρ) : Except Failure (SVD ρ) := do
  let f ← factorize (← DenseMatrix.ofView a)
  return {
    u := f.u
    v := f.v
    values := f.values
    tolerance := tolerance?.getD (defaultTolerance a.nrows a.ncols f.values) }

/-- Decomposes with the default tolerance. -/
def of (a : MatrixView ρ) : Except Failure (SVD ρ) := ofTolerance? none a

/-- Decomposes with a given tolerance. -/
def ofTolerance (tolerance : ρ) (a : MatrixView ρ) : Except Failure (SVD ρ) :=
  ofTolerance? (some tolerance) a

/-! ### Factors and numbers -/

/-- The transpose of the left factor. -/
def uTranspose (s : SVD ρ) : Except Failure (DenseMatrix ρ) := s.u.transpose

/-- The transpose of the right factor. -/
def vTranspose (s : SVD ρ) : Except Failure (DenseMatrix ρ) := s.v.transpose

/-- The singular values as a diagonal matrix. -/
def diagonal (s : SVD ρ) : Except Failure (DenseMatrix ρ) :=
  DenseMatrix.diagonal s.values

/-- The number of singular values above the tolerance. -/
def rank (s : SVD ρ) : Nat := s.values.countP fun x => decide (s.tolerance < x)

/-- The largest singular value. -/
def norm (s : SVD ρ) : ρ := largestOf s.values

/-- A quotient of the largest and the smallest singular value, one for an empty
matrix. -/
def extremes (s : SVD ρ) (quotient : ρ → ρ → ρ) : ρ :=
  match s.values.toList.head?, s.values.toList.getLast? with
  | some largest, some smallest => quotient largest smallest
  | _, _ => 1

/-- The largest singular value over the smallest. -/
def conditionNumber (s : SVD ρ) : ρ := s.extremes fun largest smallest => largest / smallest

/-- The smallest singular value over the largest. -/
def inverseConditionNumber (s : SVD ρ) : ρ :=
  s.extremes fun largest smallest => smallest / largest

/-- The pseudo-inverse: the columns of `V` over the singular values above the
tolerance, times `Uᵀ`. -/
def pseudoInverse (s : SVD ρ) : Except Failure (DenseMatrix ρ) := do
  let scaled ← s.v.mapEntries fun _ j x => do
    let value ← Storage.read s.values j
    return x * (if s.tolerance < value then 1 / value else 0)
  scaled.mulTranspose s.u

/-- Whether the matrix is square and of full rank. -/
def isFullRank (s : SVD ρ) : Bool := s.rank == max s.u.nrows s.v.nrows

/-- The covariance of a least-squares fit: `JᵀJ` where the rows of `J` are those of
`Vᵀ` over the leading singular values that reach the cutoff. -/
def covariance (s : SVD ρ) (cutoff : ρ) : Except Failure (DenseMatrix ρ) := do
  let kept := (s.values.toList.takeWhile fun x => decide (cutoff ≤ x)).length
  if kept = 0 then
    throw (.cutoffTooLarge (RealScalar.toFloat cutoff) (RealScalar.toFloat s.norm))
  let vt ← s.vTranspose
  let j ← DenseMatrix.tabulate kept vt.ncols fun i c => do
    return (← vt.entry i c) / (← Storage.read s.values i)
  j.transposeMul j

/-! ### Solving -/

/-- A solver from a singular value decomposition. -/
structure Solver (ρ : Type) where
  pseudoInverse : DenseMatrix ρ
  nonSingular : Bool

/-- The solver of a decomposition. -/
def solver (s : SVD ρ) : Except Failure (Solver ρ) := do
  return { pseudoInverse := ← s.pseudoInverse, nonSingular := s.isFullRank }

/-- Multiplies every column by the pseudo-inverse. -/
def Solver.solveMatrix (s : Solver ρ) (b : MatrixView ρ) :
    Except Failure (DenseMatrix ρ) := do
  checkRows b s.pseudoInverse.ncols
  s.pseudoInverse.mul (← DenseMatrix.ofView b)

instance : LinearSolver (Solver ρ) ρ where
  nrows s := s.pseudoInverse.ncols
  ncols s := s.pseudoInverse.nrows
  isNonSingular s := s.nonSingular
  solveMatrix := Solver.solveMatrix
  inverse s := .ok s.pseudoInverse

end SVD

end DenseFactor
