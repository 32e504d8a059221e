import DenseFactor.Matrix.Product
import DenseFactor.QR.Reflection
import DenseFactor.Solver

/-!
# DenseFactor.QR.Basic

QR decomposition `A = Q · R` of any matrix, real or complex, by Householder
reflections, and its least-squares solver.

Design points:

* `Q` is square and unitary, `R` has the shape of `A` and is upper triangular.
* The matrix counts as rank deficient if some diagonal entry of `R` is at most the
  threshold times the Frobenius norm of `A`. The threshold is relative, so it does
  not depend on the scale of `A`.
* The solver applies the stored reflections to the right-hand sides and solves the
  leading square part of `R`. With more rows than columns this is the
  least-squares solution; with fewer, the unknowns past the rows are zero.
-/

namespace DenseFactor

/-- A QR decomposition over elements `α` with reals `ρ`. -/
structure QR (α ρ : Type) where
  factors : QR.Factors α
  /-- The relative threshold of the solver. -/
  threshold : ρ
  /-- The Frobenius norm of the decomposed matrix. -/
  norm : ρ

namespace QR

open EuclideanScalar

variable {α ρ : Type} [RealScalar ρ] [EuclideanScalar α ρ]

/-- Only exactly zero diagonal entries count unless another threshold is given. -/
def defaultThreshold : Float := 0

/-- Decomposes with a relative threshold for the solver. -/
def ofThreshold (threshold : ρ) (a : MatrixView α) : Except Failure (QR α ρ) := do
  let work ← Factors.transposed a
  let factors ← (positions 0 (min a.nrows a.ncols)).foldlM Factors.step
    { work, diagonal := #[] }
  return { factors, threshold, norm := work.frobeniusNorm }

/-- Decomposes with the default threshold. -/
def of (a : MatrixView α) : Except Failure (QR α ρ) :=
  ofThreshold (RealScalar.ofFloat defaultThreshold) a

/-- The unitary factor. -/
def q (qr : QR α ρ) : Except Failure (DenseMatrix α) := do
  (← qr.factors.adjointQ).adjoint

/-- The conjugate transpose of the unitary factor. -/
def qAdjoint (qr : QR α ρ) : Except Failure (DenseMatrix α) := qr.factors.adjointQ

/-- The upper triangular factor. -/
def r (qr : QR α ρ) : Except Failure (DenseMatrix α) := qr.factors.upper

/-- The vectors of the reflections. -/
def h (qr : QR α ρ) : Except Failure (DenseMatrix α) := qr.factors.vectors

/-! ### Solving -/

/-- Applies one reflection to every column of the right-hand side. -/
def reflectColumns (f : Factors α) (y : DenseMatrix α) (minor : Nat) :
    Except Failure (DenseMatrix α) := do
  let head ← f.work.entry minor minor
  let factor := 1 / (conj (← Storage.read f.diagonal minor) * head)
  let sums ← Storage.collect y.ncols fun j => do
    let sum ← foldPositions minor f.nrows (0 : α) fun sum i => do
      return sum + conj (← f.work.entry minor i) * (← y.entry i j)
    return sum * factor
  y.mapEntries fun i j x =>
    if minor ≤ i then do
      return x + (← Storage.read sums j) * (← f.work.entry minor i)
    else .ok x

/-- Divides row `row` by its diagonal entry. -/
def divideRow (f : Factors α) (y : DenseMatrix α) (row : Nat) :
    Except Failure (DenseMatrix α) := do
  let pivot ← Storage.read f.diagonal row
  y.mapEntries fun i _ x => .ok (if i = row then x / pivot else x)

/-- Subtracts from the earlier rows their multiples of row `row`. -/
def eliminateAbove (f : Factors α) (y : DenseMatrix α) (row : Nat) :
    Except Failure (DenseMatrix α) :=
  y.mapEntries fun i j x =>
    if i < row then do
      return x - (← y.entry row j) * (← f.work.entry row i)
    else .ok x

/-- Solves the leading square part of `R · X = Y`, from the last row up. -/
def backSubstitute (f : Factors α) (y : DenseMatrix α) :
    Except Failure (DenseMatrix α) :=
  (positions 0 f.diagonal.size).reverse.foldlM (fun y row => do
    eliminateAbove f (← divideRow f y row) row) y

/-- A solver from a QR decomposition. -/
structure Solver (α : Type) where
  factors : Factors α
  singular : Bool

/-- The solver of some factors; `limit` bounds the diagonal entries that count as
zero. -/
def Solver.of (factors : Factors α) (limit : ρ) : Solver α :=
  { factors, singular := factors.isRankDeficient limit }

/-- The solver of a decomposition. -/
def solver (qr : QR α ρ) : Solver α := .of qr.factors (qr.threshold * qr.norm)

/-- Solves for every column; a rank-deficient matrix has no answer. -/
def Solver.solveMatrix (s : Solver α) (b : MatrixView α) :
    Except Failure (DenseMatrix α) := do
  let f := s.factors
  checkRows b f.nrows
  if s.singular then
    throw .singular
  let y ← (positions 0 f.diagonal.size).foldlM (reflectColumns f)
    (← DenseMatrix.ofView b)
  let x ← backSubstitute f y
  DenseMatrix.tabulate f.ncols b.ncols fun i j =>
    if i < f.diagonal.size then x.entry i j else .ok 0

instance : LinearSolver (Solver α) α where
  nrows s := s.factors.nrows
  ncols s := s.factors.ncols
  isNonSingular s := !s.singular
  solveMatrix := Solver.solveMatrix
  inverse s := LinearSolver.solveIdentity s.solveMatrix s.factors.nrows

end QR

end DenseFactor
