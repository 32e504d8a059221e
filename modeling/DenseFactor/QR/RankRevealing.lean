import DenseFactor.QR.Basic
import DenseFactor.Matrix.Block
import DenseFactor.Matrix.Edit

/-!
# DenseFactor.QR.RankRevealing

Rank-revealing QR decomposition `A · P = Q · R` of a real matrix: Householder
reflections with **column pivoting**.

Design points:

* Before each reflection the remaining column of largest norm moves into place.
  The norms are taken over the rows not yet reduced, since the rows above belong
  to `R` already and no longer take part.
* So the diagonal of `R` decreases in absolute value, and the rank can be read off
  the norms of its trailing blocks.
* The solver is that of the QR decomposition followed by the permutation.
-/

namespace DenseFactor

/-- A QR decomposition with column pivoting. -/
structure RankRevealingQR (ρ : Type) where
  factors : QR.Factors ρ
  /-- Column `i` of `A · P` is column `permutation[i]` of `A`. -/
  permutation : Array Nat
  /-- The relative threshold of the solver. -/
  threshold : ρ
  /-- The Frobenius norm of the decomposed matrix. -/
  norm : ρ

namespace RankRevealingQR

variable {ρ : Type} [RealScalar ρ]

/-- A state of the reduction: the factors so far and the order of the columns. -/
structure Reduction (ρ : Type) where
  factors : QR.Factors ρ
  order : Array Nat

/-- The sum of the squares of a row of the working copy from a position on. -/
def restSquares (work : DenseMatrix ρ) (row start : Nat) : Except Failure ρ :=
  foldPositions start work.ncols 0 fun sum k => do
    let x ← work.entry row k
    return sum + x * x

/-- The first remaining row of the working copy with the largest rest; row `minor`
if every rest is zero. -/
def largestRest (work : DenseMatrix ρ) (minor : Nat) : Except Failure Nat := do
  let (best, _) ← foldPositions minor work.nrows (minor, (0 : ρ))
    fun (best, size) row => do
      let squares ← restSquares work row minor
      return if size < squares then (row, squares) else (best, size)
  return best

/-- Moves a row of the working copy into place. -/
def Reduction.select (s : Reduction ρ) (minor best : Nat) :
    Except Failure (Reduction ρ) := do
  if best = minor then
    return s
  let work ← (Edit.swapRows minor best).apply s.factors.work
  let order ← Storage.exchange s.order minor best
  return { factors := { s.factors with work }, order }

/-- Moves the largest rest into place and reflects it. -/
def Reduction.step (s : Reduction ρ) (minor : Nat) : Except Failure (Reduction ρ) := do
  let best ← largestRest s.factors.work minor
  let s ← s.select minor best
  return { s with factors := ← s.factors.step minor }

/-- Decomposes with a relative threshold for the solver. -/
def ofThreshold (threshold : ρ) (a : MatrixView ρ) :
    Except Failure (RankRevealingQR ρ) := do
  let work ← QR.Factors.transposed a
  let reduction ← (positions 0 (min a.nrows a.ncols)).foldlM Reduction.step
    { factors := { work, diagonal := #[] }, order := Array.range a.ncols }
  return {
    factors := reduction.factors
    permutation := reduction.order
    threshold
    norm := work.frobeniusNorm }

/-- Decomposes with the default threshold. -/
def of (a : MatrixView ρ) : Except Failure (RankRevealingQR ρ) :=
  ofThreshold (RealScalar.ofFloat QR.defaultThreshold) a

/-- The permutation matrix, with its ones at `(permutation[i], i)`. -/
def p (qr : RankRevealingQR ρ) : Except Failure (DenseMatrix ρ) :=
  DenseMatrix.tabulate qr.permutation.size qr.permutation.size fun i j => do
    return if (← Storage.read qr.permutation j) = i then 1 else 0

/-- The orthogonal factor. -/
def q (qr : RankRevealingQR ρ) : Except Failure (DenseMatrix ρ) := do
  (← qr.factors.adjointQ).transpose

/-- The transpose of the orthogonal factor. -/
def qTranspose (qr : RankRevealingQR ρ) : Except Failure (DenseMatrix ρ) :=
  qr.factors.adjointQ

/-- The upper triangular factor. -/
def r (qr : RankRevealingQR ρ) : Except Failure (DenseMatrix ρ) := qr.factors.upper

/-- The vectors of the reflections. -/
def h (qr : RankRevealingQR ρ) : Except Failure (DenseMatrix ρ) := qr.factors.vectors

/-! ### Rank -/

/-- The rank from a candidate on: it grows while the norm of the trailing block,
relative to that of the block before and scaled by the norm of `R`, does not drop
below the threshold. -/
def rankFrom (r : DenseMatrix ρ) (drop norm : ρ) (rank : Nat) (lastNorm : ρ) :
    Except Failure Nat := do
  if _h : rank < min r.nrows r.ncols then
    let block ← r.block rank (r.nrows - 1) rank (r.ncols - 1)
    let thisNorm := block.frobeniusNorm
    if thisNorm == 0 || decide (thisNorm / lastNorm * norm < drop) then
      return rank
    rankFrom r drop norm (rank + 1) thisNorm
  else
    return rank
termination_by min r.nrows r.ncols - rank

/-- The numerical rank: the least candidate is one. -/
def rank (qr : RankRevealingQR ρ) (drop : ρ) : Except Failure Nat := do
  let r ← qr.r
  let norm := r.frobeniusNorm
  rankFrom r drop norm 1 norm

/-! ### Solving -/

/-- A QR solver followed by a permutation of the unknowns. -/
structure Solver (ρ : Type) where
  inner : QR.Solver ρ
  permutation : Array Nat

/-- The solver of a decomposition. -/
def solver (qr : RankRevealingQR ρ) : Solver ρ :=
  { inner := .of qr.factors (qr.threshold * qr.norm)
    permutation := qr.permutation }

/-- Writes row `i` of a solution to row `permutation[i]`. -/
def scatterRows (permutation : Array Nat) (y : DenseMatrix ρ) :
    Except Failure (DenseMatrix ρ) :=
  (positions 0 permutation.size).foldlM (fun x i => do
    let row ← Storage.read permutation i
    let values ← y.rowSlice i
    (Edit.writeBlock row 0 ⟨1, y.ncols, values⟩).apply x)
    (DenseMatrix.zeros y.nrows y.ncols)

/-- Solves for every column; a rank-deficient matrix has no answer. -/
def Solver.solveMatrix (s : Solver ρ) (b : MatrixView ρ) :
    Except Failure (DenseMatrix ρ) := do
  scatterRows s.permutation (← s.inner.solveMatrix b)

instance : LinearSolver (Solver ρ) ρ where
  nrows s := s.inner.factors.nrows
  ncols s := s.inner.factors.ncols
  isNonSingular s := !s.inner.singular
  solveMatrix := Solver.solveMatrix
  inverse s := LinearSolver.solveIdentity s.solveMatrix s.inner.factors.nrows

end RankRevealingQR

end DenseFactor
