import DenseFactor.LU.Elimination
import DenseFactor.Solver

/-!
# DenseFactor.LU.Basic

LU decomposition `P · A = L · U` of a square matrix, its determinant and its
solver.

Design points:

* A singular matrix decomposes too: it has no factors, its determinant is zero,
  and its solver refuses.
* Over rounded numbers, `ofThreshold` rejects pivots below a threshold. Over a
  field, `ofPredicate` leaves the question to a predicate and chooses either the
  pivot of largest magnitude or the first acceptable one, which keeps the rows in
  their order as far as it can.
* The solver permutes the right-hand sides, then runs both substitutions in place
  on all of them.
-/

namespace DenseFactor

/-- An LU decomposition. -/
structure LU (α : Type) where
  elimination : LU.Elimination α
  /-- The pivot threshold, if singularity was decided by one. -/
  threshold : Option Float

namespace LU

variable {α : Type}

/-- Pivots of smaller modulus make a matrix singular unless another threshold is
given. -/
def defaultThreshold : Float := 1e-11

/-! ### Constructions -/

/-- Decomposes a square matrix by a pivot rule. -/
def ofRule [Scalar α] (rule : PivotRule α) (threshold : Option Float)
    (a : MatrixView α) : Except Failure (LU α) := do
  if a.nrows ≠ a.ncols then
    throw (.notSquare a.nrows a.ncols)
  let elimination ← eliminate rule (← DenseMatrix.ofView a)
  return { elimination, threshold }

/-- Decomposes with the pivot of largest modulus; a modulus below the threshold
makes the matrix singular. -/
def ofThreshold {ρ : Type} [RealScalar ρ] [EuclideanScalar α ρ] (threshold : ρ)
    (a : MatrixView α) : Except Failure (LU α) :=
  ofRule (largestModulus threshold) (some (RealScalar.toFloat threshold)) a

/-- Decomposes with the default threshold. -/
def of {ρ : Type} [RealScalar ρ] [EuclideanScalar α ρ] (a : MatrixView α) :
    Except Failure (LU α) :=
  ofThreshold (RealScalar.ofFloat defaultThreshold : ρ) a

/-- Decomposes over a field, where a predicate says which elements count as zero.
With `numeric` the candidate of largest magnitude is the pivot, without it the
first that does not count as zero. -/
def ofPredicate [FieldScalar α] (isZero : α → Bool) (numeric : Bool)
    (a : MatrixView α) : Except Failure (LU α) :=
  ofRule (if numeric then largestMagnitude isZero else firstNonZero isZero) none a

/-- Decomposes over a field with the exact test for zero. -/
def ofField [FieldScalar α] (a : MatrixView α) : Except Failure (LU α) :=
  ofPredicate Scalar.isZero true a

/-! ### Factors -/

/-- The number of rows of the decomposed matrix. -/
def dim (lu : LU α) : Nat := lu.elimination.packed.nrows

/-- Whether a column was rejected. -/
def isSingular (lu : LU α) : Bool := lu.elimination.singular

/-- Row `i` of `P · A` is row `pivot[i]` of `A`. -/
def pivot (lu : LU α) : Array Nat := lu.elimination.pivot

/-- A square matrix that only a non-singular decomposition has. -/
def factor? (lu : LU α) (entry : Nat → Nat → Except Failure α) :
    Except Failure (Option (DenseMatrix α)) :=
  if lu.isSingular then .ok none
  else do return some (← DenseMatrix.tabulate lu.dim lu.dim entry)

variable [Scalar α]

/-- The unit lower triangular factor. -/
def lower? (lu : LU α) : Except Failure (Option (DenseMatrix α)) :=
  lu.factor? fun i j =>
    if j < i then lu.elimination.packed.entry i j
    else .ok (if i = j then Scalar.one else Scalar.zero)

/-- The upper triangular factor. -/
def upper? (lu : LU α) : Except Failure (Option (DenseMatrix α)) :=
  lu.factor? fun i j =>
    if i ≤ j then lu.elimination.packed.entry i j else .ok Scalar.zero

/-- The permutation matrix, with its ones at `(i, pivot[i])`. -/
def permutation? (lu : LU α) : Except Failure (Option (DenseMatrix α)) :=
  lu.factor? fun i j => do
    return if (← Storage.read lu.pivot i) = j then Scalar.one else Scalar.zero

/-- The determinant: the product of the pivots with the sign of the permutation,
and zero for a singular matrix. -/
def det (lu : LU α) : Except Failure α := do
  if lu.isSingular then
    return Scalar.zero
  let sign ← if lu.elimination.even then pure Scalar.one
    else Scalar.sub Scalar.zero Scalar.one
  foldPositions 0 lu.dim sign fun product i => do
    Scalar.mul product (← lu.elimination.packed.entry i i)

/-! ### Solving -/

/-- Subtracts from the later rows their multiples of row `col`, by the unit lower
triangular factor. -/
def eliminateDown (packed : DenseMatrix α) (x : DenseMatrix α) (col : Nat) :
    Except Failure (DenseMatrix α) :=
  x.mapEntries fun i j old =>
    if col < i then do
      let factor ← packed.entry i col
      if Scalar.isZero factor then return old
      Scalar.sub old (← Scalar.mul (← x.entry col j) factor)
    else .ok old

/-- Divides row `col` by the pivot. -/
def dividePivotRow (packed : DenseMatrix α) (x : DenseMatrix α) (col : Nat) :
    Except Failure (DenseMatrix α) := do
  let pivot ← packed.entry col col
  x.mapEntries fun i _ old => if i = col then Scalar.div old pivot else .ok old

/-- Subtracts from the earlier rows their multiples of row `col`, by the upper
triangular factor. -/
def eliminateUp (packed : DenseMatrix α) (x : DenseMatrix α) (col : Nat) :
    Except Failure (DenseMatrix α) :=
  x.mapEntries fun i j old =>
    if i < col then do
      let factor ← packed.entry i col
      Scalar.sub old (← Scalar.mul (← x.entry col j) factor)
    else .ok old

/-- Solves `L · U · X = P · B` for a permuted right-hand side. -/
def substitute (packed : DenseMatrix α) (n : Nat) (permuted : DenseMatrix α) :
    Except Failure (DenseMatrix α) := do
  let y ← (positions 0 n).foldlM (eliminateDown packed) permuted
  (positions 0 n).reverse.foldlM (fun x col => do
    eliminateUp packed (← dividePivotRow packed x col) col) y

/-- A solver from an LU decomposition. -/
structure Solver (α : Type) where
  packed : DenseMatrix α
  pivot : Array Nat
  singular : Bool

/-- The solver of a decomposition. -/
def solver (lu : LU α) : Solver α :=
  { packed := lu.elimination.packed, pivot := lu.pivot, singular := lu.isSingular }

/-- Solves for every column; a singular matrix has no answer. -/
def Solver.solveMatrix (s : Solver α) (b : MatrixView α) :
    Except Failure (DenseMatrix α) := do
  let n := s.pivot.size
  checkRows b n
  if s.singular then
    throw .singular
  let permuted ← DenseMatrix.tabulate n b.ncols fun i j => do
    b.entry (← Storage.read s.pivot i) j
  substitute s.packed n permuted

instance : LinearSolver (Solver α) α where
  nrows s := s.pivot.size
  ncols s := s.pivot.size
  isNonSingular s := !s.singular
  solveMatrix := Solver.solveMatrix
  inverse s := LinearSolver.solveIdentity s.solveMatrix s.pivot.size

end LU

end DenseFactor
