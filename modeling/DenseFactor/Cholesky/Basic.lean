import DenseFactor.Solver
import DenseFactor.Matrix.Block
import DenseFactor.Matrix.Product

/-!
# DenseFactor.Cholesky.Basic

Cholesky decomposition `A = L · Lᵀ` of a symmetric positive definite matrix, its
determinant and its solver.

Design points:

* The upper triangle `Lᵀ` is the factor that is stored. The lower triangle of `A`
  is read by the symmetry test alone.
* Symmetry is relative: the difference of a pair is compared with the threshold
  times the larger absolute value. The first pair in row order that fails is
  reported.
* A reduced diagonal entry has to exceed the positivity threshold. The test is
  `threshold < entry`, so a NaN fails it.
* A decomposition that exists is non-singular, and its solver never refuses.
-/

namespace DenseFactor

/-- A Cholesky decomposition. -/
structure Cholesky (ρ : Type) where
  /-- The upper triangular factor `Lᵀ`. -/
  upper : DenseMatrix ρ

namespace Cholesky

variable {ρ : Type} [RealScalar ρ]

/-- The symmetry threshold unless another one is given. -/
def defaultSymmetry : Float := 1e-15

/-- The positivity threshold unless another one is given. -/
def defaultPositivity : Float := 1e-10

/-! ### Factoring -/

/-- Whether two opposite entries differ by more than the threshold times the larger
of their absolute values. -/
def isAsymmetric (threshold x y : ρ) : Bool :=
  decide (threshold * RealScalar.maximum (RealScalar.abs x) (RealScalar.abs y) <
    RealScalar.abs (x - y))

/-- The first position above the diagonal, in row order, whose entry differs too
much from the one across the diagonal. -/
def firstAsymmetry? (m : DenseMatrix ρ) (threshold : ρ) :
    Except Failure (Option (Nat × Nat)) :=
  (positions 0 m.nrows).findSomeM? fun i => do
    let col ← (positions (i + 1) m.nrows).findM? fun j => do
      return isAsymmetric threshold (← m.entry i j) (← m.entry j i)
    return col.map fun j => (i, j)

/-- The matrix with zeros below the diagonal. -/
def upperTriangle (m : DenseMatrix ρ) : Except Failure (DenseMatrix ρ) :=
  m.mapEntries fun i j x => .ok (if j < i then 0 else x)

/-- Replaces row `i` of the upper triangle by the row of the factor, given the root
of its diagonal entry. -/
def scaleRow (m : DenseMatrix ρ) (i : Nat) (root : ρ) : Except Failure (DenseMatrix ρ) :=
  let inverse := 1 / root
  m.mapEntries fun k j x =>
    .ok (if k = i then if j = i then root else if i < j then x * inverse else x else x)

/-- Subtracts the outer product of row `i` of the factor from the triangle below
it. -/
def subtractOuter (m : DenseMatrix ρ) (i : Nat) : Except Failure (DenseMatrix ρ) :=
  m.mapEntries fun q p x =>
    if i < q ∧ q ≤ p then do return x - (← m.entry i q) * (← m.entry i p)
    else .ok x

/-- Factors row `i`, whose diagonal entry has to exceed the threshold. -/
def step (positivity : ρ) (m : DenseMatrix ρ) (i : Nat) :
    Except Failure (DenseMatrix ρ) := do
  let pivot ← m.entry i i
  unless positivity < pivot do
    throw .notPositiveDefinite
  subtractOuter (← scaleRow m i (RealScalar.sqrt pivot)) i

/-- Decomposes with a relative symmetry threshold and an absolute positivity
threshold. -/
def ofThresholds (symmetry positivity : ρ) (a : MatrixView ρ) :
    Except Failure (Cholesky ρ) := do
  if a.nrows ≠ a.ncols then
    throw (.notSquare a.nrows a.ncols)
  let m ← DenseMatrix.ofView a
  if let some (row, col) ← firstAsymmetry? m symmetry then
    throw (.notSymmetric row col)
  let upper ← (positions 0 m.nrows).foldlM (step positivity) (← upperTriangle m)
  return { upper }

/-- Decomposes with the default thresholds. -/
def of (a : MatrixView ρ) : Except Failure (Cholesky ρ) :=
  ofThresholds (RealScalar.ofFloat defaultSymmetry) (RealScalar.ofFloat defaultPositivity) a

/-- The lower triangular factor. -/
def lower (c : Cholesky ρ) : Except Failure (DenseMatrix ρ) := c.upper.transpose

/-- The determinant of the decomposed matrix: the square of the product of the
diagonal of the factor. -/
def det (c : Cholesky ρ) : Except Failure ρ := do
  let product ← foldPositions 0 c.upper.nrows (1 : ρ) fun product i => do
    return product * (← c.upper.entry i i)
  return product * product

/-- The natural logarithm of the determinant. -/
def logDet (c : Cholesky ρ) : Except Failure ρ := do
  let sum ← foldPositions 0 c.upper.nrows (0 : ρ) fun sum i => do
    return sum + RealScalar.log (← c.upper.entry i i)
  return sum + sum

/-! ### Solving -/

/-- Divides row `j` by its diagonal entry. -/
def divideRow (upper x : DenseMatrix ρ) (j : Nat) : Except Failure (DenseMatrix ρ) := do
  let pivot ← upper.entry j j
  x.mapEntries fun i _ old => .ok (if i = j then old / pivot else old)

/-- Solves for row `j` of `L · Y = B` and takes it out of the later rows. -/
def forwardStep (upper x : DenseMatrix ρ) (j : Nat) : Except Failure (DenseMatrix ρ) := do
  let x ← divideRow upper x j
  x.mapEntries fun i c old =>
    if j < i then do return old - (← x.entry j c) * (← upper.entry j i)
    else .ok old

/-- Solves for row `j` of `Lᵀ · X = Y` and takes it out of the earlier rows. -/
def backwardStep (upper x : DenseMatrix ρ) (j : Nat) : Except Failure (DenseMatrix ρ) := do
  let x ← divideRow upper x j
  x.mapEntries fun i c old =>
    if i < j then do return old - (← x.entry j c) * (← upper.entry i j)
    else .ok old

/-- A solver from a Cholesky decomposition. -/
structure Solver (ρ : Type) where
  upper : DenseMatrix ρ

/-- The solver of a decomposition. -/
def solver (c : Cholesky ρ) : Solver ρ := { upper := c.upper }

/-- Solves for every column. -/
def Solver.solveMatrix (s : Solver ρ) (b : MatrixView ρ) :
    Except Failure (DenseMatrix ρ) := do
  let n := s.upper.nrows
  checkRows b n
  let y ← (positions 0 n).foldlM (forwardStep s.upper) (← DenseMatrix.ofView b)
  (positions 0 n).reverse.foldlM (backwardStep s.upper) y

instance : LinearSolver (Solver ρ) ρ where
  nrows s := s.upper.nrows
  ncols s := s.upper.nrows
  isNonSingular _ := true
  solveMatrix := Solver.solveMatrix
  inverse s := LinearSolver.solveIdentity s.solveMatrix s.upper.nrows

end Cholesky

end DenseFactor
