import DenseFactor.Matrix.Norm

/-!
# DenseFactor.QR.Reflection

Householder reflections on a **transposed** working copy, and the factors they
leave behind.

Design points:

* Row `k` of the working copy is column `k` of the matrix being factored, so the
  entries that one reflection reads lie side by side.
* A reflection maps the rest `x` of a row to a multiple of the first unit vector.
  The new entry is `-x₀/|x₀|·‖x‖`, opposite in phase to `x₀`, so the head
  `x₀ - entry` of its vector `v` is never the result of a cancellation. Then
  `vᴴ·v = -2·conj entry·v₀`.
* The vector `v` stays in the row it reflected; the new diagonal entries of R are
  kept beside. A zero row makes no reflection and leaves a zero on both.
* `Factors.adjointQ` applies the reflections to the identity in reverse order and
  leaves out those with a zero head.
-/

namespace DenseFactor.QR

open EuclideanScalar

variable {α ρ : Type} [RealScalar ρ] [EuclideanScalar α ρ]

/-- The Euclidean length of a row of the working copy from a position on. -/
def restLength (work : DenseMatrix α) (row start : Nat) : Except Failure ρ := do
  let squares ← foldPositions start work.ncols (0 : ρ) fun sum k => do
    let x ← work.entry row k
    return sum + re (x * conj x)
  return RealScalar.sqrt squares

/-- The diagonal entry that a reflection makes of a row with the given first entry
and length. -/
def diagonalEntry (head : α) (length : ρ) : α :=
  if 0 < modulus head then 0 - head / ofReal (modulus head) * ofReal length
  else ofReal length

/-- The sum of the products of `conj v` and a row, from position `minor` on,
where `v` is row `minor`. -/
def alongVector (work : DenseMatrix α) (minor row : Nat) : Except Failure α :=
  foldPositions minor work.ncols (0 : α) fun sum k => do
    return sum + conj (← work.entry minor k) * (← work.entry row k)

/-- Adds to every later row its multiple of row `minor`. -/
def reflectRows (work : DenseMatrix α) (minor : Nat) (entry : α) :
    Except Failure (DenseMatrix α) := do
  let denominator := conj entry * (← work.entry minor minor)
  let factors ← Storage.collect work.nrows fun row =>
    if minor < row then do return (← alongVector work minor row) / denominator
    else .ok 0
  work.mapEntries fun i j x =>
    if minor < i ∧ minor ≤ j then do
      return x + (← Storage.read factors i) * (← work.entry minor j)
    else .ok x

/-- Reflects row `minor` onto the diagonal and every later row with it. The vector
replaces the row, and the new diagonal entry is returned beside. -/
def reflect (work : DenseMatrix α) (minor : Nat) :
    Except Failure (DenseMatrix α × α) := do
  let length ← restLength work minor minor
  let head ← work.entry minor minor
  let entry := diagonalEntry head length
  if entry == 0 then
    return (work, entry)
  let work ← work.mapEntries fun i j x =>
    .ok (if i = minor ∧ j = minor then head - entry else x)
  return (← reflectRows work minor entry, entry)

/-! ### Factors -/

/-- What the reflections of an `m x n` matrix leave behind. -/
structure Factors (α : Type) where
  /-- The transposed, reflected copy (`n x m`): the vectors on and right of the
  diagonal, the entries of R left of it. -/
  work : DenseMatrix α
  /-- The diagonal of R. -/
  diagonal : Array α

namespace Factors

/-- The number of rows of the factored matrix. -/
def nrows (f : Factors α) : Nat := f.work.ncols

/-- The number of columns of the factored matrix. -/
def ncols (f : Factors α) : Nat := f.work.nrows

/-- The transposed copy of a matrix, not yet reflected. -/
def transposed (a : MatrixView α) : Except Failure (DenseMatrix α) :=
  DenseMatrix.tabulate a.ncols a.nrows fun i j => a.entry j i

/-- Reflects the next row. -/
def step (f : Factors α) (minor : Nat) : Except Failure (Factors α) := do
  let (work, entry) ← reflect f.work minor
  return { work, diagonal := f.diagonal.push entry }

/-- The upper triangular factor (`m x n`). -/
def upper (f : Factors α) : Except Failure (DenseMatrix α) :=
  DenseMatrix.tabulate f.nrows f.ncols fun i j =>
    if i = j then Storage.read f.diagonal i
    else if i < j then f.work.entry j i
    else .ok 0

/-- Applies one reflection to the later rows of a square matrix from the right;
one that was not made changes nothing. -/
def applyReflection (f : Factors α) (q : DenseMatrix α) (minor : Nat) :
    Except Failure (DenseMatrix α) := do
  let head ← f.work.entry minor minor
  if head == 0 then
    return q
  let denominator := conj (← Storage.read f.diagonal minor) * head
  let factors ← Storage.collect q.nrows fun row =>
    if minor ≤ row then do
      let sum ← foldPositions minor f.nrows (0 : α) fun sum k => do
        return sum + (← q.entry row k) * (← f.work.entry minor k)
      return sum / denominator
    else .ok 0
  q.mapEntries fun i j x =>
    if minor ≤ i ∧ minor ≤ j then do
      return x + (← Storage.read factors i) * conj (← f.work.entry minor j)
    else .ok x

/-- The conjugate transpose of the unitary factor (`m x m`). -/
def adjointQ (f : Factors α) : Except Failure (DenseMatrix α) := do
  (positions 0 f.diagonal.size).reverse.foldlM f.applyReflection
    (← DenseMatrix.identity f.nrows)

/-- The vectors of the reflections as columns (`m x n`), each divided by the
negated diagonal entry. -/
def vectors (f : Factors α) : Except Failure (DenseMatrix α) :=
  DenseMatrix.tabulate f.nrows f.ncols fun i j =>
    if j ≤ i then do
      return (← f.work.entry j i) / (0 - (← Storage.read f.diagonal j))
    else .ok 0

/-- Whether some diagonal entry of R has a modulus of at most the limit. -/
def isRankDeficient (f : Factors α) (limit : ρ) : Bool :=
  f.diagonal.any fun x => modulus x ≤ limit

end Factors

end DenseFactor.QR
