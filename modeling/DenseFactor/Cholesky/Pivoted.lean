import DenseFactor.Matrix.Edit

/-!
# DenseFactor.Cholesky.Pivoted

Pivoted Cholesky decomposition of a positive semidefinite matrix: `A = B · Bᵀ`
with a root `B` of as many columns as the rank.

Design points:

* The largest remaining diagonal entry is eliminated first. The elimination stops
  once it is at most `small`; what is left is then negligible, unless a diagonal
  entry is below `-small`.
* The working matrix is kept in the order of elimination: a pivot moves into place
  by exchanging its row and its column. `order` remembers which row of the matrix
  stands at each position.
* Of each remaining pair of entries the one below the diagonal is read, and both
  are written.
* The root is returned in the row order of the matrix, so it is not triangular in
  general.
-/

namespace DenseFactor

/-- A pivoted Cholesky decomposition. -/
structure PivotedCholesky (ρ : Type) where
  /-- The `n x rank` root. -/
  root : DenseMatrix ρ
  rank : Nat

namespace PivotedCholesky

variable {ρ : Type} [RealScalar ρ]

/-- A state of the elimination. -/
structure Reduction (ρ : Type) where
  /-- The working matrix, in the order of elimination. -/
  work : DenseMatrix ρ
  /-- The root so far, in the same order. -/
  root : DenseMatrix ρ
  /-- The row of the matrix at each position. -/
  order : Array Nat

namespace Reduction

/-- The first position from `r` on with the largest diagonal entry. -/
def largestDiagonal (s : Reduction ρ) (r : Nat) : Except Failure Nat :=
  foldPositions (r + 1) s.order.size r fun best i => do
    return if (← s.work.entry best best) < (← s.work.entry i i) then i else best

/-- Exchanges two positions. -/
def exchange (s : Reduction ρ) (a b : Nat) : Except Failure (Reduction ρ) := do
  if a = b then
    return s
  let other := fun i => if i = a then b else if i = b then a else i
  return {
    work := ← s.work.mapEntries fun i j _ => s.work.entry (other i) (other j)
    root := ← (Edit.swapRows a b).apply s.root
    order := ← Storage.exchange s.order a b }

/-- Whether some diagonal entry from position `r` on is below the negated
bound. -/
def hasNegative (s : Reduction ρ) (r : Nat) (small : ρ) : Except Failure Bool :=
  (positions r s.order.size).anyM fun i => do
    return decide ((← s.work.entry i i) < -small)

/-- The entries below position `r` divided by the root of its diagonal entry. -/
def column (s : Reduction ρ) (r : Nat) (root : ρ) : Except Failure (Array ρ) := do
  let inverse := 1 / root
  Storage.collect s.order.size fun i =>
    if r < i then do return inverse * (← s.work.entry i r)
    else .ok 0

/-- Eliminates position `r`: column `r` of the root, and the working matrix less its
outer product. -/
def eliminate (s : Reduction ρ) (r : Nat) : Except Failure (Reduction ρ) := do
  let pivot ← s.work.entry r r
  let root := RealScalar.sqrt pivot
  let reciprocal := 1 / pivot
  let column ← s.column r root
  let newRoot ← s.root.mapEntries fun i j x =>
    if j = r ∧ i = r then .ok root
    else if j = r ∧ r < i then Storage.read column i
    else .ok x
  let work ← s.work.mapEntries fun i j x =>
    if r < i ∧ r < j then do
      if i = j then
        let below ← s.work.entry i r
        return x - below * below * reciprocal
      let row := max i j
      let col := min i j
      let old ← s.work.entry row col
      return old - (← Storage.read column row) * (← Storage.read column col)
    else .ok x
  return { s with work, root := newRoot }

end Reduction

/-- Eliminates positions in order until the largest remaining diagonal entry is
negligible; answers with the number of eliminated positions. -/
def Reduction.run (small : ρ) :
    List Nat → Reduction ρ → Except Failure (Reduction ρ × Nat)
  | [], s => .ok (s, s.order.size)
  | r :: rest, s => do
    let s ← s.exchange r (← s.largestDiagonal r)
    if (← s.work.entry r r) ≤ small then
      if r = 0 then
        throw .notPositiveDefinite
      if ← s.hasNegative r small then
        throw .notPositiveDefinite
      return (s, r)
    run small rest (← s.eliminate r)

/-- Gives every row of the root so far its place in the matrix, and keeps as many
columns as positions were eliminated. -/
def Reduction.inMatrixOrder (s : Reduction ρ) (rank : Nat) :
    Except Failure (DenseMatrix ρ) :=
  (positions 0 s.order.size).foldlM (fun root i => do
    let row ← Storage.read s.order i
    let values ← s.root.rowSlice i
    (Edit.writeBlock row 0 ⟨1, rank, values.extract 0 rank⟩).apply root)
    (DenseMatrix.zeros s.order.size rank)

/-- Decomposes, with diagonal entries of at most `small` counting as zero. -/
def ofSmall (small : ρ) (a : MatrixView ρ) : Except Failure (PivotedCholesky ρ) := do
  if a.nrows ≠ a.ncols then
    throw (.notSquare a.nrows a.ncols)
  let n := a.nrows
  let start : Reduction ρ :=
    { work := ← DenseMatrix.ofView a, root := .zeros n n, order := Array.range n }
  let (s, rank) ← Reduction.run small (positions 0 n) start
  return { root := ← s.inMatrixOrder rank, rank }

/-- Decomposes, stopping only at diagonal entries that are not positive. -/
def of (a : MatrixView ρ) : Except Failure (PivotedCholesky ρ) := ofSmall 0 a

end PivotedCholesky

end DenseFactor
