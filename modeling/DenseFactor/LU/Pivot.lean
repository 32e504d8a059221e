import DenseFactor.Matrix.Basic

/-!
# DenseFactor.LU.Pivot

Rules that choose the pivot row of a column in an elimination.

Design points:

* A rule sees the partly reduced matrix and answers with a row at or below the
  diagonal, or with `none`: then no row is acceptable, the matrix counts as
  singular and the elimination stops.
* `largestModulus` measures singularity by a threshold. The two rules for fields
  leave it to a predicate that says which elements count as zero.
-/

namespace DenseFactor.LU

variable {α : Type}

/-- Chooses the pivot row of a column. -/
abbrev PivotRule (α : Type) : Type :=
  DenseMatrix α → Nat → Except Failure (Option Nat)

/-- The first row with the largest modulus, unless that modulus is below the
threshold. -/
def largestModulus {ρ : Type} [RealScalar ρ] [EuclideanScalar α ρ] (threshold : ρ) :
    PivotRule α := fun m col => do
  let onDiagonal ← m.entry col col
  let (row, size) ← foldPositions (col + 1) m.nrows
    (col, EuclideanScalar.modulus onDiagonal) fun (row, size) i => do
      let candidate := EuclideanScalar.modulus (← m.entry i col)
      return if size < candidate then (i, candidate) else (row, size)
  return if size < threshold then none else some row

/-- The first row with the largest magnitude, unless its element counts as
zero. -/
def largestMagnitude [FieldScalar α] (isZero : α → Bool) : PivotRule α :=
  fun m col => do
    let (row, _) ← foldPositions col m.nrows (col, -(1 / 0 : Float))
      fun (row, size) i => do
        let candidate := FieldScalar.magnitude (← m.entry i col)
        return if size < candidate then (i, candidate) else (row, size)
    return if isZero (← m.entry row col) then none else some row

/-- The first row whose element does not count as zero. -/
def firstNonZero (isZero : α → Bool) : PivotRule α := fun m col =>
  (positions col m.nrows).findM? fun i => do
    return !isZero (← m.entry i col)

end DenseFactor.LU
