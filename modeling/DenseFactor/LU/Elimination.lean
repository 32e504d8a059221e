import DenseFactor.LU.Pivot
import DenseFactor.Matrix.Edit

/-!
# DenseFactor.LU.Elimination

Gaussian elimination with row pivoting on a square matrix.

Design points:

* The packed matrix holds both factors: multipliers below the diagonal, the
  reduced rows on and above it. After `k` columns the rows and columns from `k`
  on hold the part still to be reduced.
* A column is reduced in three steps: exchange the pivot row into place, divide
  the entries below the pivot by it (`divideColumn`), and subtract multiples of
  the pivot row from the rows below (`subtractPivotRow`). A zero multiplier
  leaves its row alone.
* A rejected column stops the run. The packed matrix is then only partly reduced
  and marked singular.
-/

namespace DenseFactor.LU

variable {α : Type}

/-- A state of an elimination. -/
structure Elimination (α : Type) where
  /-- The packed matrix. -/
  packed : DenseMatrix α
  /-- The row of the matrix that stands at each position. -/
  pivot : Array Nat
  /-- Whether an even number of exchanges was made. -/
  even : Bool
  /-- Whether a column was rejected. -/
  singular : Bool

/-- Exchanges two positions of the packed matrix and of the row order, and
records the change of parity. -/
def Elimination.exchange (s : Elimination α) (a b : Nat) :
    Except Failure (Elimination α) := do
  if a = b then
    return s
  let packed ← (Edit.exchangeRows a b).apply s.packed
  let pivot ← Storage.exchange s.pivot a b
  return { s with packed, pivot, even := !s.even }

variable [Scalar α]

/-- Divides the entries of a column below the diagonal by the one on it. -/
def divideColumn (col : Nat) (m : DenseMatrix α) : Except Failure (DenseMatrix α) := do
  let pivot ← m.entry col col
  m.mapEntries fun i j x =>
    if col < i ∧ j = col then Scalar.div x pivot else .ok x

/-- Subtracts from every row below the pivot its multiple of the pivot row. -/
def subtractPivotRow (col : Nat) (m : DenseMatrix α) :
    Except Failure (DenseMatrix α) :=
  m.mapEntries fun i j x =>
    if col < i ∧ col < j then do
      let factor ← m.entry i col
      if Scalar.isZero factor then return x
      Scalar.sub x (← Scalar.mul factor (← m.entry col j))
    else .ok x

/-- Reduces one column with the given pivot row. -/
def Elimination.reduce (s : Elimination α) (col pivotRow : Nat) :
    Except Failure (Elimination α) := do
  let s ← s.exchange col pivotRow
  let divided ← divideColumn col s.packed
  let packed ← subtractPivotRow col divided
  return { s with packed }

/-- Reduces columns in order until one is rejected. -/
def Elimination.run (rule : PivotRule α) :
    List Nat → Elimination α → Except Failure (Elimination α)
  | [], s => .ok s
  | col :: rest, s => do
    match ← rule s.packed col with
    | none => return { s with singular := true }
    | some pivotRow => run rule rest (← s.reduce col pivotRow)

/-- Eliminates a square matrix from its first column to its last. -/
def eliminate (rule : PivotRule α) (m : DenseMatrix α) :
    Except Failure (Elimination α) :=
  Elimination.run rule (positions 0 m.nrows)
    { packed := m, pivot := Array.range m.nrows, even := true, singular := false }

end DenseFactor.LU
