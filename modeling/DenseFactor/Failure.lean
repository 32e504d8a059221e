import DenseFactor.Decimal.Shortest

/-!
# DenseFactor.Failure

Everything that can keep a request from being answered, as one type of causes.

Design points:

* The **answers of a decomposition** (`notSquare`, `singular`, …) are ordinary
  results for ordinary inputs: a caller handles them.
* The **faults of arithmetic** (`overflow`, `divisionByZero`) come from element
  types whose operations are partial, such as bounded integers and ratios.
* The **faults of use** are positions outside the storage (`outOfBounds`) and
  conditions an operation states about its operands (`misuse`).
* Each cause carries its data; the wording is in `message` alone.
-/

namespace DenseFactor

/-- What is wrong with a list of rows that does not form a matrix. -/
inductive RowDefect
  | noRows
  | noColumns
  | ragged
  deriving DecidableEq, Repr

/-- The reason as a phrase. -/
def RowDefect.reason : RowDefect → String
  | .noRows => "matrix has no rows"
  | .noColumns => "matrix has no columns"
  | .ragged => "rows have different lengths"

/-- Where the elements of a new matrix come from. -/
inductive Buffer
  /-- A run of elements that is copied. -/
  | copied
  /-- A run of elements that is taken over. -/
  | takenOver
  deriving DecidableEq, Repr

/-- The word for the buffer in a message. -/
def Buffer.word : Buffer → String
  | .copied => "slice"
  | .takenOver => "vec"

/-- The operations that combine two matrices entry by entry. -/
inductive Entrywise
  | sum
  | difference
  /-- A sum that replaces its left operand. -/
  | sumInPlace
  /-- A difference that replaces its left operand. -/
  | differenceInPlace
  deriving DecidableEq, Repr

/-- The sign between the operands. -/
def Entrywise.sign : Entrywise → String
  | .sum => "+"
  | .difference => "-"
  | .sumInPlace => "+="
  | .differenceInPlace => "-="

/-- The number of rows and of columns of an operand. -/
structure Shape where
  rows : Nat
  cols : Nat
  deriving DecidableEq, Repr

/-- The shape as `rows x cols` without blanks. -/
def Shape.text (s : Shape) : String := s!"{s.rows}x{s.cols}"

/-- A condition on the operands of an operation that does not hold. -/
inductive Misuse
  /-- A buffer of `length` elements cannot fill the shape. -/
  | bufferLength (buffer : Buffer) (length : Nat) (shape : Shape)
  /-- There is no entry at `(row, col)`. -/
  | noEntry (row col : Nat) (shape : Shape)
  /-- Entry by entry operations need equal shapes. -/
  | unequalShapes (op : Entrywise) (left right : Shape)
  /-- The columns of the left factor are not the rows of the right one. -/
  | product (left right : Shape)
  /-- The columns of the matrix are not the entries of the vector. -/
  | productVector (left : Shape) (length : Nat)
  /-- The factors of `A·Bᵀ` have different numbers of columns. -/
  | productTransposed (left right : Shape)
  /-- The factors of `Aᵀ·B` have different numbers of rows. -/
  | transposedProduct (left right : Shape)
  /-- The inclusive block does not lie in the matrix or is empty. -/
  | noBlock (firstRow lastRow firstCol lastCol : Nat) (shape : Shape)
  /-- A block at `(row, col)` would reach past the matrix. -/
  | blockDoesNotFit (block : Shape) (row col : Nat) (shape : Shape)
  /-- A dot product needs vectors of one length. -/
  | vectorLengths
  deriving DecidableEq, Repr

/-- The condition that failed, as a sentence about the operands. -/
def Misuse.message : Misuse → String
  | .bufferLength buffer length shape =>
    s!"{buffer.word} length {length} does not match {shape.text} matrix"
  | .noEntry row col shape =>
    s!"index ({row}, {col}) out of bounds for {shape.text} matrix"
  | .unequalShapes op left right =>
    s!"dimension mismatch: {left.text} {op.sign} {right.text}"
  | .product left right => s!"dimension mismatch: {left.text} * {right.text}"
  | .productVector left length =>
    s!"dimension mismatch: {left.text} * vector of length {length}"
  | .productTransposed left right =>
    s!"dimension mismatch: {left.text} * ({right.text})ᵀ"
  | .transposedProduct left right =>
    s!"dimension mismatch: ({left.text})ᵀ * {right.text}"
  | .noBlock firstRow lastRow firstCol lastCol shape =>
    s!"block [{firstRow}..={lastRow}, {firstCol}..={lastCol}]" ++
      s!" out of bounds for {shape.text} matrix"
  | .blockDoesNotFit block row col shape =>
    s!"{block.text} block at ({row}, {col}) does not fit in {shape.text} matrix"
  | .vectorLengths => "vector length mismatch"

/-- Why a request has no answer. -/
inductive Failure
  /-- The decomposition needs a square matrix. -/
  | notSquare (rows cols : Nat)
  /-- A right-hand side has the wrong number of rows. -/
  | rowCount (expected got : Nat)
  /-- The matrix is singular within the threshold of its decomposition. -/
  | singular
  | notPositiveDefinite
  /-- The entries at `(row, col)` and `(col, row)` differ too much. -/
  | notSymmetric (row col : Nat)
  /-- A list of rows does not form a matrix. -/
  | malformed (defect : RowDefect)
  /-- An iteration used up its budget. -/
  | noConvergence
  /-- No singular value reaches the cutoff. -/
  | cutoffTooLarge (cutoff largest : Float)
  /-- A position lies outside the stored elements. -/
  | outOfBounds
  /-- A result does not fit its integer type. -/
  | overflow
  | divisionByZero
  | misuse (condition : Misuse)

/-- The cause in words. -/
def Failure.message : Failure → String
  | .notSquare rows cols => s!"matrix is not square: {rows}x{cols}"
  | .rowCount expected got =>
    s!"dimension mismatch: expected {expected}, got {got}"
  | .singular => "matrix is singular"
  | .notPositiveDefinite => "matrix is not positive definite"
  | .notSymmetric row col => s!"matrix is not symmetric at ({row}, {col})"
  | .malformed defect => s!"invalid matrix: {defect.reason}"
  | .noConvergence => "iterative algorithm did not converge"
  | .cutoffTooLarge cutoff largest =>
    "cutoff singular value " ++ Decimal.ofFloat cutoff ++
      " is larger than the largest singular value " ++ Decimal.ofFloat largest
  | .outOfBounds => "position outside the stored elements"
  | .overflow => "integer overflow"
  | .divisionByZero => "division by zero"
  | .misuse condition => condition.message

/-- Whether the cause lies in the arithmetic of the element type. -/
def Failure.isArithmetic : Failure → Bool
  | .overflow | .divisionByZero => true
  | _ => false

/-- Whether the cause is an ordinary answer of a decomposition or a solver, and
neither a fault of arithmetic nor one of use. -/
def Failure.isRefusal : Failure → Bool
  | .outOfBounds | .overflow | .divisionByZero | .misuse _ => false
  | _ => true

end DenseFactor
