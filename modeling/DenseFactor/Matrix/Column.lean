import DenseFactor.Matrix.Basic

/-!
# DenseFactor.Matrix.Column

Column vectors: a vector of `n` elements is an `n x 1` matrix.

Right-hand sides and solutions of the solvers are column vectors. Read as a
matrix, a vector has one column, and like a matrix it is read by flat position.
-/

namespace DenseFactor

/-- A column vector, stored as a matrix of one column. -/
structure ColumnVector (α : Type) where
  column : DenseMatrix α

namespace ColumnVector

variable {α : Type}

/-- The vector is stored as one well-formed column. -/
def WellFormed (v : ColumnVector α) : Prop :=
  v.column.ncols = 1 ∧ v.column.WellFormed

/-- The number of elements. -/
def length (v : ColumnVector α) : Nat := v.column.nrows

/-- Whether there are no elements. -/
def isEmpty (v : ColumnVector α) : Bool := v.length == 0

/-- The elements in order. -/
def elements (v : ColumnVector α) : Array α := v.column.data

/-- The element at a position. -/
def entry (v : ColumnVector α) (i : Nat) : Except Failure α :=
  Storage.read v.column.data i

/-- The vector as a readable matrix of one column. -/
def view (v : ColumnVector α) : MatrixView α where
  nrows := v.length
  ncols := 1
  entry := v.column.storedAt

/-- The vector of the given elements. -/
def ofArray (data : Array α) : ColumnVector α := ⟨data.size, 1, data⟩

/-- The vector of `n` zeros. -/
def zeros [Scalar α] (n : Nat) : ColumnVector α := ⟨DenseMatrix.zeros n 1⟩

/-- Column `j` of anything readable. -/
def ofColumn (v : MatrixView α) (j : Nat) : Except Failure (ColumnVector α) := do
  let data ← Storage.collect v.nrows fun i => v.entry i j
  return ofArray data

/-- Same length and equal elements. -/
def beq [Scalar α] (v w : ColumnVector α) : Bool := v.column.beq w.column

/-- The sum of the products of corresponding elements, in order. -/
def dot [Scalar α] (v w : ColumnVector α) : Except Failure α := do
  if v.length ≠ w.length then
    throw (.misuse .vectorLengths)
  (v.elements.zip w.elements).foldlM
    (fun sum (x, y) => do Scalar.add sum (← Scalar.mul x y)) Scalar.zero

end ColumnVector

namespace DenseMatrix

variable {α : Type}

/-- Row `i` as a vector. -/
def row (m : DenseMatrix α) (i : Nat) : Except Failure (ColumnVector α) := do
  return .ofArray (← m.rowSlice i)

/-- Column `j` as a vector, read by flat position. -/
def col (m : DenseMatrix α) (j : Nat) : Except Failure (ColumnVector α) :=
  ColumnVector.ofColumn m.view j

end DenseMatrix

end DenseFactor
