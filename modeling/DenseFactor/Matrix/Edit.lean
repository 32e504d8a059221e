import DenseFactor.Matrix.Column

/-!
# DenseFactor.Matrix.Edit

Changes of a matrix **in place**, one stored element after another.

Design points:

* An `Edit` is a state transition that may fail. A failed edit still has a state:
  the elements it changed before it met the failure stay changed.
* `swapRows` and `swapCols` exchange stored elements by flat position and look at
  no shape. `exchangeRows` does the same through reads and writes of entries.
* `apply` runs an edit for its result alone, as the decompositions use it.
-/

namespace DenseFactor

/-- A change of a matrix that may fail part of the way. -/
abbrev Edit (α : Type) : Type → Type := ExceptT Failure (StateM (DenseMatrix α))

namespace Edit

variable {α : Type}

/-- How the edit ends, and the matrix as it leaves it. -/
def perform (edit : Edit α Unit) (m : DenseMatrix α) :
    Except Failure Unit × DenseMatrix α :=
  StateT.run (ExceptT.run edit) m

/-- The matrix after the edit, if the edit succeeds. -/
def apply (edit : Edit α Unit) (m : DenseMatrix α) : Except Failure (DenseMatrix α) :=
  match edit.perform m with
  | (.ok _, after) => .ok after
  | (.error failure, _) => .error failure

/-- Replaces the stored elements by a function of the matrix; a failure changes
nothing. -/
def modifyData (f : DenseMatrix α → Except Failure (Array α)) : Edit α Unit := do
  let m ← get
  match f m with
  | .ok data => set { m with data }
  | .error failure => throw failure

/-- Fails unless the matrix meets a condition. -/
def require (check : DenseMatrix α → Except Failure Unit) : Edit α Unit := do
  match check (← get) with
  | .ok _ => return
  | .error failure => throw failure

/-! ### Single elements -/

/-- Writes the stored element at a flat position. -/
def writeCell (k : Nat) (x : α) : Edit α Unit :=
  modifyData fun m => Storage.write m.data k x

/-- Writes the element at the flat position of an entry. -/
def writeStored (i j : Nat) (x : α) : Edit α Unit :=
  modifyData fun m => Storage.write m.data (i * m.ncols + j) x

/-- Writes an entry of the shape. -/
def writeEntry (i j : Nat) (x : α) : Edit α Unit := do
  require fun m => m.checkEntry i j
  writeStored i j x

/-- Writes element `k` of row `i`. -/
def writeInRow (i k : Nat) (x : α) : Edit α Unit := do
  require fun m => do
    let row ← m.rowSlice i
    if k < row.size then return else throw .outOfBounds
  writeStored i k x

/-! ### Rows and columns -/

/-- Exchanges two rows, element by element in storage. -/
def swapRows (a b : Nat) : Edit α Unit := do
  if a ≠ b then
    let ncols := (← get).ncols
    (positions 0 ncols).forM fun j =>
      modifyData fun m =>
        Storage.exchange m.data (a * m.ncols + j) (b * m.ncols + j)

/-- Exchanges two columns, element by element in storage. -/
def swapCols (a b : Nat) : Edit α Unit := do
  if a ≠ b then
    let nrows := (← get).nrows
    (positions 0 nrows).forM fun i =>
      modifyData fun m =>
        Storage.exchange m.data (i * m.ncols + a) (i * m.ncols + b)

/-- Exchanges two rows by reading both entries of a column before writing them. -/
def exchangeRows (a b : Nat) : Edit α Unit := do
  if a ≠ b then
    let ncols := (← get).ncols
    (positions 0 ncols).forM fun j =>
      modifyData fun m => do
        let x ← m.storedAt a j
        let y ← m.storedAt b j
        let data ← Storage.write m.data (a * m.ncols + j) y
        Storage.write data (b * m.ncols + j) x

/-! ### Whole matrices -/

/-- Replaces every element by the result of an operation, in order, and stops at
the first that fails. -/
def modifyElements (f : Nat → α → Except Failure α) : Edit α Unit := do
  let size := (← get).data.size
  (positions 0 size).forM fun k =>
    modifyData fun m => do
      Storage.write m.data k (← f k (← Storage.read m.data k))

/-- Combines every element with the corresponding one of a matrix of one
shape. -/
def combine [Scalar α] (op : Entrywise) (f : α → α → Except Failure α)
    (n : DenseMatrix α) : Edit α Unit := do
  require fun m =>
    if m.shape = n.shape then .ok ()
    else .error (.misuse (.unequalShapes op m.shape n.shape))
  modifyElements fun k x => do f x (← Storage.read n.data k)

/-- Adds a matrix. -/
def add [Scalar α] (n : DenseMatrix α) : Edit α Unit :=
  combine .sumInPlace Scalar.add n

/-- Subtracts a matrix. -/
def sub [Scalar α] (n : DenseMatrix α) : Edit α Unit :=
  combine .differenceInPlace Scalar.sub n

/-- Multiplies every element by a factor on the right. -/
def scale [Scalar α] (factor : α) : Edit α Unit :=
  modifyElements fun _ x => Scalar.mul x factor

/-- Writes a block with its first entry at `(row, col)`. -/
def writeBlock (row col : Nat) (block : DenseMatrix α) : Edit α Unit := do
  require fun m =>
    if row + block.nrows ≤ m.nrows ∧ col + block.ncols ≤ m.ncols then .ok ()
    else .error (.misuse (.blockDoesNotFit block.shape row col m.shape))
  (positions 0 block.nrows).forM fun i =>
    (positions 0 block.ncols).forM fun j =>
      modifyData fun m => do
        let x ← block.storedAt i j
        Storage.write m.data ((row + i) * m.ncols + (col + j)) x

end Edit

namespace ColumnVector

variable {α : Type}

/-- The vector as an edit of its column leaves it. -/
def edit (v : ColumnVector α) (change : Edit α Unit) :
    Except Failure Unit × ColumnVector α :=
  let (outcome, column) := change.perform v.column
  (outcome, ⟨column⟩)

end ColumnVector

end DenseFactor
