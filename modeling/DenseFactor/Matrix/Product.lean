import DenseFactor.Matrix.Column

/-!
# DenseFactor.Matrix.Product

Sums, multiples and products of dense matrices.

Design points:

* Sums and multiples go through the stored elements in order.
* Every product sums its terms from zero in the order of the summed index.
* The plain product leaves out the terms whose left factor is zero; the product
  with a vector and the two products with a transpose form every term. Where all
  entries are finite this makes no difference.
-/

namespace DenseFactor.DenseMatrix

variable {α : Type}

/-- The transpose. -/
def transpose (m : DenseMatrix α) : Except Failure (DenseMatrix α) :=
  tabulate m.ncols m.nrows fun i j => m.entry j i

/-- The conjugate transpose, which is the transpose of a real matrix. -/
def adjoint {ρ : Type} [EuclideanScalar α ρ] (m : DenseMatrix α) :
    Except Failure (DenseMatrix α) :=
  tabulate m.ncols m.nrows fun i j => do return EuclideanScalar.conj (← m.entry j i)

variable [Scalar α]

/-- Combines the elements of two matrices of one shape. -/
def entrywise (op : Entrywise) (combine : α → α → Except Failure α)
    (m n : DenseMatrix α) : Except Failure (DenseMatrix α) := do
  if m.shape ≠ n.shape then
    throw (.misuse (.unequalShapes op m.shape n.shape))
  let data ← (m.data.zip n.data).mapM fun (x, y) => combine x y
  return ⟨m.nrows, m.ncols, data⟩

/-- The sum of two matrices. -/
def add (m n : DenseMatrix α) : Except Failure (DenseMatrix α) :=
  entrywise .sum Scalar.add m n

/-- The difference of two matrices. -/
def sub (m n : DenseMatrix α) : Except Failure (DenseMatrix α) :=
  entrywise .difference Scalar.sub m n

/-- The matrix with every element taken from zero. -/
def neg (m : DenseMatrix α) : Except Failure (DenseMatrix α) := do
  return ⟨m.nrows, m.ncols, ← m.data.mapM (Scalar.sub Scalar.zero)⟩

/-- The matrix with every element multiplied by a factor on the right. -/
def scale (m : DenseMatrix α) (factor : α) : Except Failure (DenseMatrix α) := do
  return ⟨m.nrows, m.ncols, ← m.data.mapM fun x => Scalar.mul x factor⟩

/-- The sum plus the product of two factors. -/
def addProduct (sum x y : α) : Except Failure α := do
  Scalar.add sum (← Scalar.mul x y)

/-- The sum of the products over the positions before `n`. -/
def sumProducts (n : Nat) (left right : Nat → Except Failure α) : Except Failure α :=
  foldPositions 0 n Scalar.zero fun sum k => do
    addProduct sum (← left k) (← right k)

/-- The product of two matrices; a term whose left factor is zero is left out. -/
def mul (m n : DenseMatrix α) : Except Failure (DenseMatrix α) := do
  if m.ncols ≠ n.nrows then
    throw (.misuse (.product m.shape n.shape))
  tabulate m.nrows n.ncols fun i j =>
    foldPositions 0 m.ncols Scalar.zero fun sum k => do
      let x ← m.entry i k
      if Scalar.isZero x then return sum
      addProduct sum x (← n.entry k j)

/-- The product of a matrix and a vector. -/
def mulVector (m : DenseMatrix α) (v : ColumnVector α) :
    Except Failure (ColumnVector α) := do
  if m.ncols ≠ v.length then
    throw (.misuse (.productVector m.shape v.length))
  let data ← Storage.collect m.nrows fun i =>
    sumProducts m.ncols (m.entry i) v.entry
  return .ofArray data

/-- The product `m · nᵀ`. -/
def mulTranspose (m n : DenseMatrix α) : Except Failure (DenseMatrix α) := do
  if m.ncols ≠ n.ncols then
    throw (.misuse (.productTransposed m.shape n.shape))
  tabulate m.nrows n.nrows fun i j => sumProducts m.ncols (m.entry i) (n.entry j)

/-- The product `mᵀ · n`. -/
def transposeMul (m n : DenseMatrix α) : Except Failure (DenseMatrix α) := do
  if m.nrows ≠ n.nrows then
    throw (.misuse (.transposedProduct m.shape n.shape))
  tabulate m.ncols n.ncols fun i j =>
    sumProducts m.nrows (fun k => m.entry k i) (fun k => n.entry k j)

end DenseFactor.DenseMatrix
