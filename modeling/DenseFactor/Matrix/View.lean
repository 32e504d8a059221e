import DenseFactor.Scalar.Basic

/-!
# DenseFactor.Matrix.View

Anything that can be **read as a matrix**: a shape and a way to look up an entry.

Decompositions and solvers read their input through a view, so they do not depend
on how it is stored. What a view answers outside its shape is its own affair, and
no result may depend on it.
-/

namespace DenseFactor

/-- A readable matrix. -/
structure MatrixView (α : Type) where
  nrows : Nat
  ncols : Nat
  /-- The entry at a row and a column. -/
  entry : Nat → Nat → Except Failure α

namespace MatrixView

variable {α : Type}

/-- Every entry inside the shape can be read. -/
def Readable (v : MatrixView α) : Prop :=
  ∀ i < v.nrows, ∀ j < v.ncols, ∃ x, v.entry i j = .ok x

/-- Two views of one shape that read alike inside it. -/
def Agrees (v w : MatrixView α) : Prop :=
  v.nrows = w.nrows ∧ v.ncols = w.ncols ∧
    ∀ i < v.nrows, ∀ j < v.ncols, v.entry i j = w.entry i j

/-- The last element that a list of cells gives for a position, zero if it gives
none. -/
def lastCell [Scalar α] (cells : List (Nat × Nat × α)) (i j : Nat) : α :=
  match cells.reverse.find? fun (row, col, _) => row == i && col == j with
  | some (_, _, x) => x
  | none => Scalar.zero

/-- A matrix given by some of its cells over a background of zeros. -/
def scattered [Scalar α] (nrows ncols : Nat) (cells : List (Nat × Nat × α)) :
    MatrixView α where
  nrows := nrows
  ncols := ncols
  entry i j := .ok (lastCell cells i j)

end MatrixView

end DenseFactor
