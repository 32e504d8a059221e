import DenseFactor.SVD.Rotation

/-!
# DenseFactor.SVD.Bidiagonal

Reduction of a tall matrix to **upper bidiagonal form** `A = U · B · Vᵀ`.

Design points:

* Column `k` is reflected onto the diagonal, then the rest of row `k` onto the
  entry beside it. Every reflection is applied to what is left of the matrix and
  to `U` or `V`, which start as identities.
* A reflection whose vector is too short is skipped. The diagonal or neighbouring
  entry stays as it is, and the entries that should have become zero are left out
  of the form.
* `discarded` adds up the absolute values of all entries that are left out or
  overwritten with zero. It bounds how far the form is from the matrix.
-/

namespace DenseFactor.SVD

/-- An upper bidiagonal matrix with the transformations that lead to it. -/
structure Bidiagonal (ρ : Type) where
  diag : Array ρ
  /-- The entries beside the diagonal, one fewer. -/
  offDiag : Array ρ
  /-- The left transformation (`m x m`). -/
  u : DenseMatrix ρ
  /-- The right transformation (`n x n`). -/
  v : DenseMatrix ρ
  /-- The sum of the absolute values of the entries that were set to zero. -/
  discarded : ρ

variable {ρ : Type} [RealScalar ρ]

namespace Bidiagonal

/-- A state of the reduction: the part of the form that is finished, and the
matrix that is left. -/
structure Reduction (ρ : Type) where
  rest : DenseMatrix ρ
  form : Bidiagonal ρ

/-- The sum of the absolute values of a vector from a coordinate on. -/
def absoluteSum (vector : Nat → Except Failure ρ) (start stop : Nat) :
    Except Failure ρ :=
  foldPositions start stop (0 : ρ) fun sum i => do
    return sum + RealScalar.abs (← vector i)

/-- Reflects column `k` onto the diagonal. -/
def Reduction.reflectColumn (s : Reduction ρ) (k : Nat) :
    Except Failure (Reduction ρ) := do
  let column := fun i => s.rest.entry i k
  match ← Reflection.ofVector? column k s.rest.nrows with
  | some h =>
    return {
      rest := ← h.columns s.rest (k + 1)
      form := { s.form with
        diag := s.form.diag.push h.image
        u := ← h.rows s.form.u 0 } }
  | none =>
    let skipped ← absoluteSum column (k + 1) s.rest.nrows
    return { s with
      form := { s.form with
        diag := s.form.diag.push (← column k)
        discarded := s.form.discarded + skipped } }

/-- Reflects row `k`, without its diagonal entry, onto the entry beside the
diagonal. A row with one entry left is taken as it is. -/
def Reduction.reflectRow (s : Reduction ρ) (k : Nat) : Except Failure (Reduction ρ) := do
  let row := fun j => s.rest.entry k j
  let reflection? ←
    if k + 2 < s.rest.ncols then Reflection.ofVector? row (k + 1) s.rest.ncols
    else pure none
  match reflection? with
  | some h =>
    return {
      rest := ← h.rows s.rest (k + 1)
      form := { s.form with
        offDiag := s.form.offDiag.push h.image
        v := ← h.rows s.form.v 0 } }
  | none =>
    let skipped ← absoluteSum row (k + 2) s.rest.ncols
    return { s with
      form := { s.form with
        offDiag := s.form.offDiag.push (← row (k + 1))
        discarded := s.form.discarded + skipped } }

/-- Finishes column `k` and, if it is not the last, row `k`. -/
def Reduction.step (s : Reduction ρ) (k : Nat) : Except Failure (Reduction ρ) := do
  let s ← s.reflectColumn k
  if k + 1 < s.rest.ncols then s.reflectRow k else return s

/-- The bidiagonal form of a matrix with at least as many rows as columns. -/
def ofTall (a : DenseMatrix ρ) : Except Failure (Bidiagonal ρ) := do
  let form : Bidiagonal ρ := {
    diag := #[]
    offDiag := #[]
    u := ← DenseMatrix.identity a.nrows
    v := ← DenseMatrix.identity a.ncols
    discarded := 0 }
  let s ← (positions 0 a.ncols).foldlM Reduction.step { rest := a, form }
  return s.form

end Bidiagonal

end DenseFactor.SVD
