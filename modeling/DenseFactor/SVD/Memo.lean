import DenseFactor.SVD.Basic

/-!
# DenseFactor.SVD.Memo

A singular value decomposition that **keeps what was computed of it**.

Design points:

* Four matrices are derived from a decomposition: both transposes, the diagonal
  matrix and the pseudo-inverse. Each is computed when it is first asked for and
  read from then on. A computation that fails keeps nothing.
* `solver` asks for the pseudo-inverse and leaves it behind for later. `intoSolver`
  uses the decomposition up: it takes the pseudo-inverse that is kept, and otherwise
  computes one that is not.
-/

namespace DenseFactor.SVD

variable {ρ : Type} [RealScalar ρ]

/-- The matrices that are derived from a decomposition. -/
inductive Derived
  | uTranspose
  | vTranspose
  | diagonal
  | pseudoInverse
  deriving DecidableEq, Repr

/-- Computes a derived matrix. -/
def derive (s : SVD ρ) : Derived → Except Failure (DenseMatrix ρ)
  | .uTranspose => s.uTranspose
  | .vTranspose => s.vTranspose
  | .diagonal => s.diagonal
  | .pseudoInverse => s.pseudoInverse

/-- A decomposition with the derived matrices that were computed so far. -/
structure Memo (ρ : Type) where
  svd : SVD ρ
  kept : Derived → Option (DenseMatrix ρ)

namespace Memo

/-- A decomposition of which nothing was computed yet. -/
def fresh (s : SVD ρ) : Memo ρ where
  svd := s
  kept _ := none

/-- A derived matrix, with the memo in which it is kept. -/
def matrix (m : Memo ρ) (d : Derived) : Except Failure (DenseMatrix ρ × Memo ρ) :=
  match m.kept d with
  | some x => .ok (x, m)
  | none => do
    let x ← m.svd.derive d
    return (x, { m with kept := fun d' => if d' = d then some x else m.kept d' })

/-- The solver of the decomposition, with the memo that keeps its pseudo-inverse. -/
def solver (m : Memo ρ) : Except Failure (Solver ρ × Memo ρ) := do
  let (pseudoInverse, m) ← m.matrix .pseudoInverse
  return ({ pseudoInverse, nonSingular := m.svd.isFullRank }, m)

/-- The solver that takes the place of the decomposition. -/
def intoSolver (m : Memo ρ) : Except Failure (Solver ρ) := do
  let nonSingular := m.svd.isFullRank
  let pseudoInverse ← match m.kept .pseudoInverse with
    | some x => pure x
    | none => m.svd.pseudoInverse
  return { pseudoInverse, nonSingular }

/-- What can be asked of a decomposition that may change the memo. The covariance
asks for the transpose of the right factor. -/
inductive Request
  | matrix (d : Derived)
  | solver
  deriving DecidableEq, Repr

/-- The memo after a request; a request that fails leaves it as it was. -/
def after (m : Memo ρ) : Request → Memo ρ
  | .matrix d =>
    match m.matrix d with
    | .ok (_, m') => m'
    | .error _ => m
  | .solver =>
    match m.solver with
    | .ok (_, m') => m'
    | .error _ => m

end Memo

end DenseFactor.SVD
