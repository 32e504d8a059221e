import DenseFactor.Cholesky.Basic
import DenseFactor.LU.Basic
import DenseFactor.QR.RankRevealing
import DenseFactor.SVD.Basic

/-!
# DenseFactor.Method

Ways from a matrix straight to a solver: a **method** is a decomposition with its
settings fixed.

Design points:

* The settings are binary64 numbers for every element type and are rounded to its
  reals when the method is applied. So one method serves matrices over any rounded
  type.
* A setting that is not given is the default of the decomposition.
* A method refuses a matrix as its decomposition does, and the solver it makes is
  the solver of that decomposition.
-/

namespace DenseFactor

/-- Methods of type `μ` that make solvers of type `σ` for matrices over `α`. -/
class SolverMethod (μ α : Type) (σ : outParam Type) where
  /-- Decomposes a matrix and answers with the solver of the decomposition. -/
  solverOf : μ → MatrixView α → Except Failure σ

variable {α ρ : Type}

/-! ### Square matrices -/

/-- LU decomposition over rounded numbers. -/
structure LU.Method where
  threshold : Float := LU.defaultThreshold

instance LU.instSolverMethod [RealScalar ρ] [EuclideanScalar α ρ] :
    SolverMethod LU.Method α (LU.Solver α) where
  solverOf method a := do
    return (← LU.ofThreshold (RealScalar.ofFloat method.threshold) a).solver

/-- LU decomposition over a field, with its test for zero and its choice of
pivots. -/
structure LU.FieldMethod (α : Type) where
  isZero : α → Bool
  /-- Whether the candidate of largest magnitude is the pivot. -/
  numeric : Bool

instance LU.instSolverMethodField [FieldScalar α] :
    SolverMethod (LU.FieldMethod α) α (LU.Solver α) where
  solverOf method a := do
    return (← LU.ofPredicate method.isZero method.numeric a).solver

/-- Cholesky decomposition. -/
structure Cholesky.Method where
  symmetry : Float := Cholesky.defaultSymmetry
  positivity : Float := Cholesky.defaultPositivity

instance Cholesky.instSolverMethod [RealScalar ρ] :
    SolverMethod Cholesky.Method ρ (Cholesky.Solver ρ) where
  solverOf method a := do
    let symmetry := RealScalar.ofFloat method.symmetry
    let positivity := RealScalar.ofFloat method.positivity
    return (← Cholesky.ofThresholds symmetry positivity a).solver

/-! ### Matrices of any shape -/

/-- QR decomposition. -/
structure QR.Method where
  threshold : Float := QR.defaultThreshold

instance QR.instSolverMethod [RealScalar ρ] [EuclideanScalar α ρ] :
    SolverMethod QR.Method α (QR.Solver α) where
  solverOf method a := do
    return (← QR.ofThreshold (RealScalar.ofFloat method.threshold : ρ) a).solver

/-- Rank-revealing QR decomposition. -/
structure RankRevealingQR.Method where
  threshold : Float := QR.defaultThreshold

instance RankRevealingQR.instSolverMethod [RealScalar ρ] :
    SolverMethod RankRevealingQR.Method ρ (RankRevealingQR.Solver ρ) where
  solverOf method a := do
    return (← RankRevealingQR.ofThreshold (RealScalar.ofFloat method.threshold) a).solver

/-- Singular value decomposition; without a tolerance every matrix gets its own
default. -/
structure SVD.Method where
  tolerance? : Option Float := none

instance SVD.instSolverMethod [RealScalar ρ] :
    SolverMethod SVD.Method ρ (SVD.Solver ρ) where
  solverOf method a := do
    (← SVD.ofTolerance? (method.tolerance?.map RealScalar.ofFloat) a).solver

end DenseFactor
