import Mathlib

/-!
# DenseFactor.Proofs.LeastSquares

When a solution of `A · X = B` is the **least-squares solution**, over real or complex
numbers.

Design points:

* `IsLeastSquares A B X` says that `X` leaves the least residual in every column and
  that a matrix with another column leaves a larger one there. So there is at most one
  such `X`.
* The normal equations `Aᴴ · (A · X - B) = 0` make the residual orthogonal to every
  change of `A · X`. If the columns of `A` are independent, no change of `X` goes
  unnoticed, and the rest is Pythagoras.
-/

namespace DenseFactor

open scoped Matrix

variable {𝕜 : Type} [RCLike 𝕜] {m n c : ℕ}

/-- The squared Euclidean length of a column. -/
def columnSquare (M : Matrix (Fin m) (Fin c) 𝕜) (j : Fin c) : ℝ := ∑ i, ‖M i j‖ ^ 2

/-- In every column `X` leaves the least residual, and no other column does. -/
def IsLeastSquares (A : Matrix (Fin m) (Fin n) 𝕜) (B : Matrix (Fin m) (Fin c) 𝕜)
    (X : Matrix (Fin n) (Fin c) 𝕜) : Prop :=
  ∀ (Y : Matrix (Fin n) (Fin c) 𝕜) (j : Fin c), (∃ i, Y i j ≠ X i j) →
    columnSquare (A * X - B) j < columnSquare (A * Y - B) j

/-- Pythagoras, for two matrices whose columns are orthogonal in pairs. -/
theorem columnSquare_add {M N : Matrix (Fin m) (Fin c) 𝕜} {j : Fin c}
    (h : (Nᴴ * M) j j = 0) :
    columnSquare (M + N) j = columnSquare M j + columnSquare N j := by
  have hterm (i : Fin m) : ‖(M + N) i j‖ ^ 2 =
      ‖M i j‖ ^ 2 + ‖N i j‖ ^ 2 + 2 * RCLike.re (star (N i j) * M i j) := by
    have hsquare := norm_add_sq (𝕜 := 𝕜) (N i j) (M i j)
    rw [RCLike.inner_apply, mul_comm (M i j), add_comm (N i j)] at hsquare
    rw [Matrix.add_apply, hsquare, RCLike.star_def]
    ring
  have hproduct : ∑ i, star (N i j) * M i j = 0 := h
  have hreal : ∑ i, RCLike.re (star (N i j) * M i j) = 0 := by
    rw [← map_sum, hproduct, map_zero]
  unfold columnSquare
  rw [Finset.sum_congr rfl fun i _ => hterm i, Finset.sum_add_distrib, Finset.sum_add_distrib,
    ← Finset.mul_sum, hreal, mul_zero, add_zero]

theorem columnSquare_pos {M : Matrix (Fin m) (Fin c) 𝕜} {j : Fin c} (h : ∃ i, M i j ≠ 0) :
    0 < columnSquare M j := by
  obtain ⟨i, hi⟩ := h
  refine Finset.sum_pos' (fun _ _ => sq_nonneg _) ⟨i, Finset.mem_univ i, ?_⟩
  have := norm_pos_iff.2 hi
  positivity

/-- Independent columns have no vanishing combination. -/
theorem columnSquare_mul_pos {A : Matrix (Fin m) (Fin n) 𝕜}
    (hA : Function.Injective A.mulVec) {Z : Matrix (Fin n) (Fin c) 𝕜} {j : Fin c}
    (hZ : ∃ i, Z i j ≠ 0) : 0 < columnSquare (A * Z) j := by
  have hcolumn : A.mulVec (Z.col j) ≠ 0 := by
    intro hzero
    obtain ⟨i, hi⟩ := hZ
    have hcol : Z.col j = 0 := hA (hzero.trans (Matrix.mulVec_zero A).symm)
    exact hi (congrFun hcol i)
  obtain ⟨i, hi⟩ := Function.ne_iff.1 hcolumn
  exact columnSquare_pos ⟨i, hi⟩

/-- The normal equations have the least-squares solution alone. -/
theorem isLeastSquares_of_normal {A : Matrix (Fin m) (Fin n) 𝕜}
    (hA : Function.Injective A.mulVec) {B : Matrix (Fin m) (Fin c) 𝕜}
    {X : Matrix (Fin n) (Fin c) 𝕜} (h : Aᴴ * (A * X - B) = 0) : IsLeastSquares A B X := by
  intro Y j hY
  have hsplit : A * Y - B = (A * X - B) + A * (Y - X) := by
    rw [Matrix.mul_sub]
    abel
  have horthogonal : (A * (Y - X))ᴴ * (A * X - B) = 0 := by
    rw [Matrix.conjTranspose_mul, Matrix.mul_assoc, h, Matrix.mul_zero]
  have hpos : 0 < columnSquare (A * (Y - X)) j := by
    obtain ⟨i, hi⟩ := hY
    exact columnSquare_mul_pos hA ⟨i, sub_ne_zero.2 hi⟩
  rw [hsplit, columnSquare_add (congrFun (congrFun horthogonal j) j)]
  exact lt_add_of_pos_right _ hpos

end DenseFactor
