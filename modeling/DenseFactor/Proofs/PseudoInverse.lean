import Mathlib
import DenseFactor.Proofs.LeastSquares

/-!
# DenseFactor.Proofs.PseudoInverse

The **pseudo-inverse** of a real matrix, and what it says about `A · X = B`.

Design points:

* `IsPseudoInverse A P` is the four Penrose equations. `IsMinNormSolution A B X` says that
  `X` comes before every other matrix if one looks at the residual of a column first and at
  its length second, so there is one such `X` at most. The first gives the second with
  `X = P · B`, for every `B`.
* `spectral U V d` is the sum of `dᵢ · uᵢ · vᵢᵀ`. With orthonormal columns these sums
  multiply term by term, and everything asked of them is asked of the numbers `dᵢ`.
-/

namespace DenseFactor

open scoped Matrix

variable {m n p c : ℕ}

/-- The four Penrose equations. -/
structure IsPseudoInverse (A : Matrix (Fin m) (Fin n) ℝ) (P : Matrix (Fin n) (Fin m) ℝ) :
    Prop where
  mul_mul_self : A * P * A = A
  mul_mul_inverse : P * A * P = P
  transpose_mul : (A * P)ᵀ = A * P
  transpose_inverse_mul : (P * A)ᵀ = P * A

/-- Every matrix with another column leaves a larger residual there, or the same residual
with a longer column. -/
def IsMinNormSolution (A : Matrix (Fin m) (Fin n) ℝ) (B : Matrix (Fin m) (Fin c) ℝ)
    (X : Matrix (Fin n) (Fin c) ℝ) : Prop :=
  ∀ (Y : Matrix (Fin n) (Fin c) ℝ) (j : Fin c), (∃ i, Y i j ≠ X i j) →
    columnSquare (A * X - B) j < columnSquare (A * Y - B) j ∨
      columnSquare (A * X - B) j = columnSquare (A * Y - B) j ∧
        columnSquare X j < columnSquare Y j

/-! ### Least squares -/

/-- Pythagoras, for real matrices. -/
theorem columnSquare_add_of_transpose {M N : Matrix (Fin m) (Fin c) ℝ} {j : Fin c}
    (h : (Nᵀ * M) j j = 0) : columnSquare (M + N) j = columnSquare M j + columnSquare N j := by
  refine columnSquare_add ?_
  rwa [Matrix.conjTranspose_eq_transpose_of_trivial]

namespace IsPseudoInverse

variable {A : Matrix (Fin m) (Fin n) ℝ} {P : Matrix (Fin n) (Fin m) ℝ}

/-- The residual of `P · B` is orthogonal to everything that `A` reaches. -/
theorem residual_orthogonal (h : IsPseudoInverse A P) (B : Matrix (Fin m) (Fin c) ℝ) :
    Aᵀ * (A * (P * B) - B) = 0 := by
  have hself : Aᵀ * (A * P) = Aᵀ := by
    rw [← h.transpose_mul, ← Matrix.transpose_mul, h.mul_mul_self]
  rw [Matrix.mul_sub, ← Matrix.mul_assoc A, ← Matrix.mul_assoc, hself, sub_self]

/-- A column that `A` does not see is orthogonal to that of `P · B`. -/
theorem kernel_orthogonal (h : IsPseudoInverse A P) (B : Matrix (Fin m) (Fin c) ℝ)
    {Z : Matrix (Fin n) (Fin c) ℝ} {j : Fin c} (hZ : ∀ i, (A * Z) i j = 0) :
    (Zᵀ * (P * B)) j j = 0 := by
  have hproduct : Zᵀ * (P * B) = (A * Z)ᵀ * (Pᵀ * (P * B)) := by
    calc
      Zᵀ * (P * B) = Zᵀ * (P * A * P * B) := by rw [h.mul_mul_inverse]
      _ = Zᵀ * ((P * A)ᵀ * (P * B)) := by rw [h.transpose_inverse_mul, Matrix.mul_assoc (P * A)]
      _ = (A * Z)ᵀ * (Pᵀ * (P * B)) := by
        rw [Matrix.transpose_mul, Matrix.transpose_mul, Matrix.mul_assoc, Matrix.mul_assoc]
  rw [hproduct, Matrix.mul_apply]
  refine Finset.sum_eq_zero fun i _ => ?_
  rw [Matrix.transpose_apply, hZ i, zero_mul]

/-- **The pseudo-inverse gives the least-squares solution of minimum norm.** -/
theorem isMinNormSolution (h : IsPseudoInverse A P) (B : Matrix (Fin m) (Fin c) ℝ) :
    IsMinNormSolution A B (P * B) := by
  intro Y j hY
  obtain ⟨Z, rfl⟩ : ∃ Z, Y = P * B + Z := ⟨Y - P * B, (add_sub_cancel _ _).symm⟩
  have hZ : ∃ i, Z i j ≠ 0 := hY.imp fun i hi hzero => hi (by rw [Matrix.add_apply, hzero, add_zero])
  have hsplit : A * (P * B + Z) - B = (A * (P * B) - B) + A * Z := by
    rw [Matrix.mul_add]
    abel
  have horthogonal : (A * Z)ᵀ * (A * (P * B) - B) = 0 := by
    rw [Matrix.transpose_mul, Matrix.mul_assoc, h.residual_orthogonal, Matrix.mul_zero]
  have hresidual := columnSquare_add_of_transpose (congrFun (congrFun horthogonal j) j)
  rw [hsplit, hresidual]
  by_cases hkernel : ∀ i, (A * Z) i j = 0
  · right
    have hnone : columnSquare (A * Z) j = 0 :=
      Finset.sum_eq_zero fun i _ => by rw [hkernel i, norm_zero, zero_pow two_ne_zero]
    have hlength := columnSquare_add_of_transpose (h.kernel_orthogonal B hkernel)
    rw [hnone, add_zero, hlength]
    exact ⟨rfl, lt_add_of_pos_right _ (columnSquare_pos hZ)⟩
  · left
    exact lt_add_of_pos_right _ (columnSquare_pos (not_forall.1 hkernel))

end IsPseudoInverse

/-! ### Sums of outer products -/

/-- The sum of the outer products of two families of columns, each with its factor. -/
def spectral (U : Matrix (Fin m) (Fin p) ℝ) (V : Matrix (Fin n) (Fin p) ℝ) (d : Fin p → ℝ) :
    Matrix (Fin m) (Fin n) ℝ :=
  U * Matrix.diagonal d * Vᵀ

section Spectral

variable {U : Matrix (Fin m) (Fin p) ℝ} {V : Matrix (Fin n) (Fin p) ℝ} {d e : Fin p → ℝ}

theorem spectral_eq_sum (U : Matrix (Fin m) (Fin p) ℝ) (V : Matrix (Fin n) (Fin p) ℝ)
    (d : Fin p → ℝ) : spectral U V d = ∑ i, d i • Matrix.vecMulVec (U.col i) (V.col i) := by
  ext a b
  rw [spectral, Matrix.mul_apply, Matrix.sum_apply]
  refine Finset.sum_congr rfl fun i _ => ?_
  rw [Matrix.mul_diagonal, Matrix.transpose_apply, Matrix.smul_apply, Matrix.vecMulVec_apply,
    Matrix.col_apply, Matrix.col_apply, smul_eq_mul]
  ring

theorem spectral_transpose : (spectral U V d)ᵀ = spectral V U d := by
  rw [spectral, spectral, Matrix.transpose_mul, Matrix.transpose_mul, Matrix.transpose_transpose,
    Matrix.diagonal_transpose, Matrix.mul_assoc]

/-- With orthonormal columns between them, two sums multiply term by term. -/
theorem spectral_mul (hV : Vᵀ * V = 1) {r : ℕ} (W : Matrix (Fin r) (Fin p) ℝ) :
    spectral U V d * spectral V W e = spectral U W fun i => d i * e i := by
  calc
    spectral U V d * spectral V W e =
        U * Matrix.diagonal d * (Vᵀ * V) * Matrix.diagonal e * Wᵀ := by
      simp only [spectral, Matrix.mul_assoc]
    _ = spectral U W fun i => d i * e i := by
      rw [hV, Matrix.mul_one, Matrix.mul_assoc U, Matrix.diagonal_mul_diagonal, spectral]

/-- The sum of the outer products whose factor exceeds `t`. -/
noncomputable def truncated (t : ℝ) (U : Matrix (Fin m) (Fin p) ℝ) (V : Matrix (Fin n) (Fin p) ℝ)
    (d : Fin p → ℝ) : Matrix (Fin m) (Fin n) ℝ :=
  ∑ i with t < d i, d i • Matrix.vecMulVec (U.col i) (V.col i)

theorem truncated_eq_spectral (t : ℝ) (U : Matrix (Fin m) (Fin p) ℝ)
    (V : Matrix (Fin n) (Fin p) ℝ) (d : Fin p → ℝ) :
    truncated t U V d = spectral U V fun i => if t < d i then d i else 0 := by
  rw [truncated, spectral_eq_sum, Finset.sum_filter]
  refine Finset.sum_congr rfl fun i _ => ?_
  by_cases hi : t < d i
  · simp [hi]
  · simp [hi]

/-- Inverting the factors that are not zero gives the pseudo-inverse. -/
theorem isPseudoInverse_spectral (hU : Uᵀ * U = 1) (hV : Vᵀ * V = 1)
    (hd : ∀ i, d i * e i * d i = d i) (he : ∀ i, e i * d i * e i = e i) :
    IsPseudoInverse (spectral U V d) (spectral V U e) where
  mul_mul_self := by rw [spectral_mul hV, spectral_mul hU, funext hd]
  mul_mul_inverse := by rw [spectral_mul hU, spectral_mul hV, funext he]
  transpose_mul := by rw [spectral_mul hV, spectral_transpose]
  transpose_inverse_mul := by rw [spectral_mul hU, spectral_transpose]

/-- Between orthonormal columns the rank is the number of factors that are not zero. -/
theorem rank_spectral (hU : Uᵀ * U = 1) (hV : Vᵀ * V = 1) :
    (spectral U V d).rank = Fintype.card { i // d i ≠ 0 } := by
  rw [← Matrix.rank_diagonal]
  refine le_antisymm ?_ ?_
  · exact (Matrix.rank_mul_le_left _ _).trans (Matrix.rank_mul_le_right _ _)
  · have hback : Matrix.diagonal d = Uᵀ * spectral U V d * V := by
      calc
        Matrix.diagonal d = Uᵀ * U * Matrix.diagonal d * (Vᵀ * V) := by
          rw [hU, hV, Matrix.one_mul, Matrix.mul_one]
        _ = Uᵀ * spectral U V d * V := by simp only [spectral, Matrix.mul_assoc]
    calc
      (Matrix.diagonal d).rank = (Uᵀ * spectral U V d * V).rank := by rw [← hback]
      _ ≤ (Uᵀ * spectral U V d).rank := Matrix.rank_mul_le_left _ _
      _ ≤ (spectral U V d).rank := Matrix.rank_mul_le_right _ _

end Spectral

end DenseFactor
