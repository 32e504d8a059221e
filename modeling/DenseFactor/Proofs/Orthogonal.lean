import Mathlib

/-!
# DenseFactor.Proofs.Orthogonal

Real matrices up to **orthogonal transformations**, and how far from each other they are.

Design points:

* Distances are measured by the Frobenius norm. It is Mathlib's norm of that name, and an
  orthogonal factor on either side does not change it.
* `Transforms U V B A δ` is what a sequence of orthogonal steps keeps: `U · B · Vᵀ` is `A`
  up to a distance of `δ`, and `B` has no larger norm than `A`. A step multiplies `U` or `V`
  by an orthogonal matrix and `B` by its transpose; dropping entries of `B` adds their
  absolute values to `δ` and lowers the norm.
* A plane rotation is given by what it does to two columns (`turnColumns`). That there is
  an orthogonal matrix which does this is said once.
-/

namespace DenseFactor

open scoped Matrix

variable {m n r : ℕ}

noncomputable section

/-! ### The Frobenius norm -/

/-- The root of the sum of the squares of the entries. -/
def frobenius (M : Matrix (Fin m) (Fin n) ℝ) : ℝ := √(∑ i, ∑ j, M i j ^ 2)

section Norm

open scoped Matrix.Norms.Frobenius

theorem frobenius_eq_norm (M : Matrix (Fin m) (Fin n) ℝ) : frobenius M = ‖M‖ := by
  rw [Matrix.frobenius_norm_def, frobenius, Real.sqrt_eq_rpow]
  simp

theorem frobenius_add_le (M N : Matrix (Fin m) (Fin n) ℝ) :
    frobenius (M + N) ≤ frobenius M + frobenius N := by
  simp only [frobenius_eq_norm]
  exact norm_add_le M N

theorem frobenius_transpose (M : Matrix (Fin m) (Fin n) ℝ) : frobenius Mᵀ = frobenius M := by
  rw [frobenius_eq_norm, frobenius_eq_norm, Matrix.frobenius_norm_transpose]

theorem frobenius_smul (c : ℝ) (M : Matrix (Fin m) (Fin n) ℝ) :
    frobenius (c • M) = |c| * frobenius M := by
  rw [frobenius_eq_norm, frobenius_eq_norm, norm_smul, Real.norm_eq_abs]

theorem frobenius_zero : frobenius (0 : Matrix (Fin m) (Fin n) ℝ) = 0 := by
  rw [frobenius_eq_norm, norm_zero]

theorem eq_zero_of_frobenius {M : Matrix (Fin m) (Fin n) ℝ} (h : frobenius M ≤ 0) : M = 0 := by
  rw [frobenius_eq_norm] at h
  exact norm_le_zero_iff.1 h

end Norm

/-- An orthogonal factor on the left keeps the norm. -/
theorem frobenius_mul_left {U : Matrix (Fin r) (Fin m) ℝ} (hU : Uᵀ * U = 1)
    (M : Matrix (Fin m) (Fin n) ℝ) : frobenius (U * M) = frobenius M := by
  have htrace {p : ℕ} (N : Matrix (Fin p) (Fin n) ℝ) :
      ∑ i, ∑ j, N i j ^ 2 = (Nᵀ * N).trace := by
    rw [Finset.sum_comm]
    simp only [Matrix.trace, Matrix.diag_apply, Matrix.mul_apply, Matrix.transpose_apply, sq]
  have hproduct : (U * M)ᵀ * (U * M) = Mᵀ * M := by
    rw [Matrix.transpose_mul, Matrix.mul_assoc, ← Matrix.mul_assoc Uᵀ, hU, Matrix.one_mul]
  rw [frobenius, frobenius, htrace, htrace, hproduct]

/-- The transpose of an orthogonal factor on the right keeps the norm. -/
theorem frobenius_mul_right {V : Matrix (Fin r) (Fin n) ℝ} (hV : Vᵀ * V = 1)
    (M : Matrix (Fin m) (Fin n) ℝ) : frobenius (M * Vᵀ) = frobenius M := by
  rw [← frobenius_transpose, Matrix.transpose_mul, Matrix.transpose_transpose,
    frobenius_mul_left hV, frobenius_transpose]

/-- The norm is no more than the absolute values summed. -/
theorem frobenius_le_sum_abs (M : Matrix (Fin m) (Fin n) ℝ) :
    frobenius M ≤ ∑ i, ∑ j, |M i j| := by
  have hsquare : ∑ i, ∑ j, M i j ^ 2 = ∑ z : Fin m × Fin n, |M z.1 z.2| ^ 2 := by
    rw [Fintype.sum_prod_type]
    simp only [sq_abs]
  have hsum : ∑ i, ∑ j, |M i j| = ∑ z : Fin m × Fin n, |M z.1 z.2| := by
    rw [Fintype.sum_prod_type]
  rw [frobenius, hsquare, hsum]
  refine Real.sqrt_le_iff.2 ⟨Finset.sum_nonneg fun z _ => abs_nonneg _, ?_⟩
  exact Finset.sum_sq_le_sq_sum_of_nonneg fun z _ => abs_nonneg _

theorem sq_frobenius (M : Matrix (Fin m) (Fin n) ℝ) : frobenius M ^ 2 = ∑ i, ∑ j, M i j ^ 2 :=
  Real.sq_sqrt (Finset.sum_nonneg fun _ _ => Finset.sum_nonneg fun _ _ => sq_nonneg _)

/-- The norm does not depend on the order of the rows and columns. -/
theorem frobenius_submatrix (M : Matrix (Fin m) (Fin n) ℝ) (σ : Equiv.Perm (Fin m))
    (τ : Equiv.Perm (Fin n)) : frobenius (M.submatrix σ τ) = frobenius M := by
  have hrow (i : Fin m) : ∑ j, M i (τ j) ^ 2 = ∑ j, M i j ^ 2 :=
    Equiv.sum_comp τ fun j => M i j ^ 2
  simp only [frobenius, Matrix.submatrix_apply, hrow]
  rw [Equiv.sum_comp σ fun i => ∑ j, M i j ^ 2]

/-- Some entries of `B` are replaced by zero. -/
def Drops (B B' : Matrix (Fin m) (Fin n) ℝ) : Prop := ∀ i j, B' i j = B i j ∨ B' i j = 0

/-- Dropping entries lowers the norm. -/
theorem Drops.frobenius_le {B B' : Matrix (Fin m) (Fin n) ℝ} (h : Drops B B') :
    frobenius B' ≤ frobenius B := by
  have hentry (i : Fin m) (j : Fin n) : B' i j ^ 2 ≤ B i j ^ 2 := by
    rcases h i j with hkept | hzero
    · rw [hkept]
    · rw [hzero, zero_pow two_ne_zero]
      exact sq_nonneg _
  exact Real.sqrt_le_sqrt
    (Finset.sum_le_sum fun i _ => Finset.sum_le_sum fun j _ => hentry i j)

/-! ### Orthogonal transformations -/

/-- With orthogonal `U` and `V`, the product `U · B · Vᵀ` is `A` up to `δ`, and the norm of `B`
is no larger than that of `A`. -/
structure Transforms (U : Matrix (Fin m) (Fin m) ℝ) (V : Matrix (Fin n) (Fin n) ℝ)
    (B A : Matrix (Fin m) (Fin n) ℝ) (δ : ℝ) : Prop where
  left : Uᵀ * U = 1
  right : Vᵀ * V = 1
  distance : frobenius (A - U * B * Vᵀ) ≤ δ
  norm_le : frobenius B ≤ frobenius A

namespace Transforms

variable {U : Matrix (Fin m) (Fin m) ℝ} {V : Matrix (Fin n) (Fin n) ℝ}
  {B A : Matrix (Fin m) (Fin n) ℝ} {δ : ℝ}

/-- A matrix is transformed into itself. -/
theorem refl (A : Matrix (Fin m) (Fin n) ℝ) : Transforms 1 1 A A 0 where
  left := by rw [Matrix.transpose_one, Matrix.one_mul]
  right := by rw [Matrix.transpose_one, Matrix.one_mul]
  distance := by
    rw [Matrix.transpose_one, Matrix.one_mul, Matrix.mul_one, sub_self, frobenius_zero]
  norm_le := le_rfl

/-- An orthogonal step on the rows. -/
theorem mul_left (h : Transforms U V B A δ) {H : Matrix (Fin m) (Fin m) ℝ} (hH : Hᵀ * H = 1) :
    Transforms (U * H) V (Hᵀ * B) A δ where
  left := by
    rw [Matrix.transpose_mul, Matrix.mul_assoc, ← Matrix.mul_assoc Uᵀ, h.left, Matrix.one_mul, hH]
  right := h.right
  distance := by
    have hproduct : U * H * (Hᵀ * B) = U * B := by
      rw [Matrix.mul_assoc, ← Matrix.mul_assoc H, mul_eq_one_comm.1 hH, Matrix.one_mul]
    rw [hproduct]
    exact h.distance
  norm_le := by
    have horthogonal : Hᵀᵀ * Hᵀ = 1 := by
      rw [Matrix.transpose_transpose, mul_eq_one_comm.1 hH]
    rw [frobenius_mul_left horthogonal]
    exact h.norm_le

/-- An orthogonal step on the columns. -/
theorem mul_right (h : Transforms U V B A δ) {H : Matrix (Fin n) (Fin n) ℝ} (hH : Hᵀ * H = 1) :
    Transforms U (V * H) (B * H) A δ where
  left := h.left
  right := by
    rw [Matrix.transpose_mul, Matrix.mul_assoc, ← Matrix.mul_assoc Vᵀ, h.right, Matrix.one_mul, hH]
  distance := by
    have hproduct : U * (B * H) * (V * H)ᵀ = U * B * Vᵀ := by
      rw [Matrix.transpose_mul, ← Matrix.mul_assoc, ← Matrix.mul_assoc, Matrix.mul_assoc (U * B),
        mul_eq_one_comm.1 hH, Matrix.mul_one]
    rw [hproduct]
    exact h.distance
  norm_le := by
    have horthogonal : Hᵀᵀ * Hᵀ = 1 := by
      rw [Matrix.transpose_transpose, mul_eq_one_comm.1 hH]
    rw [← H.transpose_transpose, frobenius_mul_right horthogonal]
    exact h.norm_le

/-- The columns of the left factor in another order, with the rows between. -/
theorem permute_left (h : Transforms U V B A δ) (σ : Equiv.Perm (Fin m)) :
    Transforms (U.submatrix id σ) V (B.submatrix σ id) A δ where
  left := by
    rw [Matrix.transpose_submatrix, ← Matrix.submatrix_mul _ _ σ id σ Function.bijective_id, h.left,
      Matrix.submatrix_one_equiv]
  right := h.right
  distance := by
    rw [Matrix.submatrix_mul_equiv, Matrix.submatrix_id_id]
    exact h.distance
  norm_le := (frobenius_submatrix B σ 1).trans_le h.norm_le

/-- The columns of the right factor in another order, with the columns between. -/
theorem permute_right (h : Transforms U V B A δ) (σ : Equiv.Perm (Fin n)) :
    Transforms U (V.submatrix id σ) (B.submatrix id σ) A δ where
  left := h.left
  right := by
    rw [Matrix.transpose_submatrix, ← Matrix.submatrix_mul _ _ σ id σ Function.bijective_id,
      h.right, Matrix.submatrix_one_equiv]
  distance := by
    have hproduct : U * B.submatrix id σ * (V.submatrix id σ)ᵀ = U * B * Vᵀ := by
      have hleft : U * B.submatrix id σ = (U * B).submatrix id σ := by
        rw [Matrix.submatrix_mul U B id id σ Function.bijective_id, Matrix.submatrix_id_id]
      rw [hleft, Matrix.transpose_submatrix, Matrix.submatrix_mul_equiv, Matrix.submatrix_id_id]
    rw [hproduct]
    exact h.distance
  norm_le := (frobenius_submatrix B 1 σ).trans_le h.norm_le

/-- What is dropped adds to the distance. -/
theorem drop (h : Transforms U V B A δ) {B' : Matrix (Fin m) (Fin n) ℝ} {ε : ℝ}
    (hdrops : Drops B B') (hB : ∑ i, ∑ j, |B i j - B' i j| ≤ ε) :
    Transforms U V B' A (δ + ε) where
  left := h.left
  right := h.right
  distance := by
    have hsplit : A - U * B' * Vᵀ = (A - U * B * Vᵀ) + U * (B - B') * Vᵀ := by
      rw [Matrix.mul_sub, Matrix.sub_mul]
      abel
    have hchange : frobenius (U * (B - B') * Vᵀ) ≤ ε := by
      rw [frobenius_mul_right h.right, frobenius_mul_left h.left]
      exact (frobenius_le_sum_abs (B - B')).trans hB
    rw [hsplit]
    exact (frobenius_add_le _ _).trans (add_le_add h.distance hchange)
  norm_le := hdrops.frobenius_le.trans h.norm_le

end Transforms

/-! ### Plane rotations -/

/-- Two columns turned into each other. -/
def turnColumns (c s : ℝ) (j k : Fin n) (M : Matrix (Fin m) (Fin n) ℝ) :
    Matrix (Fin m) (Fin n) ℝ :=
  Matrix.of fun i l =>
    if l = j then c * M i j + s * M i k
    else if l = k then c * M i k - s * M i j
    else M i l

/-- Two rows turned into each other. -/
def turnRows (c s : ℝ) (j k : Fin m) (M : Matrix (Fin m) (Fin n) ℝ) :
    Matrix (Fin m) (Fin n) ℝ :=
  (turnColumns c s j k Mᵀ)ᵀ

/-- The matrix that turns two columns. -/
def planeRotation (c s : ℝ) (j k : Fin n) : Matrix (Fin n) (Fin n) ℝ := turnColumns c s j k 1

section Rotation

variable {c s : ℝ} {j k : Fin n}

theorem mul_planeRotation (c s : ℝ) (j k : Fin n) (M : Matrix (Fin m) (Fin n) ℝ) :
    M * planeRotation c s j k = turnColumns c s j k M := by
  ext i l
  rw [Matrix.mul_apply]
  by_cases hj : l = j
  · simp [planeRotation, turnColumns, hj, Matrix.one_apply, mul_add, Finset.sum_add_distrib,
      mul_comm]
  · by_cases hk : l = k
    · subst hk
      simp [planeRotation, turnColumns, hj, Matrix.one_apply, mul_sub, Finset.sum_sub_distrib,
        mul_comm]
    · simp [planeRotation, turnColumns, hj, hk, Matrix.one_apply]

/-- A plane rotation is orthogonal. -/
theorem planeRotation_orthogonal (hcs : c * c + s * s = 1) (hjk : j ≠ k) :
    (planeRotation c s j k)ᵀ * planeRotation c s j k = 1 := by
  rw [mul_planeRotation]
  ext i l
  simp only [planeRotation, turnColumns, Matrix.of_apply, Matrix.transpose_apply, Matrix.one_apply]
  by_cases hlj : l = j
  · by_cases hij : i = j
    · simp [hlj, hij, hjk, hjk.symm, hcs]
    · by_cases hik : i = k
      · simp [hlj, hik, hjk, hjk.symm]
        ring
      · simp [hlj, hij, hik, Ne.symm hij, Ne.symm hik]
  · by_cases hlk : l = k
    · by_cases hij : i = j
      · simp [hlk, hij, hjk, hjk.symm]
        ring
      · by_cases hik : i = k
        · simp [hlk, hik, hjk, hjk.symm]
          linarith
        · simp [hlk, hij, hik, Ne.symm hij, Ne.symm hik, hjk.symm]
    · by_cases hij : i = j
      · simp [hlj, hlk, hij, Ne.symm hlj]
      · by_cases hik : i = k
        · simp [hlj, hlk, hik, hjk.symm, Ne.symm hlk]
        · simp [hlj, hlk, hij, hik, eq_comm]

end Rotation

namespace Transforms

variable {U : Matrix (Fin m) (Fin m) ℝ} {V : Matrix (Fin n) (Fin n) ℝ}
  {B A : Matrix (Fin m) (Fin n) ℝ} {δ c s : ℝ}

/-- Turning two columns of the left factor turns the rows between. -/
theorem turn_left (h : Transforms U V B A δ) (hcs : c * c + s * s = 1) {j k : Fin m}
    (hjk : j ≠ k) : Transforms (turnColumns c s j k U) V (turnRows c s j k B) A δ := by
  have hrows : turnRows c s j k B = (planeRotation c s j k)ᵀ * B := by
    rw [turnRows, ← mul_planeRotation, Matrix.transpose_mul, Matrix.transpose_transpose]
  rw [hrows, ← mul_planeRotation]
  exact h.mul_left (planeRotation_orthogonal hcs hjk)

/-- Turning two columns of the right factor turns the columns between. -/
theorem turn_right (h : Transforms U V B A δ) (hcs : c * c + s * s = 1) {j k : Fin n}
    (hjk : j ≠ k) : Transforms U (turnColumns c s j k V) (turnColumns c s j k B) A δ := by
  rw [← mul_planeRotation, ← mul_planeRotation]
  exact h.mul_right (planeRotation_orthogonal hcs hjk)

end Transforms

end

end DenseFactor
