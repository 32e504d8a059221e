import Mathlib
import DenseFactor.Matrix.Norm
import DenseFactor.Proofs.Stored

/-!
# DenseFactor.Proofs.Norm

The **norms of a stored matrix**, over exact real or complex elements.

Both pass over the stored elements. What they say of the matrix is said without the order of
these: a Frobenius norm of zero is one of a zero matrix (`frobeniusNorm_eq_zero`), and the
largest modulus is the least bound of all entries (`maxModulus_le_iff`).
-/

namespace DenseFactor

open ExactScalar (value)
open scoped Matrix

variable {α ρ 𝕜 : Type} [RealScalar ρ] [ExactReal ρ] {m n : ℕ}

/-! ### Lists of moduli -/

theorem value_sumSquares (moduli : List ρ) (sum : ρ) :
    value (moduli.foldl (fun sum x => sum + x * x) sum) =
      value sum + (moduli.map fun x => value x * value x).sum := by
  induction moduli generalizing sum with
  | nil => simp
  | cons x moduli ih => simp [ih, add_assoc]

theorem squares_nonneg (moduli : List ρ) :
    ∀ s ∈ moduli.map fun x => value x * value x, 0 ≤ s := by
  rintro s hs
  obtain ⟨x, -, rfl⟩ := List.mem_map.1 hs
  exact mul_self_nonneg _

theorem value_foldl_maximum_le_iff (xs : List ρ) (b : ρ) (c : ℝ) :
    value (xs.foldl RealScalar.maximum b) ≤ c ↔ value b ≤ c ∧ ∀ x ∈ xs, value x ≤ c := by
  induction xs generalizing b with
  | nil => simp
  | cons x xs ih =>
      rw [List.foldl_cons, ih, ExactReal.value_maximum, max_le_iff, List.forall_mem_cons, and_assoc]

section Euclidean

variable [EuclideanScalar α ρ] [RCLike 𝕜] [ExactEuclidean α ρ 𝕜] {a : DenseMatrix α}
  {A : Matrix (Fin m) (Fin n) α}

/-! ### The Frobenius norm -/

theorem DenseMatrix.value_frobeniusNorm (a : DenseMatrix α) :
    value (a.frobeniusNorm (ρ := ρ)) =
      √((a.moduli.map fun x : ρ => value x * value x).sum) := by
  have hsum : value (a.moduli.foldl (fun (sum x : ρ) => sum + x * x) 0) =
      (a.moduli.map fun x : ρ => value x * value x).sum := by
    rw [value_sumSquares, ExactScalar.value_zero', zero_add]
  unfold DenseMatrix.frobeniusNorm
  rw [ExactReal.value_sqrt _ (hsum ▸ List.sum_nonneg (squares_nonneg _)), hsum]

theorem DenseMatrix.frobeniusNorm_nonneg (a : DenseMatrix α) :
    0 ≤ value (a.frobeniusNorm (ρ := ρ)) := by
  rw [a.value_frobeniusNorm]
  exact Real.sqrt_nonneg _

/-- The norm squared is the sum of the squared moduli of the entries. -/
theorem DenseMatrix.Stores.sq_frobeniusNorm (h : a.Stores A) :
    value (a.frobeniusNorm (ρ := ρ)) ^ 2 = ∑ i, ∑ j, ‖value (A i j)‖ ^ 2 := by
  rw [a.value_frobeniusNorm, Real.sq_sqrt (List.sum_nonneg (squares_nonneg _)), moduli,
    List.map_map, h.sum_data]
  simp only [Function.comp_apply, ExactEuclidean.value_modulus, sq]

/-- Only a matrix of zeros has no norm. -/
theorem DenseMatrix.Stores.frobeniusNorm_eq_zero (h : a.Stores A) :
    value (a.frobeniusNorm (ρ := ρ)) = 0 ↔ ∀ i j, value (A i j) = 0 := by
  have hnonneg := squares_nonneg (a.moduli : List ρ)
  rw [a.value_frobeniusNorm, Real.sqrt_eq_zero (List.sum_nonneg hnonneg)]
  constructor
  · intro hsum i j
    have hmem : EuclideanScalar.modulus (A i j) ∈ (a.moduli : List ρ) :=
      List.mem_map_of_mem (Array.mem_toList_iff.2 (h.mem i j))
    have hterm := List.all_zero_of_le_zero_le_of_sum_eq_zero hnonneg hsum (List.mem_map_of_mem hmem)
    rw [mul_self_eq_zero, ExactEuclidean.value_modulus] at hterm
    exact norm_eq_zero.1 hterm
  · intro hzero
    refine List.sum_eq_zero fun s hs => ?_
    obtain ⟨x, hx, rfl⟩ := List.mem_map.1 hs
    obtain ⟨y, hy, rfl⟩ := List.mem_map.1 hx
    obtain ⟨i, j, rfl⟩ := h.exists_of_mem (Array.mem_toList_iff.1 hy)
    rw [ExactEuclidean.value_modulus, hzero i j, norm_zero, mul_zero]

/-- The norm of a multiple. -/
theorem DenseMatrix.Stores.frobeniusNorm_smul {a' : DenseMatrix α} {A' : Matrix (Fin m) (Fin n) α}
    (h : a.Stores A) (h' : a'.Stores A') {c : 𝕜} (hscale : A'.map value = c • A.map value) :
    value (a'.frobeniusNorm (ρ := ρ)) = ‖c‖ * value (a.frobeniusNorm (ρ := ρ)) := by
  have hentry (i : Fin m) (j : Fin n) : value (A' i j) = c * value (A i j) :=
    congrFun (congrFun hscale i) j
  have hnonneg := mul_nonneg (norm_nonneg c) (a.frobeniusNorm_nonneg (ρ := ρ))
  refine (sq_eq_sq₀ a'.frobeniusNorm_nonneg hnonneg).1 ?_
  rw [mul_pow, h.sq_frobeniusNorm, h'.sq_frobeniusNorm]
  simp only [hentry, norm_mul, mul_pow, Finset.mul_sum]

/-! ### The largest modulus -/

theorem maxModulus_le_iff (hA : a.Stores A) (c : ℝ) :
    value (a.maxModulus (ρ := ρ)) ≤ c ↔ 0 ≤ c ∧ ∀ i j, ‖value (A i j)‖ ≤ c := by
  unfold DenseMatrix.maxModulus RealScalar.largest DenseMatrix.moduli
  rw [value_foldl_maximum_le_iff, ExactScalar.value_zero', List.forall_mem_map]
  refine and_congr_right fun _ => ⟨fun h i j => ?_, fun h x hx => ?_⟩
  · rw [← ExactEuclidean.value_modulus]
    exact h _ (Array.mem_toList_iff.2 (hA.mem i j))
  · obtain ⟨i, j, rfl⟩ := hA.exists_of_mem (Array.mem_toList_iff.1 hx)
    exact (ExactEuclidean.value_modulus _).trans_le (h i j)

/-- No entry is larger. -/
theorem norm_le_maxModulus (hA : a.Stores A) (i : Fin m) (j : Fin n) :
    ‖value (A i j)‖ ≤ value (a.maxModulus (ρ := ρ)) :=
  ((maxModulus_le_iff hA _).1 le_rfl).2 i j

/-- Only a zero matrix has no largest entry above zero. -/
theorem maxModulus_pos_iff (hA : a.Stores A) :
    0 < value (a.maxModulus (ρ := ρ)) ↔ A.map value ≠ 0 := by
  rw [← not_le, not_iff_not, maxModulus_le_iff hA]
  constructor
  · intro h
    ext i j
    exact norm_le_zero_iff.1 (h.2 i j)
  · intro h
    refine ⟨le_rfl, fun i j => ?_⟩
    have hij : value (A i j) = 0 := congrFun (congrFun h i) j
    rw [hij, norm_zero]

end Euclidean

end DenseFactor
