import Mathlib

/-!
# DenseFactor.Proofs.QR.Reflector

The algebra of one **reflection**, real or complex.

Design points:

* `reflector v s` is the matrix `1 + s⁻¹ · v · vᴴ`. If `vᴴ · v = -2 · s` it is Hermitian
  and its own inverse. Where `s` is zero it is the identity, which is the reflection
  that was not made.
* `householder x k` is the vector that takes `x` to a multiple of the unit vector `k`,
  and `pivotProduct x k` the `s` that belongs to it. The multiple is opposite in phase
  to entry `k`, so `s` is zero only if `x` is.
-/

namespace DenseFactor.QR

open scoped Matrix

noncomputable section

variable {𝕜 : Type} [RCLike 𝕜] {m n : ℕ}

/-! ### Reflectors -/

/-- The reflection along `v`, if `vᴴ · v = -2 · s`. -/
def reflector (v : Fin m → 𝕜) (s : 𝕜) : Matrix (Fin m) (Fin m) 𝕜 :=
  1 + s⁻¹ • Matrix.vecMulVec v (star v)

theorem reflector_zero (v : Fin m → 𝕜) : reflector v 0 = 1 := by
  simp [reflector]

/-- Reflecting the columns of a matrix. -/
theorem reflector_mul_apply (v : Fin m → 𝕜) (s : 𝕜) (M : Matrix (Fin m) (Fin n) 𝕜)
    (i : Fin m) (j : Fin n) :
    (reflector v s * M) i j = M i j + (∑ t, star (v t) * M t j) / s * v i := by
  rw [reflector, Matrix.add_mul, Matrix.one_mul, Matrix.smul_mul, Matrix.vecMulVec_mul]
  simp only [Matrix.add_apply, Matrix.smul_apply, Matrix.vecMulVec_apply, Matrix.vecMul,
    dotProduct, Pi.star_apply, smul_eq_mul]
  ring

/-- Reflecting the rows of a matrix. -/
theorem mul_reflector_apply (v : Fin m → 𝕜) (s : 𝕜) (M : Matrix (Fin n) (Fin m) 𝕜)
    (i : Fin n) (j : Fin m) :
    (M * reflector v s) i j = M i j + (∑ t, M i t * v t) / s * star (v j) := by
  rw [reflector, Matrix.mul_add, Matrix.mul_one, Matrix.mul_smul, Matrix.mul_vecMulVec]
  simp only [Matrix.add_apply, Matrix.smul_apply, Matrix.vecMulVec_apply, Matrix.mulVec,
    dotProduct, Pi.star_apply, smul_eq_mul]
  ring

theorem reflector_conjTranspose {v : Fin m → 𝕜} {s : 𝕜} (h : star v ⬝ᵥ v = -2 * s) :
    (reflector v s)ᴴ = reflector v s := by
  have hdot : star (star v ⬝ᵥ v) = star v ⬝ᵥ v := by
    change star (∑ t, star (v t) * v t) = ∑ t, star (v t) * v t
    rw [star_sum]
    refine Finset.sum_congr rfl fun t _ => ?_
    rw [star_mul', star_star, mul_comm]
  have hs : star s = s := by
    rw [h] at hdot
    simpa using hdot
  rw [reflector, Matrix.conjTranspose_add, Matrix.conjTranspose_one,
    Matrix.conjTranspose_smul, Matrix.conjTranspose_vecMulVec, star_star, star_inv₀, hs]

theorem reflector_mul_self {v : Fin m → 𝕜} {s : 𝕜} (h : star v ⬝ᵥ v = -2 * s) :
    reflector v s * reflector v s = 1 := by
  by_cases hs : s = 0
  · rw [hs, reflector_zero, Matrix.one_mul]
  ext i j
  have hsum : ∑ t, star (v t) * reflector v s t j = -star (v j) := by
    have hterm (t : Fin m) : star (v t) * reflector v s t j =
        star (v t) * (1 : Matrix (Fin m) (Fin m) 𝕜) t j +
          star (v t) * v t * (s⁻¹ * star (v j)) := by
      simp only [reflector, Matrix.add_apply, Matrix.smul_apply, Matrix.vecMulVec_apply,
        Pi.star_apply, smul_eq_mul]
      ring
    have hdot : ∑ t, star (v t) * v t = -2 * s := h
    rw [Finset.sum_congr rfl fun t _ => hterm t, Finset.sum_add_distrib, ← Finset.sum_mul, hdot]
    simp only [Matrix.one_apply, mul_ite, mul_one, mul_zero, Finset.sum_ite_eq',
      Finset.mem_univ, if_true]
    field_simp
    ring
  rw [reflector_mul_apply, hsum]
  simp only [reflector, Matrix.add_apply, Matrix.smul_apply, Matrix.vecMulVec_apply,
    Pi.star_apply, smul_eq_mul]
  ring

/-- A reflector is unitary. -/
theorem reflector_unitary {v : Fin m → 𝕜} {s : 𝕜} (h : star v ⬝ᵥ v = -2 * s) :
    (reflector v s)ᴴ * reflector v s = 1 := by
  rw [reflector_conjTranspose h, reflector_mul_self h]

/-! ### The reflection of a vector onto an axis -/

/-- The Euclidean length. -/
def length (x : Fin m → 𝕜) : ℝ := √(∑ i, ‖x i‖ * ‖x i‖)

/-- The entry that stays of a vector of the given length: as long, and opposite in
phase to the head. -/
def newEntry (head : 𝕜) (size : ℝ) : 𝕜 :=
  if 0 < ‖head‖ then 0 - head / (‖head‖ : 𝕜) * (size : 𝕜) else (size : 𝕜)

theorem length_mul_self (x : Fin m → 𝕜) :
    ((length x : 𝕜)) * (length x : 𝕜) = ∑ i, star (x i) * x i := by
  have hnonneg : 0 ≤ ∑ i, ‖x i‖ * ‖x i‖ :=
    Finset.sum_nonneg fun i _ => mul_self_nonneg _
  rw [← RCLike.ofReal_mul, length, Real.mul_self_sqrt hnonneg, RCLike.ofReal_sum]
  refine Finset.sum_congr rfl fun i _ => ?_
  rw [RCLike.star_def, RCLike.conj_mul, RCLike.ofReal_mul, sq]

theorem star_newEntry_mul_head (head : 𝕜) (size : ℝ) :
    star (newEntry head size) * head = -((‖head‖ : 𝕜) * (size : 𝕜)) := by
  unfold newEntry
  by_cases h : 0 < ‖head‖
  · have hne : (‖head‖ : 𝕜) ≠ 0 := by
      exact_mod_cast h.ne'
    have hstar : star head * head = (‖head‖ : 𝕜) * (‖head‖ : 𝕜) := by
      rw [RCLike.star_def, RCLike.conj_mul, sq]
    rw [if_pos h]
    simp only [star_sub, star_mul', star_div₀, star_zero, RCLike.star_def, RCLike.conj_ofReal]
    rw [RCLike.star_def] at hstar
    field_simp
    linear_combination -(size : 𝕜) * hstar
  · have hzero : head = 0 := by
      simpa using h
    simp [hzero]

theorem star_newEntry_mul_self (head : 𝕜) (size : ℝ) :
    star (newEntry head size) * newEntry head size = (size : 𝕜) * (size : 𝕜) := by
  by_cases h : 0 < ‖head‖
  · have hne : (‖head‖ : 𝕜) ≠ 0 := by
      exact_mod_cast h.ne'
    have hself : newEntry head size = -(head / (‖head‖ : 𝕜) * (size : 𝕜)) := by
      rw [newEntry, if_pos h, zero_sub]
    have hhead := star_newEntry_mul_head head size
    calc star (newEntry head size) * newEntry head size
        = -(star (newEntry head size) * head / (‖head‖ : 𝕜) * (size : 𝕜)) := by
          rw [hself]
          ring
      _ = (size : 𝕜) * (size : 𝕜) := by
          rw [hhead]
          field_simp
  · rw [newEntry, if_neg h, RCLike.star_def, RCLike.conj_ofReal]

/-- The vector with zeros before position `k`. -/
def rest (k : ℕ) (x : Fin m → 𝕜) : Fin m → 𝕜 := fun i => if k ≤ (i : ℕ) then x i else 0

@[simp]
theorem rest_self (k : Fin m) (x : Fin m → 𝕜) : rest k x k = x k :=
  if_pos le_rfl

/-- The vector that is reflected away to leave entry `k`. -/
def householder (x : Fin m → 𝕜) (k : Fin m) : Fin m → 𝕜 :=
  x - Pi.single k (newEntry (x k) (length x))

/-- The product of the conjugate of the entry that stays and the head of the vector. -/
def pivotProduct (x : Fin m → 𝕜) (k : Fin m) : 𝕜 :=
  star (newEntry (x k) (length x)) * householder x k k

theorem pivotProduct_eq (x : Fin m → 𝕜) (k : Fin m) :
    pivotProduct x k = -((length x : 𝕜) * ((‖x k‖ : 𝕜) + (length x : 𝕜))) := by
  have hhead := star_newEntry_mul_head (x k) (length x)
  have hself := star_newEntry_mul_self (x k) (length x)
  unfold pivotProduct householder
  rw [Pi.sub_apply, Pi.single_eq_same, mul_sub, hhead, hself]
  ring

theorem star_householder_dot (x : Fin m → 𝕜) (k : Fin m) :
    ∑ i, star (householder x k i) * x i = -pivotProduct x k := by
  have hterm (i : Fin m) : star (householder x k i) * x i =
      star (x i) * x i - if i = k then star (newEntry (x k) (length x)) * x k else 0 := by
    by_cases hi : i = k
    · subst hi
      simp [householder, sub_mul]
    · simp [householder, hi]
  rw [Finset.sum_congr rfl fun i _ => hterm i, Finset.sum_sub_distrib, ← length_mul_self,
    Finset.sum_ite_eq' Finset.univ k, if_pos (Finset.mem_univ k), star_newEntry_mul_head,
    pivotProduct_eq]
  ring

/-- The vector and the product make a reflector. -/
theorem star_householder_dot_self (x : Fin m → 𝕜) (k : Fin m) :
    star (householder x k) ⬝ᵥ householder x k = -2 * pivotProduct x k := by
  have hterm (i : Fin m) : star (householder x k i) * householder x k i =
      star (householder x k i) * x i -
        if i = k then star (householder x k k) * newEntry (x k) (length x) else 0 := by
    by_cases hi : i = k
    · subst hi
      simp [householder, mul_sub]
    · simp [householder, hi]
  have hhead : star (householder x k k) * newEntry (x k) (length x) = pivotProduct x k := by
    have hreal : star (pivotProduct x k) = pivotProduct x k := by
      rw [pivotProduct_eq]
      simp
    rw [← hreal, pivotProduct, star_mul', star_star, mul_comm]
  change ∑ i, star (householder x k i) * householder x k i = _
  rw [Finset.sum_congr rfl fun i _ => hterm i, Finset.sum_sub_distrib, star_householder_dot,
    Finset.sum_ite_eq' Finset.univ k, if_pos (Finset.mem_univ k), hhead]
  ring

theorem householder_rest_of_lt (x : Fin m → 𝕜) {k i : Fin m} (h : i < k) :
    householder (rest k x) k i = 0 := by
  have hout : ¬ (k : ℕ) ≤ i := by omega
  simp [householder, rest, hout, h.ne]

/-- Only a vector of length zero has no entry left. -/
theorem length_eq_zero_of_pivotProduct {x : Fin m → 𝕜} {k : Fin m}
    (h : pivotProduct x k = 0) : length x = 0 := by
  rw [pivotProduct_eq, neg_eq_zero] at h
  have hlength : 0 ≤ length x := Real.sqrt_nonneg _
  have hreal : length x * (‖x k‖ + length x) = 0 := by
    exact_mod_cast h
  rcases mul_eq_zero.1 hreal with hzero | hsum
  · exact hzero
  · have := norm_nonneg (x k)
    linarith

theorem eq_zero_of_length {x : Fin m → 𝕜} (h : length x = 0) : x = 0 := by
  funext i
  have hnonneg : 0 ≤ ∑ i, ‖x i‖ * ‖x i‖ :=
    Finset.sum_nonneg fun i _ => mul_self_nonneg _
  have hsum : ∑ i, ‖x i‖ * ‖x i‖ = 0 := (Real.sqrt_eq_zero hnonneg).1 h
  have hterm := (Finset.sum_eq_zero_iff_of_nonneg fun i _ => mul_self_nonneg ‖x i‖).1 hsum i
    (Finset.mem_univ i)
  simpa using hterm

theorem newEntry_eq_zero_iff (head : 𝕜) (size : ℝ) :
    newEntry head size = 0 ↔ size = 0 := by
  have hself := star_newEntry_mul_self head size
  constructor
  · intro h
    rw [h, mul_zero] at hself
    have hreal : size * size = 0 := by
      exact_mod_cast hself.symm
    exact mul_self_eq_zero.1 hreal
  · intro h
    simp [newEntry, h]

theorem householder_of_length {x : Fin m → 𝕜} (h : length x = 0) (k : Fin m) :
    householder x k = 0 := by
  have hentry : newEntry (x k) (length x) = 0 := (newEntry_eq_zero_iff _ _).2 h
  rw [householder, hentry, Pi.single_zero, sub_zero, eq_zero_of_length h]

/-- The reflector takes the vector to its new entry. -/
theorem add_householder (x : Fin m → 𝕜) (k i : Fin m) :
    x i + (∑ t, star (householder x k t) * x t) / pivotProduct x k * householder x k i =
      if i = k then newEntry (x k) (length x) else 0 := by
  rw [star_householder_dot]
  by_cases hs : pivotProduct x k = 0
  · have hlength := length_eq_zero_of_pivotProduct hs
    have hx := eq_zero_of_length hlength
    have hentry : newEntry (x k) (length x) = 0 := (newEntry_eq_zero_iff _ _).2 hlength
    simp [hs, hentry, congrFun hx i]
  · rw [neg_div, div_self hs]
    by_cases hi : i = k
    · subst hi
      simp [householder]
    · simp [householder, hi]

end

end DenseFactor.QR
