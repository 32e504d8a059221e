import Mathlib
import DenseFactor.Proofs.Order
import DenseFactor.Proofs.Scalar.Exact

/-!
# DenseFactor.Proofs.Cholesky.Complement

The algebra of **eliminating a symmetric matrix** row by row.

Design points:

* `complement S k` is what is left of `S` when the multiples of column `k` are taken out
  of all columns. Row and column `k` are zero in it, so the blocks that an elimination
  leaves behind can all have the shape of the matrix.
* As a quadratic form the complement is the matrix, less a square
  (`form_eq_complement_add`), and on vectors with the right entry at `k` the square is
  zero. So taking a complement at a positive pivot neither gains nor loses positivity.
* `PartialFactor A L S k` is the invariant of every elimination here: the first `k`
  columns of `L` are finished, and `A` is their product plus what is left.
-/

namespace DenseFactor

open scoped Matrix

noncomputable section

variable {n : ℕ}

/-! ### Complements -/

/-- The quadratic form of a matrix. -/
def form (S : Matrix (Fin n) (Fin n) ℝ) (x : Fin n → ℝ) : ℝ := x ⬝ᵥ S *ᵥ x

/-- What is left when the multiples of column `k` are taken out of all columns. -/
def complement (S : Matrix (Fin n) (Fin n) ℝ) (k : Fin n) : Matrix (Fin n) (Fin n) ℝ :=
  Matrix.of fun i j => S i j - S i k * S k j / S k k

section Complement

variable {S : Matrix (Fin n) (Fin n) ℝ} {k : Fin n}

theorem complement_apply (S : Matrix (Fin n) (Fin n) ℝ) (k i j : Fin n) :
    complement S k i j = S i j - S i k * S k j / S k k := rfl

theorem complement_isSymm (hS : S.IsSymm) (k : Fin n) : (complement S k).IsSymm := by
  refine Matrix.IsSymm.ext fun i j => ?_
  rw [complement_apply, complement_apply, hS.apply i j, hS.apply k j, hS.apply i k]
  ring

/-- Nothing is left of the row of the pivot. -/
theorem complement_pivot_row (hk : S k k ≠ 0) (j : Fin n) : complement S k k j = 0 := by
  rw [complement_apply, mul_div_cancel_left₀ _ hk, sub_self]

/-- Nothing is left of the column of the pivot. -/
theorem complement_pivot_col (hk : S k k ≠ 0) (i : Fin n) : complement S k i k = 0 := by
  rw [complement_apply, mul_div_cancel_right₀ _ hk, sub_self]

/-- A row without entries stays one. -/
theorem complement_of_row_zero {i : Fin n} (hi : ∀ j, S i j = 0) (j : Fin n) :
    complement S k i j = 0 := by
  rw [complement_apply, hi, hi, zero_mul, zero_div, sub_zero]

/-- A matrix without entries up to the pivot, and with those of the complement after it, is
the complement of a matrix without entries before the pivot. -/
theorem eq_complement {T : Matrix (Fin n) (Fin n) ℝ} (hk : S k k ≠ 0)
    (hS : ∀ i j, i < k ∨ j < k → S i j = 0) (hT : ∀ i j, i ≤ k ∨ j ≤ k → T i j = 0)
    (hrest : ∀ i j, k < i → k < j → T i j = S i j - S i k * S k j / S k k) :
    T = complement S k := by
  ext i j
  rcases lt_trichotomy i k with hi | rfl | hi
  · rw [hT i j (Or.inl hi.le), complement_of_row_zero fun j => hS i j (Or.inl hi)]
  · rw [hT i j (Or.inl le_rfl), complement_pivot_row hk]
  · rcases lt_trichotomy j k with hj | rfl | hj
    · rw [hT i j (Or.inr hj.le), complement_apply, hS i j (Or.inr hj), hS k j (Or.inr hj),
        mul_zero, zero_div, sub_zero]
    · rw [hT i j (Or.inr le_rfl), complement_pivot_col hk]
    · exact hrest i j hi hj

/-- The form is that of the complement and a square. -/
theorem form_eq_complement_add (hS : S.IsSymm) (k : Fin n) (x : Fin n → ℝ) :
    form S x = form (complement S k) x + (S k ⬝ᵥ x) ^ 2 / S k k := by
  have hcol : S.col k = S k := by
    funext i
    exact hS.apply k i
  have hcomplement : complement S k = S - (S k k)⁻¹ • Matrix.vecMulVec (S.col k) (S k) := by
    ext i j
    rw [complement_apply, Matrix.sub_apply, Matrix.smul_apply, Matrix.vecMulVec_apply, smul_eq_mul,
      Matrix.col_apply]
    ring
  unfold form
  rw [hcomplement, hcol, Matrix.sub_mulVec, Matrix.smul_mulVec, Matrix.vecMulVec_mulVec,
    dotProduct_sub, dotProduct_smul, dotProduct_smul, dotProduct_comm x (S k)]
  simp only [smul_eq_mul, MulOpposite.smul_eq_mul_unop, MulOpposite.unop_op]
  ring

/-- A product does not see an entry that meets a zero. -/
theorem dotProduct_update {v : Fin n → ℝ} (hv : v k = 0) (x : Fin n → ℝ) (c : ℝ) :
    v ⬝ᵥ Function.update x k c = v ⬝ᵥ x := by
  refine Finset.sum_congr rfl fun i _ => ?_
  by_cases hi : i = k
  · rw [hi, hv, zero_mul, zero_mul]
  · rw [Function.update_of_ne hi]

/-- The form of the complement does not see the entry at the pivot. -/
theorem form_complement_update (hk : S k k ≠ 0) (x : Fin n → ℝ) (c : ℝ) :
    form (complement S k) (Function.update x k c) = form (complement S k) x := by
  have hmulVec : complement S k *ᵥ Function.update x k c = complement S k *ᵥ x := by
    funext i
    exact dotProduct_update (complement_pivot_col hk i) x c
  have hpivot : (complement S k *ᵥ x) k = 0 := by
    rw [Matrix.mulVec]
    exact Finset.sum_eq_zero fun j _ => mul_eq_zero_of_left (complement_pivot_row hk j) _
  unfold form
  rw [hmulVec, dotProduct_comm, dotProduct_update hpivot, dotProduct_comm]

/-- The vector that differs at the pivot alone and is orthogonal to its row. -/
def cleared (S : Matrix (Fin n) (Fin n) ℝ) (k : Fin n) (x : Fin n → ℝ) : Fin n → ℝ :=
  Function.update x k (x k - S k ⬝ᵥ x / S k k)

theorem dot_cleared (hk : S k k ≠ 0) (x : Fin n → ℝ) : S k ⬝ᵥ cleared S k x = 0 := by
  have hsplit : cleared S k x = x - Pi.single k (S k ⬝ᵥ x / S k k) := by
    funext i
    by_cases hi : i = k
    · subst hi
      simp [cleared]
    · simp [cleared, hi]
  rw [hsplit, dotProduct_sub, dotProduct_single, mul_div_cancel₀ _ hk, sub_self]

/-- The complement is the matrix, on vectors orthogonal to the row of the pivot. -/
theorem form_cleared (hS : S.IsSymm) (hk : S k k ≠ 0) (x : Fin n → ℝ) :
    form S (cleared S k x) = form (complement S k) x := by
  rw [form_eq_complement_add hS k, dot_cleared hk, cleared, form_complement_update hk]
  simp

end Complement

/-! ### Positivity -/

section Positivity

variable {S : Matrix (Fin n) (Fin n) ℝ}

theorem posSemidef_iff_form (hS : S.IsSymm) : S.PosSemidef ↔ ∀ x, 0 ≤ form S x := by
  have hhermitian : S.IsHermitian := hS
  rw [Matrix.posSemidef_iff_dotProduct_mulVec]
  exact ⟨fun h => h.2, fun h => ⟨hhermitian, h⟩⟩

/-- Eliminating a positive pivot keeps and reflects semidefiniteness. -/
theorem posSemidef_complement_iff (hS : S.IsSymm) {k : Fin n} (hk : 0 < S k k) :
    (complement S k).PosSemidef ↔ S.PosSemidef := by
  rw [posSemidef_iff_form (complement_isSymm hS k), posSemidef_iff_form hS]
  constructor
  · intro h x
    rw [form_eq_complement_add hS k]
    have := h x
    positivity
  · intro h x
    rw [← form_cleared hS hk.ne']
    exact h _

/-- The form is positive on all vectors that are zero before position `k`, but the zero
vector. -/
def PositiveFrom (k : ℕ) (S : Matrix (Fin n) (Fin n) ℝ) : Prop :=
  ∀ x : Fin n → ℝ, (∀ i : Fin n, (i : ℕ) < k → x i = 0) → x ≠ 0 → 0 < form S x

theorem positiveFrom_zero_iff (hS : S.IsSymm) : PositiveFrom 0 S ↔ S.PosDef := by
  have hhermitian : S.IsHermitian := hS
  rw [Matrix.posDef_iff_dotProduct_mulVec]
  exact ⟨fun h => ⟨hhermitian, fun x hx => h x (fun i hi => absurd hi (Nat.not_lt_zero _)) hx⟩,
    fun h x _ hx => h.2 hx⟩

/-- After the last position there is no vector left. -/
theorem positiveFrom_all (S : Matrix (Fin n) (Fin n) ℝ) : PositiveFrom n S := by
  intro x hzero hx
  exact absurd (funext fun i => hzero i i.isLt) hx

theorem PositiveFrom.pivot_pos {k : Fin n} (h : PositiveFrom k S) : 0 < S k k := by
  have hform : form S (Pi.single k 1) = S k k := by
    simp [form]
  rw [← hform]
  refine h _ (fun i hi => ?_) ?_
  · have hik : i ≠ k := fun heq => by simp [heq] at hi
    exact Pi.single_eq_of_ne hik 1
  · intro hzero
    have hk := congrFun hzero k
    simp at hk

/-- Eliminating a positive pivot keeps and reflects definiteness of what is left. -/
theorem positiveFrom_complement_iff (hS : S.IsSymm) {k : Fin n} (hk : 0 < S k k) :
    PositiveFrom (k + 1) (complement S k) ↔ PositiveFrom k S := by
  constructor
  · intro h x hbefore hx
    -- without its entry at the pivot the vector is one of the complement, or zero
    have hform : form (complement S k) (Function.update x k 0) = form (complement S k) x :=
      form_complement_update hk.ne' x 0
    rw [form_eq_complement_add hS k, ← hform]
    by_cases hrest : Function.update x k 0 = 0
    · have hsingle : x = Pi.single k (x k) := by
        funext i
        by_cases hi : i = k
        · rw [hi, Pi.single_eq_same]
        · have := congrFun hrest i
          rw [Function.update_of_ne hi] at this
          rw [this, Pi.single_eq_of_ne hi, Pi.zero_apply]
      have hxk : x k ≠ 0 := by
        intro hzero
        rw [hzero, Pi.single_zero] at hsingle
        exact hx hsingle
      have hdot : S k ⬝ᵥ x = S k k * x k := by
        rw [hsingle, dotProduct_single, Pi.single_eq_same]
      rw [hrest, hdot]
      simp only [form, zero_dotProduct, zero_add]
      positivity
    · have hpos : 0 < form (complement S k) (Function.update x k 0) := by
        refine h _ (fun i hi => ?_) hrest
        by_cases hik : i = k
        · rw [hik, Function.update_self]
        · rw [Function.update_of_ne hik]
          exact hbefore i (by omega)
      positivity
  · intro h x hbefore hx
    rw [← form_cleared hS hk.ne']
    refine h _ (fun i hi => ?_) fun hzero => hx ?_
    · have hik : i ≠ k := fun heq => by simp [heq] at hi
      rw [cleared, Function.update_of_ne hik]
      exact hbefore i (by omega)
    · funext i
      by_cases hik : i = k
      · exact hbefore i (by rw [hik]; exact Nat.lt_succ_self _)
      · have := congrFun hzero i
        rwa [cleared, Function.update_of_ne hik] at this

/-- A semidefinite matrix has no entry larger than its largest diagonal entry. -/
theorem abs_le_of_posSemidef (hS : S.PosSemidef) {bound : ℝ} (hbound : ∀ i, S i i ≤ bound)
    (i j : Fin n) : |S i j| ≤ bound := by
  have hsymm : S j i = S i j := hS.isHermitian.apply i j
  have hform (c : ℝ) : form S (Pi.single i 1 + Pi.single j c) =
      S i i + 2 * c * S i j + c * c * S j j := by
    simp only [form, Matrix.mulVec_add, dotProduct_add, add_dotProduct, single_dotProduct,
      Matrix.mulVec_single, Pi.smul_apply, Matrix.col_apply, MulOpposite.smul_eq_mul_unop,
      MulOpposite.unop_op, hsymm]
    ring
  have hnonneg (c : ℝ) : 0 ≤ S i i + 2 * c * S i j + c * c * S j j := by
    rw [← hform]
    exact (posSemidef_iff_form hS.isHermitian).1 hS _
  have hsum := hnonneg 1
  have hdifference := hnonneg (-1)
  have hi := hbound i
  have hj := hbound j
  exact abs_le.2 ⟨by linarith, by linarith⟩

end Positivity

/-! ### Partial factors -/

/-- The first `k` columns of `L` are those of a triangular factor of `A`, and `S` is what
they leave. -/
structure PartialFactor (A L S : Matrix (Fin n) (Fin n) ℝ) (k : ℕ) : Prop where
  symm : S.IsSymm
  /-- Nothing is left of the finished rows. -/
  finished (i j : Fin n) (hi : (i : ℕ) < k) : S i j = 0
  lower (i t : Fin n) (ht : (t : ℕ) < k) (hit : i < t) : L i t = 0
  pivot (t : Fin n) (ht : (t : ℕ) < k) : 0 < L t t
  product (i j : Fin n) :
    A i j = (∑ t : Fin n, if (t : ℕ) < k then L i t * L j t else 0) + S i j

namespace PartialFactor

variable {A L L' S : Matrix (Fin n) (Fin n) ℝ}

/-- Before the first column everything is left. -/
theorem start (hA : A.IsSymm) (L : Matrix (Fin n) (Fin n) ℝ) : PartialFactor A L A 0 where
  symm := hA
  finished _ _ hi := absurd hi (Nat.not_lt_zero _)
  lower _ _ ht := absurd ht (Nat.not_lt_zero _)
  pivot _ ht := absurd ht (Nat.not_lt_zero _)
  product i j := by simp

/-- The next column is that of what is left, scaled by the root of the pivot. -/
theorem step {k : Fin n} (h : PartialFactor A L S k) (hk : 0 < S k k)
    (hkept : ∀ i t : Fin n, t < k → L' i t = L i t) (hcol : ∀ i, L' i k = S i k / √(S k k)) :
    PartialFactor A L' (complement S k) (k + 1) where
  symm := complement_isSymm h.symm k
  finished i j hi := by
    by_cases hik : i = k
    · rw [hik, complement_pivot_row hk.ne']
    · exact complement_of_row_zero (fun j => h.finished i j (by omega)) j
  lower i t ht hit := by
    by_cases htk : t = k
    · subst htk
      rw [hcol, h.finished i t hit, zero_div]
    · have hlt : t < k := by omega
      rw [hkept i t hlt, h.lower i t hlt hit]
  pivot t ht := by
    by_cases htk : t = k
    · subst htk
      rw [hcol]
      positivity
    · have hlt : t < k := by omega
      rw [hkept t t hlt]
      exact h.pivot t hlt
  product i j := by
    have hsum : (∑ t : Fin n, if (t : ℕ) < k then L' i t * L' j t else 0) =
        ∑ t : Fin n, if (t : ℕ) < k then L i t * L j t else 0 := by
      refine Finset.sum_congr rfl fun t _ => ?_
      by_cases ht : (t : ℕ) < k
      · rw [if_pos ht, if_pos ht, hkept i t ht, hkept j t ht]
      · rw [if_neg ht, if_neg ht]
    have hterm : L' i k * L' j k = S i k * S k j / S k k := by
      rw [hcol, hcol, div_mul_div_comm, Real.mul_self_sqrt hk.le, h.symm.apply k j]
    rw [sum_lt_succ, hsum, hterm, h.product i j, complement_apply]
    ring

/-- Exchanging two positions that are left exchanges them everywhere. -/
theorem exchange {k : ℕ} (h : PartialFactor A L S k) {a b : Fin n} (ha : k ≤ (a : ℕ))
    (hb : k ≤ (b : ℕ)) :
    PartialFactor (A.submatrix (Equiv.swap a b) (Equiv.swap a b))
      (L.submatrix (Equiv.swap a b) id) (S.submatrix (Equiv.swap a b) (Equiv.swap a b)) k := by
  have hkept {t : Fin n} (ht : (t : ℕ) < k) : Equiv.swap a b t = t := swap_of_lt ha hb ht
  refine ⟨h.symm.submatrix _, fun i j hi => ?_, fun i t ht hit => ?_, fun t ht => ?_,
    fun i j => h.product _ _⟩
  · exact h.finished _ _ (by rwa [hkept hi])
  · have hi : (i : ℕ) < k := by omega
    rw [Matrix.submatrix_apply, hkept hi]
    exact h.lower i t ht hit
  · rw [Matrix.submatrix_apply, hkept ht]
    exact h.pivot t ht

/-- A finished column of the matrix is a product of the columns up to it. -/
theorem column_eq {k : ℕ} (h : PartialFactor A L S k) {j : Fin n} (hj : (j : ℕ) < k) (i : Fin n) :
    A i j = ∑ t : Fin n, if t ≤ j then L i t * L j t else 0 := by
  rw [h.product i j, h.symm.apply j i, h.finished j i hj, add_zero]
  refine Finset.sum_congr rfl fun t _ => ?_
  by_cases htj : t ≤ j
  · rw [if_pos htj, if_pos (by omega)]
  · rw [if_neg htj]
    by_cases ht : (t : ℕ) < k
    · rw [if_pos ht, h.lower j t ht (not_le.1 htj), mul_zero]
    · rw [if_neg ht]

/-- The finished columns alone. -/
def columns {k : ℕ} (L : Matrix (Fin n) (Fin n) ℝ) (hk : k ≤ n) : Matrix (Fin n) (Fin k) ℝ :=
  L.submatrix id (Fin.castLE hk)

/-- The product of the finished columns falls short of the matrix by what is left. -/
theorem sub_columns {k : ℕ} (h : PartialFactor A L S k) (hk : k ≤ n) :
    A - columns L hk * (columns L hk)ᵀ = S := by
  ext i j
  have hsum : (∑ t : Fin n, if (t : ℕ) < k then L i t * L j t else 0) =
      (columns L hk * (columns L hk)ᵀ) i j := by
    obtain ⟨d, rfl⟩ := Nat.exists_eq_add_of_le hk
    rw [Fin.sum_univ_add, Matrix.mul_apply]
    simp [columns]
    rfl
  rw [Matrix.sub_apply, h.product i j, hsum, add_sub_cancel_left]

/-- When all columns are finished, the factor is complete. -/
theorem mul_transpose (h : PartialFactor A L S n) : L * Lᵀ = A := by
  have hrest : A - L * Lᵀ = S := h.sub_columns le_rfl
  have hzero : S = 0 := by
    ext i j
    exact h.finished i j i.isLt
  exact (sub_eq_zero.1 (hrest.trans hzero)).symm

/-- The finished columns are independent. -/
theorem rank_columns {k : ℕ} (h : PartialFactor A L S k) (hk : k ≤ n) :
    (columns L hk).rank = k := by
  let head : Matrix (Fin k) (Fin k) ℝ := (columns L hk).submatrix (Fin.castLE hk) id
  have hlower : head.IsLowerTriangular := by
    intro i j hij
    exact h.lower _ _ j.isLt hij
  have hdet : head.det ≠ 0 := by
    rw [Matrix.det_of_isLowerTriangular _ hlower]
    exact Finset.prod_ne_zero_iff.2 fun i _ => (h.pivot _ i.isLt).ne'
  have hhead : head.rank = k := by
    rw [Matrix.rank_of_det_ne_zero hdet, Fintype.card_fin]
  refine le_antisymm (Matrix.rank_le_width _) ?_
  calc
    k = head.rank := hhead.symm
    _ ≤ (columns L hk).rank := Matrix.rank_submatrix_le _ _ _

end PartialFactor

end

end DenseFactor
