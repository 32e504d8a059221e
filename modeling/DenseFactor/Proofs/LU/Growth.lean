import Mathlib
import DenseFactor.Proofs.LU.Factorization
import DenseFactor.Proofs.Norm
import DenseFactor.Proofs.Scalar.Real

/-!
# DenseFactor.Proofs.LU.Growth

How much the entries **grow** in an elimination that takes the largest pivot of each column,
over exact real or complex elements.

Design points:

* `Bounded t M k W` is what `k` columns of such an elimination keep: the multipliers so far
  have a modulus of at most one, the pivots one of at least `t`, and a row has doubled its
  bound `M` at most once for every column it was reduced by.
* The rows that are left have all been reduced equally often, so an exchange of two of them
  changes nothing (`Bounded.exchange`). It makes the pivot the largest of its column, and that
  is what bounds the next multipliers (`Bounded.reduce`).
-/

namespace DenseFactor.LU

open ExactScalar (value)

/-! ### The bounds -/

section Bounds

variable {𝕜 : Type} [RCLike 𝕜] {n : ℕ}

/-- The bounds of a packed matrix whose first `k` columns are reduced. -/
structure Bounded (t M : ℝ) (k : ℕ) (W : Matrix (Fin n) (Fin n) 𝕜) : Prop where
  multiplier (i j : Fin n) (hj : (j : ℕ) < k) (hij : j < i) : ‖W i j‖ ≤ 1
  pivot (i : Fin n) (hi : (i : ℕ) < k) : t ≤ ‖W i i‖
  entry (i j : Fin n) (hij : min (i : ℕ) k ≤ j) : ‖W i j‖ ≤ 2 ^ min (i : ℕ) k * M

namespace Bounded

variable {t M : ℝ} {W W' : Matrix (Fin n) (Fin n) 𝕜} {col row : Fin n}

theorem start (hM : ∀ i j, ‖W i j‖ ≤ M) : Bounded t M 0 W where
  multiplier _ _ hj := absurd hj (Nat.not_lt_zero _)
  pivot _ hi := absurd hi (Nat.not_lt_zero _)
  entry i j _ := by
    rw [Nat.min_zero, pow_zero, one_mul]
    exact hM i j

/-- An exchange of two rows that are left. -/
theorem exchange (h : Bounded t M col W) (hrow : col ≤ row) :
    Bounded t M col (W.submatrix (Equiv.swap col row) id) := by
  have hside (i : Fin n) : min (Equiv.swap col row i : ℕ) col = min (i : ℕ) col := by
    rcases lt_or_ge (i : ℕ) col with hi | hi
    · rw [swap_of_lt le_rfl hrow hi]
    · rw [min_eq_right hi, min_eq_right ((le_swap_iff le_rfl hrow i).2 hi)]
  refine ⟨fun i j hj hij => ?_, fun i hi => ?_, fun i j hij => ?_⟩
  · exact h.multiplier _ j hj ((le_swap_iff hj (hj.trans_le hrow) i).2 hij)
  · rw [Matrix.submatrix_apply, swap_of_lt le_rfl hrow hi]
    exact h.pivot i hi
  · rw [← hside i] at hij ⊢
    exact h.entry _ j hij

/-- Reducing a column by the largest of its entries that are left. -/
theorem reduce (h : Bounded t M col W) (ht : 0 < t) (hpivot : t ≤ ‖W col col‖)
    (hlargest : ∀ i, col < i → ‖W i col‖ ≤ ‖W col col‖) (hreduced : Packed.Reduced col W W') :
    Bounded t M (col + 1) W' := by
  have hmultiplier (i : Fin n) (hi : col < i) : ‖W' i col‖ ≤ 1 := by
    have hpos : 0 < ‖W col col‖ := ht.trans_le hpivot
    refine le_of_mul_le_mul_right ?_ hpos
    calc
      ‖W' i col‖ * ‖W col col‖ = ‖W i col‖ := by rw [← norm_mul, hreduced.multiplier i hi]
      _ ≤ 1 * ‖W col col‖ := (hlargest i hi).trans_eq (one_mul _).symm
  refine ⟨fun i j hj hij => ?_, fun i hi => ?_, fun i j hij => ?_⟩
  · by_cases hlast : j = col
    · rw [hlast]
      exact hmultiplier i (hlast ▸ hij)
    · rw [hreduced.kept i j (Or.inr (by omega))]
      exact h.multiplier i j (by omega) hij
  · rw [hreduced.kept i i (Or.inl (by omega))]
    by_cases hlast : i = col
    · rw [hlast]
      exact hpivot
    · exact h.pivot i (by omega)
  · by_cases hi : i ≤ col
    · have hmin : min (i : ℕ) (col + 1) = min (i : ℕ) col := by omega
      rw [hmin] at hij ⊢
      rw [hreduced.kept i j (Or.inl hi)]
      exact h.entry i j hij
    · have hdone : min (i : ℕ) col = col := by omega
      have hnext : min (i : ℕ) (col + 1) = col + 1 := by omega
      have hj : col < j := by omega
      have hself : ‖W i j‖ ≤ 2 ^ (col : ℕ) * M := by
        have hentry := h.entry i j (by omega)
        rwa [hdone] at hentry
      have htop : ‖W col j‖ ≤ 2 ^ (col : ℕ) * M := by
        have hentry := h.entry col j (by omega)
        rwa [min_self] at hentry
      rw [hnext, hreduced.remainder i j (not_le.1 hi) hj]
      calc
        ‖W i j - W' i col * W col j‖ ≤ ‖W i j‖ + ‖W' i col‖ * ‖W col j‖ := by
          rw [← norm_mul]
          exact norm_sub_le _ _
        _ ≤ ‖W i j‖ + 1 * ‖W col j‖ := by
          gcongr
          exact hmultiplier i (not_le.1 hi)
        _ ≤ 2 ^ (col : ℕ) * M + 1 * (2 ^ (col : ℕ) * M) := by gcongr
        _ = 2 ^ ((col : ℕ) + 1) * M := by ring

/-- The bounds of the lower factor. -/
theorem lowerPart_le (h : Bounded t M n W) (i j : Fin n) : ‖Packed.lowerPart W i j‖ ≤ 1 := by
  rw [Packed.lowerPart, Matrix.of_apply]
  by_cases hji : j < i
  · rw [if_pos hji]
    exact h.multiplier i j j.isLt hji
  · by_cases hij : i = j
    · simp [hij]
    · simp [hij, hji]

/-- The bounds of the upper factor. -/
theorem upperPart_le (h : Bounded t M n W) (hM : 0 ≤ M) (i j : Fin n) :
    ‖Packed.upperPart W i j‖ ≤ 2 ^ (i : ℕ) * M := by
  rw [Packed.upperPart, Matrix.of_apply]
  by_cases hij : i ≤ j
  · rw [if_pos hij]
    have hentry := h.entry i j (by omega)
    rwa [min_eq_left i.isLt.le] at hentry
  · rw [if_neg hij, norm_zero]
    positivity

end Bounded

end Bounds

/-! ### Decompositions -/

section Decompositions

variable {α ρ 𝕜 : Type} [RealScalar ρ] [ExactReal ρ] [EuclideanScalar α ρ] [RCLike 𝕜]
  [ExactEuclidean α ρ 𝕜] {n : ℕ} {col row : Fin n} {W W' : Matrix (Fin n) (Fin n) α} {t M : ℝ}

/-- A step that takes the largest pivot. -/
theorem Bounded.step (h : Bounded t M col (W.map value)) (ht : 0 < t) (hrow : col ≤ row)
    (hpivot : t ≤ ‖value (W row col)‖)
    (hlargest : ∀ i, col ≤ i → ‖value (W i col)‖ ≤ ‖value (W row col)‖)
    (hreduced : ReducesColumn col (W.submatrix (Equiv.swap col row) id) W') :
    Bounded t M (col + 1) (W'.map value) := by
  have hhead : W.submatrix (Equiv.swap col row) id col col = W row col := by simp
  have hne : value (W row col) ≠ 0 := norm_pos_iff.1 (ht.trans_le hpivot)
  refine (h.exchange hrow).reduce ht ?_ (fun i hi => ?_) (hreduced.reduced fun _ _ => ?_)
  · rw [Matrix.submatrix_apply, Equiv.swap_apply_left]
    exact hpivot
  · rw [Matrix.submatrix_apply, Matrix.submatrix_apply, Equiv.swap_apply_left]
    exact hlargest _ ((le_swap_iff le_rfl hrow i).2 hi.le)
  · rw [hhead]
    exact hne

end Decompositions

/-- Over exact real or complex elements every square matrix has a decomposition for a threshold
above zero. If no column was rejected, no entry of the lower factor has a modulus above one, no
pivot has one below the threshold, and in row `i` of the upper factor no entry has one above
the largest modulus of the matrix, doubled `i` times. -/
theorem ofThreshold_growth {α ρ 𝕜 : Type} [RealScalar ρ] [ExactReal ρ] [EuclideanScalar α ρ]
    [RCLike 𝕜] [ExactEuclidean α ρ 𝕜] {n : ℕ} {A : Matrix (Fin n) (Fin n) α} {a : MatrixView α}
    (ha : a.Shows A) {threshold : ρ} (hthreshold : 0 < value threshold) :
    ∃ (lu : LU α) (dense : DenseMatrix α), ofThreshold threshold a = .ok lu ∧
      (DenseMatrix.ofView a = .ok dense ∧ dense.Stores A) ∧
      (lu.isSingular = false → ∃ (l u : DenseMatrix α) (L U : Matrix (Fin n) (Fin n) α),
        (lu.lower? = .ok (some l) ∧ l.Stores L) ∧ (lu.upper? = .ok (some u) ∧ u.Stores U) ∧
        (∀ i j, ‖value (L i j)‖ ≤ 1) ∧ (∀ i, value threshold ≤ ‖value (U i i)‖) ∧
        ∀ i j, ‖value (U i j)‖ ≤ 2 ^ (i : ℕ) * value (dense.maxModulus (ρ := ρ))) := by
  obtain ⟨dense, hdense, hA⟩ := Ends.never_iff.1 ha.ofView
  have hlargest := norm_le_maxModulus (ρ := ρ) hA
  have hnonneg := ((maxModulus_le_iff (ρ := ρ) hA _).1 le_rfl).1
  obtain ⟨lu, hlu, σ, W, hfinished⟩ := Ends.never_iff.1 <|
    ends_ofRule (D := fun _ => True) failsBy_total (selects_largestModulus_exact threshold)
      (fun _ _ _ _ => trivial) ha (I := fun k _ W =>
        Bounded (value threshold) (value (dense.maxModulus (ρ := ρ))) k (W.map value))
      (Bounded.start hlargest)
      (fun col row σ W W' hrow hP hI hreduced =>
        hI.step hthreshold hrow (hP.1 row rfl).1 (hP.1 row rfl).2 hreduced)
      (some (RealScalar.toFloat threshold))
  refine ⟨lu, dense, hlu, ⟨hdense, hA⟩, fun hs => ?_⟩
  have hbounded := hfinished.complete hs
  obtain ⟨_, hl, l, L, rfl, hL, hLW⟩ := Ends.never_iff.1 (ends_lower? hfinished.holds hs)
  obtain ⟨_, hu, u, U, rfl, hU, hUW⟩ := Ends.never_iff.1 (ends_upper? hfinished.holds hs)
  have hlower (i j : Fin n) : value (L i j) = Packed.lowerPart (W.map value) i j :=
    congrFun (congrFun hLW i) j
  have hupper (i j : Fin n) : value (U i j) = Packed.upperPart (W.map value) i j :=
    congrFun (congrFun hUW i) j
  refine ⟨l, u, L, U, ⟨hl, hL⟩, ⟨hu, hU⟩, fun i j => ?_, fun i => ?_, fun i j => ?_⟩
  · rw [hlower]
    exact hbounded.lowerPart_le i j
  · rw [hupper, Packed.upperPart_diag]
    exact hbounded.pivot i i.isLt
  · rw [hupper]
    exact hbounded.upperPart_le hnonneg i j

/-- A matrix whose entries have modulus one and whose last pivot is two. -/
def doubling : Matrix (Fin 2) (Fin 2) ℝ := !![1, 1; -1, 1]

theorem norm_doubling (i j : Fin 2) : ‖doubling i j‖ = 1 := by
  fin_cases i <;> fin_cases j <;> simp [doubling]

/-- Either row of `doubling` may lead in the first column, with the same last pivot. -/
theorem Packed.Reduced.doubling {row : Fin 2} {W : Matrix (Fin 2) (Fin 2) ℝ}
    (h : Packed.Reduced 0 (doubling.submatrix (Equiv.swap 0 row) id) W) : W 1 1 = 2 := by
  have hmultiplier := h.multiplier 1 (by decide)
  have hremainder := h.remainder 1 1 (by decide) (by decide)
  fin_cases row
  · simp [LU.doubling] at hmultiplier hremainder
    linarith
  · simp [LU.doubling] at hmultiplier hremainder
    linarith

/-- The elimination of `doubling` rejects no column. -/
theorem exists_decomposition_doubling :
    letI := exactReal 1 1
    letI := exactReal.exact 1 1
    ∃ (lu : LU ℝ) (σ : Equiv.Perm (Fin 2)) (W : Matrix (Fin 2) (Fin 2) ℝ),
      ofThreshold (1 : ℝ) (.ofMatrix doubling) = .ok lu ∧ lu.isSingular = false ∧
        lu.elimination.Holds σ W ∧ W 1 1 = 2 := by
  let := exactReal 1 1
  let := exactReal.exact 1 1
  have hfirst {row : Fin 2} {W : Matrix (Fin 2) (Fin 2) ℝ}
      (h : ReducesColumn 0 (doubling.submatrix (Equiv.swap 0 row) id) W) : W 1 1 = 2 := by
    refine (h.reduced fun _ _ => ?_).doubling
    have hpivot : ‖doubling.submatrix (Equiv.swap 0 row) id 0 0‖ = 1 := norm_doubling _ _
    exact norm_pos_iff.1 (hpivot ▸ one_pos)
  obtain ⟨lu, hlu, σ, W, hfinished⟩ := Ends.never_iff.1 <|
    ends_ofRule (D := fun _ => True) failsBy_total (selects_largestModulus_exact (1 : ℝ))
      (fun _ _ _ _ => trivial) (MatrixView.ofMatrix_shows doubling)
      (I := fun k _ W => (k = 0 → W = doubling) ∧ (k ≠ 0 → W 1 1 = 2))
      ⟨fun _ => rfl, fun h => absurd rfl h⟩ (fun col row σ W W' hrow _ hI hreduced => by
        refine ⟨fun h => absurd h (Nat.succ_ne_zero _), fun _ => ?_⟩
        by_cases hcol : col = 0
        · subst hcol
          obtain rfl := hI.1 rfl
          exact hfirst hreduced
        · obtain rfl : col = 1 := by omega
          obtain rfl : row = 1 := by omega
          rw [hreduced.kept 1 1 (Or.inl le_rfl), Equiv.swap_self]
          exact hI.2 one_ne_zero) (some (RealScalar.toFloat (1 : ℝ)))
  have hs : lu.isSingular = false := by
    by_contra hsingular
    obtain ⟨col, hI, hrejected⟩ := hfinished.rejected (Bool.not_eq_false _ ▸ hsingular)
    have hsmall : ‖W col col‖ < 1 := hrejected.2 rfl col le_rfl
    by_cases hcol : col = 0
    · subst hcol
      rw [hI.1 rfl, norm_doubling] at hsmall
      exact lt_irrefl _ hsmall
    · obtain rfl : col = 1 := by omega
      rw [hI.2 one_ne_zero] at hsmall
      norm_num at hsmall
  exact ⟨lu, σ, W, hlu, hs, hfinished.holds, (hfinished.complete hs).2 two_ne_zero⟩

/-- The decomposition of `doubling` attains the bound. -/
theorem ofThreshold_growth_attained :
    letI := exactReal 1 1
    letI := exactReal.exact 1 1
    ∃ (lu : LU ℝ) (dense l u : DenseMatrix ℝ) (L U : Matrix (Fin 2) (Fin 2) ℝ),
      ofThreshold (1 : ℝ) (.ofMatrix doubling) = .ok lu ∧ lu.isSingular = false ∧
        (DenseMatrix.ofView (.ofMatrix doubling) = .ok dense ∧ dense.maxModulus = (1 : ℝ)) ∧
        (lu.lower? = .ok (some l) ∧ l.Stores L) ∧ (lu.upper? = .ok (some u) ∧ u.Stores U) ∧
        (∀ i j, ‖L i j‖ ≤ 1) ∧ (∀ i j, ‖U i j‖ ≤ 2 ^ (i : ℕ)) ∧ ‖U 1 1‖ = 2 := by
  let := exactReal 1 1
  let := exactReal.exact 1 1
  obtain ⟨lu, σ, W, hlu, hs, hholds, hlast⟩ := exists_decomposition_doubling
  have hthreshold : 0 < value (1 : ℝ) := one_pos
  obtain ⟨lu', dense, hlu', ⟨hdense, hA⟩, hfactors⟩ :=
    ofThreshold_growth (MatrixView.ofMatrix_shows doubling) hthreshold
  obtain rfl : lu = lu' := Except.ok.inj (hlu.symm.trans hlu')
  obtain ⟨l, u, L, U, hl, hu, hlower, -, hupper⟩ := hfactors hs
  have hmax : value (dense.maxModulus (ρ := ℝ)) = 1 := by
    refine le_antisymm ?_ ((norm_doubling 0 0).ge.trans (norm_le_maxModulus hA 0 0))
    exact (maxModulus_le_iff hA 1).2 ⟨zero_le_one, fun i j => (norm_doubling i j).le⟩
  obtain ⟨_, hu', u', U', rfl, hU', hUW⟩ := Ends.never_iff.1 (ends_upper? hholds hs)
  obtain rfl : u = u' := Option.some.inj (Except.ok.inj (hu.1.symm.trans hu'))
  obtain rfl : U = U' := hu.2.unique hU'
  have htwo : U 1 1 = 2 := by
    have hentry : U 1 1 = Packed.upperPart (W.map value) 1 1 := congrFun (congrFun hUW 1) 1
    rw [hentry, Packed.upperPart_diag]
    exact hlast
  refine ⟨lu, dense, l, u, L, U, hlu, hs, ⟨hdense, hmax⟩, hl, hu, hlower, fun i j => ?_, ?_⟩
  · have hbound := hupper i j
    rwa [hmax, mul_one] at hbound
  · rw [htwo]
    norm_num

end DenseFactor.LU
