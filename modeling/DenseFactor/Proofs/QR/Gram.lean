import Mathlib
import DenseFactor.Proofs.QR.RankRevealing

/-!
# DenseFactor.Proofs.QR.Gram

The triangular factor is **determined by the products of the columns**, up to the phases of
its rows.

Design points:

* Unitary factors keep all products `Aᴴ · A`. So two reductions of the same matrix, or of two
  matrices in proportion, have triangular factors whose products are in proportion.
* `tailGram` leaves out the rows before `k`. From row to row it loses one product, and this can
  be said by what is left: the entries of row `k` are the products with column `k`, divided by
  the diagonal entry. So the proportion is kept as long as no diagonal entry is zero
  (`tailGram_smul`).
* The sizes of the diagonal entries and the rests that column pivoting compares stand on the
  diagonal of `tailGram`.
-/

namespace DenseFactor.QR

open ExactScalar (value)
open scoped Matrix

noncomputable section

variable {𝕜 : Type} [RCLike 𝕜] {m n k : ℕ} {c : 𝕜}

/-! ### Products without the first rows -/

/-- The products of the columns from row `k` on. -/
def tailGram (M : Matrix (Fin m) (Fin n) 𝕜) (k : ℕ) : Matrix (Fin n) (Fin n) 𝕜 :=
  Matrix.of fun i j => ∑ t : Fin m, if k ≤ (t : ℕ) then star (M t i) * M t j else 0

section TailGram

variable {M M' : Matrix (Fin m) (Fin n) 𝕜}

theorem tailGram_zero (M : Matrix (Fin m) (Fin n) 𝕜) : tailGram M 0 = Mᴴ * M := by
  ext i j
  simp [tailGram, Matrix.mul_apply]

/-- One row less. -/
theorem tailGram_succ (M : Matrix (Fin m) (Fin n) 𝕜) (r : Fin m) (i j : Fin n) :
    tailGram M (r + 1) i j = tailGram M r i j - star (M r i) * M r j := by
  rw [tailGram, tailGram, Matrix.of_apply, Matrix.of_apply, sum_ge_eq, add_sub_cancel_left]

/-- With a column that ends on the diagonal only the row of its last entry is left. -/
theorem tailGram_finished {t : Fin (min m n)}
    (hbelow : ∀ i : Fin m, (t : ℕ) < i → M i (asCol t) = 0) (j : Fin n) :
    tailGram M t (asCol t) j = star (M (asRow t) (asCol t)) * M (asRow t) j := by
  rw [tailGram, Matrix.of_apply, Finset.sum_eq_single (asRow t)]
  · exact if_pos le_rfl
  · intro i _ hi
    by_cases hti : (t : ℕ) ≤ i
    · have hlt : (t : ℕ) < i := lt_of_le_of_ne hti fun h => hi (Fin.ext h.symm)
      rw [if_pos hti, hbelow i hlt, star_zero, zero_mul]
    · rw [if_neg hti]
  · exact fun h => absurd (Finset.mem_univ _) h

section Finished

variable {t : Fin (min m n)} (htail : tailGram M' t = (star c * c) • tailGram M t)
  (hbelow : ∀ i : Fin m, (t : ℕ) < i → M i (asCol t) = 0)
  (hbelow' : ∀ i : Fin m, (t : ℕ) < i → M' i (asCol t) = 0)

include htail hbelow hbelow'

/-- The products of a row with the last entry of its column are in proportion. -/
theorem diagonal_mul_smul (j : Fin n) :
    star (M' (asRow t) (asCol t)) * M' (asRow t) j =
      star c * c * (star (M (asRow t) (asCol t)) * M (asRow t) j) := by
  have hentry := congrFun (congrFun htail (asCol t)) j
  rwa [Matrix.smul_apply, smul_eq_mul, tailGram_finished hbelow, tailGram_finished hbelow']
    at hentry

theorem norm_diagonal_smul : ‖M' (asRow t) (asCol t)‖ = ‖c‖ * ‖M (asRow t) (asCol t)‖ := by
  have hsquare := congrArg (‖·‖) (diagonal_mul_smul htail hbelow hbelow' (asCol t))
  simp only [norm_mul, norm_star] at hsquare
  have hnonneg : 0 ≤ ‖c‖ * ‖M (asRow t) (asCol t)‖ := by positivity
  refine (mul_self_inj (norm_nonneg _) hnonneg).1 ?_
  linear_combination hsquare

/-- Unless that entry is zero, so are all products within the row. -/
theorem lastRow_mul_smul (hc : c ≠ 0) (hdiag : M (asRow t) (asCol t) ≠ 0) (i j : Fin n) :
    star (M' (asRow t) i) * M' (asRow t) j =
      star c * c * (star (M (asRow t) i) * M (asRow t) j) := by
  have hrow := diagonal_mul_smul htail hbelow hbelow'
  have hstar : star (M' (asRow t) i) * M' (asRow t) (asCol t) =
      star c * c * (star (M (asRow t) i) * M (asRow t) (asCol t)) := by
    have hconjugate := congrArg star (hrow i)
    simp only [star_mul, star_star] at hconjugate
    linear_combination hconjugate
  have hsize : star c * c * (star (M (asRow t) (asCol t)) * M (asRow t) (asCol t)) ≠ 0 :=
    mul_ne_zero (mul_ne_zero (star_ne_zero.2 hc) hc) (mul_ne_zero (star_ne_zero.2 hdiag) hdiag)
  refine mul_left_cancel₀ hsize ?_
  calc star c * c * (star (M (asRow t) (asCol t)) * M (asRow t) (asCol t)) *
        (star (M' (asRow t) i) * M' (asRow t) j)
      = star (M' (asRow t) i) * M' (asRow t) (asCol t) *
          (star (M' (asRow t) (asCol t)) * M' (asRow t) j) := by
        rw [← hrow]
        ring
    _ = star c * c * (star (M (asRow t) (asCol t)) * M (asRow t) (asCol t)) *
          (star c * c * (star (M (asRow t) i) * M (asRow t) j)) := by
        rw [hstar, hrow]
        ring

/-- The proportion stays without the last row of the column. -/
theorem tailGram_succ_smul (hc : c ≠ 0) (hdiag : M (asRow t) (asCol t) ≠ 0) :
    tailGram M' (t + 1) = (star c * c) • tailGram M (t + 1) := by
  have hproduct := lastRow_mul_smul htail hbelow hbelow' hc hdiag
  ext i j
  have hentry := congrFun (congrFun htail i) j
  have hstep := tailGram_succ M (asRow t) i j
  have hstep' := tailGram_succ M' (asRow t) i j
  rw [Matrix.smul_apply, smul_eq_mul] at hentry ⊢
  calc tailGram M' (t + 1) i j
      = tailGram M' t i j - star (M' (asRow t) i) * M' (asRow t) j := hstep'
    _ = star c * c * (tailGram M t i j - star (M (asRow t) i) * M (asRow t) j) := by
        rw [hentry, hproduct, mul_sub]
    _ = star c * c * tailGram M (t + 1) i j := congrArg _ hstep.symm

end Finished

/-- Products in proportion stay so without the rows of finished columns, as long as no diagonal
entry is zero. -/
theorem tailGram_smul (hc : c ≠ 0) (hgram : M'ᴴ * M' = (star c * c) • (Mᴴ * M))
    (hbelow : ∀ (i : Fin m) (j : Fin n), (j : ℕ) < k → (j : ℕ) < i → M i j = 0)
    (hbelow' : ∀ (i : Fin m) (j : Fin n), (j : ℕ) < k → (j : ℕ) < i → M' i j = 0)
    (hdiag : ∀ t : Fin (min m n), (t : ℕ) < k → M (asRow t) (asCol t) ≠ 0) (hk : k ≤ min m n) :
    tailGram M' k = (star c * c) • tailGram M k := by
  induction k with
  | zero => rw [tailGram_zero, tailGram_zero, hgram]
  | succ k ih =>
      have hbefore := ih (fun i j hj => hbelow i j (Nat.lt_succ_of_lt hj))
        (fun i j hj => hbelow' i j (Nat.lt_succ_of_lt hj))
        (fun t ht => hdiag t (Nat.lt_succ_of_lt ht)) (Nat.le_of_succ_le hk)
      let t : Fin (min m n) := ⟨k, hk⟩
      have hcol : ((asCol t : Fin n) : ℕ) < k + 1 := Nat.lt_succ_self k
      exact tailGram_succ_smul (t := t) hbefore (fun i => hbelow i (asCol t) hcol)
        (fun i => hbelow' i (asCol t) hcol) hc (hdiag t (Nat.lt_succ_self k))

end TailGram

/-- Over the real numbers the diagonal has the squares of the rests. -/
theorem tailGram_self (M : Matrix (Fin m) (Fin n) ℝ) (k : ℕ) (j : Fin n) :
    tailGram M k j j = tailSquare M k j := rfl

/-! ### Factors of matrices in proportion -/

section Represents

variable {α ρ : Type} [RealScalar ρ] [ExactReal ρ] [EuclideanScalar α ρ] [ExactEuclidean α ρ 𝕜]
  {f f' : Factors α} {A A' : Matrix (Fin m) (Fin n) α} {W W' : Matrix (Fin n) (Fin m) α}

/-- Unitary factors keep the products of the columns. -/
theorem Factors.Represents.gram (h : f.Represents A k W) :
    (reducedMatrix (W.map value) f.entries k)ᴴ * reducedMatrix (W.map value) f.entries k =
      (A.map value)ᴴ * A.map value := by
  rw [← h.product, Matrix.conjTranspose_mul, Matrix.mul_assoc, ← Matrix.mul_assoc _ (composed _ _),
    h.unitary, Matrix.one_mul]

/-- The first diagonal entry has the length of the first column. -/
theorem Factors.Represents.sq_norm_first (h : f.Represents A k W) (hk : 0 < k)
    {t : Fin (min m n)} (ht : (t : ℕ) = 0) :
    ‖f.entries 0‖ ^ 2 = ∑ i, ‖value (A i (asCol t))‖ ^ 2 := by
  have hfirst := tailGram_finished (M := reducedMatrix (W.map value) f.entries k) (t := t)
    (fun i => reducedMatrix_below _ _ (j := asCol t) (ht.trans_lt hk)) (asCol t)
  rw [reducedMatrix_diag _ _ (ht.trans_lt hk), ht, tailGram_zero, h.gram, Matrix.mul_apply]
    at hfirst
  have hterm (i : Fin m) : (A.map value)ᴴ (asCol t) i * A.map value i (asCol t) =
      ((‖value (A i (asCol t))‖ ^ 2 : ℝ) : 𝕜) := by
    rw [RCLike.ofReal_pow]
    exact RCLike.conj_mul _
  have hentry : star (f.entries 0) * f.entries 0 = ((‖f.entries 0‖ ^ 2 : ℝ) : 𝕜) := by
    rw [RCLike.ofReal_pow]
    exact RCLike.conj_mul _
  rw [Finset.sum_congr rfl fun i _ => hterm i, hentry, ← RCLike.ofReal_sum] at hfirst
  exact (RCLike.ofReal_injective hfirst).symm

variable (h : f.Represents A k W) (h' : f'.Represents A' k W')
  (hscale : A'.map value = c • A.map value)

include h h' hscale

theorem Factors.Represents.gram_smul :
    (reducedMatrix (W'.map value) f'.entries k)ᴴ * reducedMatrix (W'.map value) f'.entries k =
      (star c * c) • ((reducedMatrix (W.map value) f.entries k)ᴴ *
        reducedMatrix (W.map value) f.entries k) := by
  rw [h.gram, h'.gram, hscale, Matrix.conjTranspose_smul, Matrix.smul_mul, Matrix.mul_smul,
    smul_smul]

/-- The rests of the finished columns are in proportion. -/
theorem Factors.Represents.tailGram_smul (hc : c ≠ 0)
    (hne : ∀ t : Fin (min m n), (t : ℕ) < k → f.entries t ≠ 0) {r : ℕ} (hr : r ≤ k)
    (hrmn : r ≤ min m n) :
    tailGram (reducedMatrix (W'.map value) f'.entries k) r =
      (star c * c) • tailGram (reducedMatrix (W.map value) f.entries k) r := by
  refine QR.tailGram_smul hc (h.gram_smul h' hscale) (fun i j hj => ?_) (fun i j hj => ?_)
    (fun t ht => ?_) hrmn
  · exact reducedMatrix_below _ _ (hj.trans_le hr)
  · exact reducedMatrix_below _ _ (hj.trans_le hr)
  · rw [reducedMatrix_diag _ _ (ht.trans_le hr)]
    exact hne t (ht.trans_le hr)

/-- The diagonal entries are in proportion, unless one is zero. -/
theorem Factors.Represents.norm_entries_smul (hc : c ≠ 0)
    (hne : ∀ t : Fin (min m n), (t : ℕ) < k → f.entries t ≠ 0) {t : Fin (min m n)}
    (ht : (t : ℕ) < k) : ‖f'.entries t‖ = ‖c‖ * ‖f.entries t‖ := by
  have htail := h.tailGram_smul h' hscale hc hne ht.le t.isLt.le
  have hnorm := norm_diagonal_smul htail (fun i => reducedMatrix_below _ _ (j := asCol t) ht)
    fun i => reducedMatrix_below _ _ (j := asCol t) ht
  rwa [reducedMatrix_diag _ _ ht, reducedMatrix_diag _ _ ht] at hnorm

end Represents

end

end DenseFactor.QR
