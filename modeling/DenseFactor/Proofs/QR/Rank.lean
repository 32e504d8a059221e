import Mathlib
import DenseFactor.Proofs.Norm
import DenseFactor.Proofs.QR.RankRevealing
import DenseFactor.Proofs.QR.Solver

/-!
# DenseFactor.Proofs.QR.Rank

Over exact real elements the rank that is read off the trailing blocks of `R` is **the rank
of the matrix**, except that a zero matrix counts as one of rank one.

Design points:

* A dominant diagonal entry that is zero leaves nothing in its row and below. So a trailing
  block is zero if the diagonal entry it starts with is, and the rank of `R` is the place of
  the first one (`Dominates.le_rank`, `Dominates.rank_le`).
* The loop asks for the norm of a block. What it finds is said without norms: no block before
  the answer is zero, and with a threshold of zero the block at the answer is.
* A larger threshold ends the loop earlier, never later. The start at one is what the maximum
  in `ends_rank` stands for.
-/

namespace DenseFactor

open ExactScalar (value)
open scoped Matrix

variable {m n : ℕ}

/-! ### Zero rows and independent columns -/

/-- Only the rows before `k` count. -/
theorem rank_le_of_rows {M : Matrix (Fin m) (Fin n) ℝ} {k : ℕ}
    (h : ∀ (i : Fin m) (j : Fin n), k ≤ (i : ℕ) → M i j = 0) : M.rank ≤ k := by
  have hsupport : Function.support M.row ⊆ (Finset.univ.filter fun i : Fin m => (i : ℕ) < k) := by
    intro i hi
    by_contra hout
    refine hi (funext fun j => h i j ?_)
    simpa using hout
  refine (Matrix.rank_le_card_of_support_subset M _ hsupport).trans ?_
  rw [← Finset.card_range k]
  exact Finset.card_le_card_of_injOn Fin.val (fun i hi => by simpa using hi)
    Fin.val_injective.injOn

/-- The columns before `k` are independent if they end in different rows. -/
theorem le_rank_of_diagonal {M : Matrix (Fin m) (Fin n) ℝ} {k : ℕ} (hk : k ≤ min m n)
    (hlower : ∀ (i : Fin m) (j : Fin n), (j : ℕ) < k → (j : ℕ) < i → M i j = 0)
    (hdiag : ∀ t : Fin (min m n), (t : ℕ) < k → M (QR.asRow t) (QR.asCol t) ≠ 0) :
    k ≤ M.rank := by
  let leading : Matrix (Fin k) (Fin k) ℝ :=
    M.submatrix (QR.asRow ∘ Fin.castLE hk) (QR.asCol ∘ Fin.castLE hk)
  have hupper : leading.IsUpperTriangular := fun i j hij => hlower _ _ j.isLt hij
  have hdet : leading.det ≠ 0 := by
    rw [Matrix.det_of_isUpperTriangular hupper]
    exact Finset.prod_ne_zero_iff.2 fun t _ => hdiag (Fin.castLE hk t) t.isLt
  have hrank := Matrix.rank_of_det_ne_zero hdet
  rw [Fintype.card_fin] at hrank
  exact hrank.ge.trans (M.rank_submatrix_le _ _)

namespace RankRevealingQR

open QR

/-! ### Trailing blocks -/

/-- Nothing is left in the rows and columns from `k` on. -/
def TrailingZero (M : Matrix (Fin m) (Fin n) ℝ) (k : ℕ) : Prop :=
  ∀ (i : Fin m) (j : Fin n), k ≤ (i : ℕ) → k ≤ (j : ℕ) → M i j = 0

section Diagonal

variable {w : Matrix (Fin n) (Fin m) ℝ} {d : ℕ → ℝ} {k : ℕ}

/-- Up to a block that is not zero, all columns are independent. -/
theorem Dominates.le_rank (h : Dominates (reducedMatrix w d (min m n)) d (min m n))
    (hblock : ¬ TrailingZero (reducedMatrix w d (min m n)) k) :
    k + 1 ≤ (reducedMatrix w d (min m n)).rank := by
  obtain ⟨i, j, hi, hj, -⟩ : ∃ (i : Fin m) (j : Fin n), k ≤ (i : ℕ) ∧ k ≤ (j : ℕ) ∧
      reducedMatrix w d (min m n) i j ≠ 0 := by
    simpa [TrailingZero] using hblock
  have hk : k < min m n := lt_min (hi.trans_lt i.isLt) (hj.trans_lt j.isLt)
  have hlast : d k ≠ 0 := fun hzero =>
    hblock fun i j hi _ => h.eq_zero (k := ⟨k, hk⟩) hzero hi j
  refine le_rank_of_diagonal hk (fun i j hj hij => ?_) fun t ht hzero => hlast ?_
  · exact reducedMatrix_below w d (by omega) hij
  · rw [reducedMatrix_diag w d t.isLt] at hzero
    have hle := h.abs_le (k := t) (l := ⟨k, hk⟩) (Nat.lt_succ_iff.1 ht)
    rw [hzero, abs_zero] at hle
    exact abs_eq_zero.1 (le_antisymm hle (abs_nonneg _))

/-- From a block of zeros on there is nothing at all. -/
theorem Dominates.rank_le (h : Dominates (reducedMatrix w d (min m n)) d (min m n))
    (hblock : k < min m n → TrailingZero (reducedMatrix w d (min m n)) k) :
    (reducedMatrix w d (min m n)).rank ≤ k := by
  by_cases hk : k < min m n
  · have hentry : d k = 0 := by
      rw [← reducedMatrix_diag w d (t := ⟨k, hk⟩) hk]
      exact hblock hk _ _ le_rfl le_rfl
    exact rank_le_of_rows fun i j hi => h.eq_zero (k := ⟨k, hk⟩) hentry hi j
  · refine le_trans (le_min ?_ ?_) (not_lt.1 hk)
    · exact Matrix.rank_le_height _
    · exact Matrix.rank_le_width _

end Diagonal

/-! ### The loop -/

variable {ρ : Type} [RealScalar ρ] [ExactReal ρ] {r : DenseMatrix ρ}
  {R : Matrix (Fin m) (Fin n) ρ}

/-- The norm of a trailing block says whether it is zero. -/
theorem ends_trailingBlock (hR : r.Stores R) {k : ℕ} (hk : k < min m n) :
    Ends Never (fun block => value (block.frobeniusNorm (ρ := ρ)) = 0 ↔
        TrailingZero (R.map value) k)
      (r.block k (r.nrows - 1) k (r.ncols - 1)) := by
  obtain ⟨hm, hn⟩ := lt_min_iff.1 hk
  have hrow : k + (m - k) ≤ m := by omega
  have hcol : k + (n - k) ≤ n := by omega
  have hlastRow : r.nrows - 1 = k + (m - k) - 1 := by rw [hR.nrows, Nat.add_sub_cancel' hm.le]
  have hlastCol : r.ncols - 1 = k + (n - k) - 1 := by rw [hR.ncols, Nat.add_sub_cancel' hn.le]
  rw [hlastRow, hlastCol]
  refine (hR.block (Nat.sub_pos_of_lt hm) (Nat.sub_pos_of_lt hn) hrow hcol).imp
    fun block hblock => ?_
  rw [hblock.frobeniusNorm_eq_zero]
  constructor
  · intro hzero i j hi hj
    have hentry := hzero ⟨i - k, by omega⟩ ⟨j - k, by omega⟩
    have hi' : window k hrow ⟨i - k, by omega⟩ = i := Fin.ext (Nat.add_sub_cancel' hi)
    have hj' : window k hcol ⟨j - k, by omega⟩ = j := Fin.ext (Nat.add_sub_cancel' hj)
    rwa [Matrix.submatrix_apply, hi', hj'] at hentry
  · intro hzero i j
    exact hzero (window k hrow i) (window k hcol j) (Nat.le_add_right k i) (Nat.le_add_right k j)

/-- No block before the answer is zero. If the threshold is not positive, the block at the
answer is. -/
theorem ends_rankFrom (hR : r.Stores R) {drop norm : ρ} (hnorm : 0 ≤ value norm) (rank : ℕ)
    (last : ρ) (hlast : ¬ TrailingZero (R.map value) rank → 0 < value last) :
    Ends Never (fun k => rank ≤ k ∧
        (∀ t, rank ≤ t → t < k → ¬ TrailingZero (R.map value) t) ∧
        (value drop ≤ 0 → k < min m n → TrailingZero (R.map value) k))
      (rankFrom r drop norm rank last) := by
  induction rank, last using rankFrom.induct r with
  | case1 rank last hlt ih =>
      rw [rankFrom, dif_pos hlt]
      rw [hR.nrows, hR.ncols] at hlt
      refine (ends_trailingBlock hR hlt).bind fun block hblock => ?_
      have hnonneg := block.frobeniusNorm_nonneg (ρ := ρ)
      have hzero : (block.frobeniusNorm == (0 : ρ)) = true ↔ TrailingZero (R.map value) rank := by
        rw [ExactScalar.eq_iff, ExactScalar.value_zero', hblock]
      dsimp only
      split_ifs with hstop
      · refine ⟨le_rfl, fun t ht htr => absurd htr (not_lt.2 ht), fun hdrop _ => ?_⟩
        rw [Bool.or_eq_true] at hstop
        rcases hstop with hend | hdrops
        · exact hzero.1 hend
        · -- a norm that is not negative does not drop below zero
          by_contra hblock'
          have hpos := hlast hblock'
          have hratio := (ExactReal.lt_iff _ _).1 (of_decide_eq_true hdrops)
          rw [ExactScalar.value_mul, ExactScalar.value_div _ _ hpos.ne'] at hratio
          have hscaled := mul_nonneg (div_nonneg hnonneg hpos.le) hnorm
          linarith
      · rw [Bool.not_eq_true, Bool.or_eq_false_iff] at hstop
        have hblock' : ¬ TrailingZero (R.map value) rank := fun h => by
          rw [hzero.2 h] at hstop
          exact Bool.noConfusion hstop.1
        refine (ih block fun _ => ?_).imp ?_
        · exact lt_of_le_of_ne hnonneg (Ne.symm (hblock.not.2 hblock'))
        · rintro k ⟨hk, hbefore, hend⟩
          refine ⟨(Nat.le_succ rank).trans hk, fun t ht htk => ?_, hend⟩
          rcases ht.eq_or_lt with rfl | hlater
          · exact hblock'
          · exact hbefore t hlater htk
  | case2 rank last hout =>
      rw [hR.nrows, hR.ncols] at hout
      rw [rankFrom, dif_neg (by rwa [hR.nrows, hR.ncols])]
      exact ⟨le_rfl, fun t ht htr => absurd htr (not_lt.2 ht), fun _ hlt => absurd hlt hout⟩

/-! ### The rank -/

/-- The columns of a matrix in another order, multiplied by a unitary matrix, have its
rank. -/
theorem rank_eq_of_represents {f : Factors ρ} {A : Matrix (Fin m) (Fin n) ρ}
    {σ : Equiv.Perm (Fin n)} {W : Matrix (Fin n) (Fin m) ρ}
    (h : f.Represents (𝕜 := ℝ) (A.submatrix id σ) (min m n) W) :
    (reducedMatrix (W.map value) f.entries (min m n)).rank = (A.map value).rank := by
  have hunit : IsUnit (composed (leftReflector (W.map value) f.entries) (min m n)).det :=
    (Matrix.isUnit_iff_isUnit_det _).1 (IsUnit.of_mul_eq_one_right _ h.unitary)
  rw [← h.product, Matrix.rank_mul_eq_right_of_isUnit_det _ _ hunit]
  exact Matrix.rank_submatrix (A.map value) (Equiv.refl _) σ

/-- The answer is at least one and not more than the rank otherwise; if the threshold is not
positive, it is the rank. -/
theorem ends_rank {qr : RankRevealingQR ρ} {A : Matrix (Fin m) (Fin n) ρ}
    {σ : Equiv.Perm (Fin n)} {W : Matrix (Fin n) (Fin m) ρ}
    (h : qr.factors.Represents (𝕜 := ℝ) (A.submatrix id σ) (min m n) W)
    (hdominates : Dominates (reducedMatrix (W.map value) qr.factors.entries (min m n))
      qr.factors.entries (min m n)) (drop : ρ) :
    Ends Never (fun k => 1 ≤ k ∧ k ≤ max 1 (A.map value).rank ∧
        (value drop ≤ 0 → k = max 1 (A.map value).rank)) (qr.rank drop) := by
  unfold RankRevealingQR.rank
  refine h.ends_upper.bind ?_
  rintro r ⟨R, hR, hreduced, -⟩
  have hnonneg := r.frobeniusNorm_nonneg (ρ := ρ)
  have hstart (hblock : ¬ TrailingZero (R.map value) 1) : 0 < value (r.frobeniusNorm (ρ := ρ)) := by
    refine lt_of_le_of_ne hnonneg fun hzero => hblock fun i j _ _ => ?_
    exact hR.frobeniusNorm_eq_zero.1 hzero.symm i j
  refine (ends_rankFrom hR hnonneg 1 _ hstart).imp ?_
  rintro k ⟨hk, hbefore, hend⟩
  rw [hreduced] at hbefore hend
  have hle : k ≤ max 1 (A.map value).rank := by
    rcases hk.eq_or_lt with rfl | hlater
    · exact le_max_left _ _
    · have hrank := hdominates.le_rank (hbefore (k - 1) (by omega) (by omega))
      rw [rank_eq_of_represents h, Nat.sub_add_cancel hk] at hrank
      exact hrank.trans (le_max_right _ _)
  refine ⟨hk, hle, fun hdrop => le_antisymm hle (max_le hk ?_)⟩
  rw [← rank_eq_of_represents h]
  exact hdominates.rank_le (hend hdrop)

/-- Over exact real elements every matrix, of any shape and rank, has a decomposition, and
what its rank answers for a threshold of zero is the rank of the matrix; only for a matrix of
rank zero it is one. No threshold makes it larger. -/
theorem rank_eq_max_one {ρ : Type} [RealScalar ρ] [ExactReal ρ] {m n : ℕ}
    {A : Matrix (Fin m) (Fin n) ρ} {a : MatrixView ρ} (ha : a.Shows A) (threshold : ρ) :
    ∃ qr : RankRevealingQR ρ, ofThreshold threshold a = .ok qr ∧
      qr.rank 0 = .ok (max 1 (A.map value).rank) ∧
      ∀ drop : ρ, ∃ k, qr.rank drop = .ok k ∧ 1 ≤ k ∧ k ≤ max 1 (A.map value).rank := by
  obtain ⟨qr, hqr, σ, W, -, hW, hdominates⟩ := Ends.never_iff.1 (ends_ofThreshold ha threshold)
  refine ⟨qr, hqr, ?_, fun drop => ?_⟩
  · obtain ⟨k, hk, -, -, hexact⟩ := Ends.never_iff.1 (ends_rank hW hdominates 0)
    rw [hk, hexact (ExactScalar.value_zero' (α := ρ)).le]
  · obtain ⟨k, hk, hpos, hle, -⟩ := Ends.never_iff.1 (ends_rank hW hdominates drop)
    exact ⟨k, hk, hpos, hle⟩

/-- The identity has full rank, and a large threshold does not add to it. -/
theorem rank_eq_max_one_identity :
    letI := exactReal 1 1
    letI := exactReal.exact 1 1
    ∃ qr : RankRevealingQR ℝ, ofThreshold 0 (.ofMatrix (1 : Matrix (Fin 2) (Fin 2) ℝ)) = .ok qr ∧
      qr.rank 0 = .ok 2 ∧ ∃ k, qr.rank 7 = .ok k ∧ 1 ≤ k ∧ k ≤ 2 := by
  let := exactReal 1 1
  let := exactReal.exact 1 1
  obtain ⟨qr, hqr, hrank, hdrop⟩ :=
    rank_eq_max_one (MatrixView.ofMatrix_shows (1 : Matrix (Fin 2) (Fin 2) ℝ)) (0 : ℝ)
  have hidentity : ((1 : Matrix (Fin 2) (Fin 2) ℝ).map value).rank = 2 := Matrix.rank_one
  rw [hidentity] at hrank hdrop
  exact ⟨qr, hqr, hrank, hdrop 7⟩

/-- A matrix of zeros has rank zero and counts as one of rank one. -/
theorem rank_of_zeros :
    letI := exactReal 1 1
    letI := exactReal.exact 1 1
    ∃ qr : RankRevealingQR ℝ, ofThreshold 0 (.ofMatrix (0 : Matrix (Fin 2) (Fin 2) ℝ)) = .ok qr ∧
      qr.rank 0 = .ok 1 ∧ (0 : Matrix (Fin 2) (Fin 2) ℝ).rank = 0 := by
  let := exactReal 1 1
  let := exactReal.exact 1 1
  obtain ⟨qr, hqr, σ, W, -, hW, hdominates⟩ := Ends.never_iff.1
    (ends_ofThreshold (MatrixView.ofMatrix_shows (0 : Matrix (Fin 2) (Fin 2) ℝ)) (0 : ℝ))
  obtain ⟨k, hk, hpos, hle, -⟩ := Ends.never_iff.1 (ends_rank hW hdominates 0)
  have hzero : ((0 : Matrix (Fin 2) (Fin 2) ℝ).map value).rank = 0 := Matrix.rank_zero
  rw [hzero] at hle
  obtain rfl : k = 1 := le_antisymm hle hpos
  exact ⟨qr, hqr, hk, Matrix.rank_zero⟩

end RankRevealingQR

end DenseFactor
