import Mathlib
import DenseFactor.Proofs.Stored

/-!
# DenseFactor.Proofs.Product

Products over exact elements are **products of matrices**.

A sum of products is known term by term. Leaving out the terms whose left factor is zero
changes nothing, so the product that does and those that do not have the same law.
-/

namespace DenseFactor.DenseMatrix

open ExactScalar (value)
open scoped Matrix

variable {α K : Type} [Field K] [Arithmetic α] [ExactScalar α K] {E : Failure → Prop}
  {r k c : ℕ}

/-- The sum of the products of two runs of elements. -/
theorem ends_sumProducts {left right : ℕ → Except Failure α} {x y : Fin k → α}
    (hleft : ∀ t : Fin k, left t = .ok (x t)) (hright : ∀ t : Fin k, right t = .ok (y t)) :
    Ends E (fun s => value s = ∑ t, value (x t) * value (y t)) (sumProducts k left right) := by
  have hterm (t : Fin k) (sum : α) (_ : 0 ≤ (t : ℕ)) :
      Ends E (fun s => value s = value sum + value (x t) * value (y t))
        (do addProduct sum (← left t) (← right t)) := by
    rw [hleft t, hright t]
    exact (ExactScalar.value_add _ _).trans (by rw [ExactScalar.value_mul])
  refine (ends_sum (Nat.zero_le k) _ hterm).imp fun s hs => ?_
  simpa using hs

variable {a b : DenseMatrix α} {A : Matrix (Fin r) (Fin k) α}

/-- The product, which leaves out the terms of zeros on the left. -/
theorem Stores.mul (ha : a.Stores A) {B : Matrix (Fin k) (Fin c) α} (hb : b.Stores B) :
    Ends E (fun q => ∃ Q : Matrix (Fin r) (Fin c) α, q.Stores Q ∧
      Q.map value = A.map value * B.map value) (a.mul b) := by
  have hfits : ¬ a.ncols ≠ b.nrows := not_not.2 (ha.ncols.trans hb.nrows.symm)
  have hentry (i : Fin r) (j : Fin c) :
      Ends E (fun s => value s = ∑ t, value (A i t) * value (B t j))
        (foldPositions 0 k Scalar.zero fun sum t => do
          let x ← a.entry i t
          if Scalar.isZero x then return sum
          addProduct sum x (← b.entry t j)) := by
    refine (ends_sum (Nat.zero_le k) (fun t => value (A i t) * value (B t j)) ?_).imp ?_
    · intro t sum _
      rw [ha.entry i t, hb.entry t j]
      refine Ends.ok_bind_iff.2 ?_
      by_cases hzero : Scalar.isZero (A i t) = true
      · rw [if_pos hzero]
        simp [(ExactScalar.isZero_iff _).1 hzero]
      · rw [if_neg hzero]
        exact (ExactScalar.value_add _ _).trans (by rw [ExactScalar.value_mul])
    · intro s hs
      simpa using hs
  unfold DenseMatrix.mul
  rw [if_neg hfits, ha.nrows, ha.ncols, hb.ncols]
  refine (Ends.tabulate hentry).imp ?_
  rintro q ⟨Q, hQ, hentries⟩
  refine ⟨Q, hQ, ?_⟩
  ext i j
  exact hentries i j

/-- The product with a transpose. -/
theorem Stores.mulTranspose (ha : a.Stores A) {B : Matrix (Fin c) (Fin k) α}
    (hb : b.Stores B) :
    Ends E (fun q => ∃ Q : Matrix (Fin r) (Fin c) α, q.Stores Q ∧
      Q.map value = A.map value * (B.map value)ᵀ) (a.mulTranspose b) := by
  have hfits : ¬ a.ncols ≠ b.ncols := not_not.2 (ha.ncols.trans hb.ncols.symm)
  have hentry (i : Fin r) (j : Fin c) :
      Ends E (fun s => value s = ∑ t, value (A i t) * value (B j t))
        (sumProducts k (a.entry i) (b.entry j)) :=
    ends_sumProducts (ha.entry i) (hb.entry j)
  unfold DenseMatrix.mulTranspose
  rw [if_neg hfits, ha.nrows, ha.ncols, hb.nrows]
  refine (Ends.tabulate hentry).imp ?_
  rintro q ⟨Q, hQ, hentries⟩
  refine ⟨Q, hQ, ?_⟩
  ext i j
  exact hentries i j

/-- The product of a transpose. -/
theorem Stores.transposeMul {A : Matrix (Fin k) (Fin r) α} (ha : a.Stores A)
    {B : Matrix (Fin k) (Fin c) α} (hb : b.Stores B) :
    Ends E (fun q => ∃ Q : Matrix (Fin r) (Fin c) α, q.Stores Q ∧
      Q.map value = (A.map value)ᵀ * B.map value) (a.transposeMul b) := by
  have hfits : ¬ a.nrows ≠ b.nrows := not_not.2 (ha.nrows.trans hb.nrows.symm)
  have hentry (i : Fin r) (j : Fin c) :
      Ends E (fun s => value s = ∑ t, value (A t i) * value (B t j))
        (sumProducts k (fun t => a.entry t i) fun t => b.entry t j) :=
    ends_sumProducts (fun t => ha.entry t i) fun t => hb.entry t j
  unfold DenseMatrix.transposeMul
  rw [if_neg hfits, ha.nrows, ha.ncols, hb.ncols]
  refine (Ends.tabulate hentry).imp ?_
  rintro q ⟨Q, hQ, hentries⟩
  refine ⟨Q, hQ, ?_⟩
  ext i j
  exact hentries i j

end DenseFactor.DenseMatrix
