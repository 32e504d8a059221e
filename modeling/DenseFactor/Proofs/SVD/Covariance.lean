import Mathlib
import DenseFactor.Proofs.SVD.PseudoInverse

/-!
# DenseFactor.Proofs.SVD.Covariance

The covariance of a least-squares fit, over exact real elements: **the sum of
`σᵢ⁻² · vᵢ · vᵢᵀ`** over the singular values that reach the cutoff.

Design points:

* The program counts a leading run of values. That these are all the values that reach the
  cutoff is where the order of the values enters, and the only place.
* The rows of `Vᵀ` are divided here, the columns of `V` are multiplied for the
  pseudo-inverse, and the two go through different products. Both are sums of outer products
  over the same positions, so a product of two of them is read off term by term.
-/

namespace DenseFactor.SVD

open ExactScalar (value)
open scoped Matrix

/-- Where a test only turns false along a list, the leading run that passes it is all that
passes it. -/
theorem lt_length_takeWhile_iff {α : Type} {q : α → Bool} {xs : List α}
    (h : xs.Pairwise fun x y => q y = true → q x = true) {i : ℕ} (hi : i < xs.length) :
    i < (xs.takeWhile q).length ↔ q xs[i] = true := by
  induction xs generalizing i with
  | nil => exact absurd hi (Nat.not_lt_zero i)
  | cons x xs ih =>
      obtain ⟨hx, hxs⟩ := List.pairwise_cons.1 h
      by_cases hq : q x = true
      · rw [List.takeWhile_cons_of_pos hq]
        cases i with
        | zero => simp [hq]
        | succ i => simpa using ih hxs (Nat.lt_of_succ_lt_succ hi)
      · have hlater : ¬ q (x :: xs)[i] = true := by
          cases i with
          | zero => exact hq
          | succ i => exact fun hqi => hq (hx _ (List.getElem_mem _) hqi)
        rw [List.takeWhile_cons_of_neg hq]
        simpa using hlater

variable {ρ : Type} [RealScalar ρ] [ExactReal ρ] {m n p : ℕ} {E : Failure → Prop} {s : SVD ρ}
  {U : Matrix (Fin m) (Fin p) ρ} {V : Matrix (Fin n) (Fin p) ρ} {c : ρ}

noncomputable section

/-- The inverse squares of the singular values that reach the cutoff. -/
def variances (s : SVD ρ) (c : ρ) (i : Fin p) : ℝ :=
  if value c ≤ s.singular i then (s.singular i ^ 2)⁻¹ else 0

/-- The number of leading singular values that reach the cutoff. -/
def leading (s : SVD ρ) (c : ρ) : ℕ :=
  (s.values.toList.takeWhile fun x => decide (c ≤ x)).length

omit [ExactReal ρ] in
theorem leading_le (hsize : s.values.size = p) : s.leading c ≤ p := by
  rw [← hsize, ← Array.length_toList]
  exact (List.takeWhile_prefix _).length_le

/-- Descending values that reach the cutoff come first. -/
theorem lt_leading_iff (hsize : s.values.size = p)
    (hdescending : Antitone (s.singular : Fin p → ℝ)) (i : Fin p) :
    (i : ℕ) < s.leading c ↔ value c ≤ s.singular i := by
  have hreaches (j : Fin p) (hj : (j : ℕ) < s.values.toList.length) :
      decide (c ≤ s.values.toList[(j : ℕ)]) = true ↔ value c ≤ s.singular j := by
    have hjs : (j : ℕ) < s.values.size := hsize ▸ j.isLt
    rw [decide_eq_true_iff, ExactReal.le_iff, singular, reals, Array.getElem_toList,
      Array.getD_eq_getD_getElem?, Array.getElem?_eq_getElem hjs, Option.getD_some]
  have hlt (k : ℕ) (hk : k < s.values.toList.length) : k < p := by
    rwa [Array.length_toList, hsize] at hk
  have hsorted : s.values.toList.Pairwise fun x y =>
      decide (c ≤ y) = true → decide (c ≤ x) = true := by
    refine List.pairwise_iff_getElem.2 fun j k hj hk hjk => ?_
    rw [hreaches ⟨k, hlt k hk⟩ hk, hreaches ⟨j, hlt j hj⟩ hj]
    exact fun hc => hc.trans (hdescending (Fin.mk_le_mk.2 hjk.le))
  have hi : (i : ℕ) < s.values.toList.length := by
    rw [Array.length_toList, hsize]
    exact i.isLt
  rw [leading, lt_length_takeWhile_iff hsorted hi, hreaches i hi]

theorem leading_eq_zero_iff (hsize : s.values.size = p)
    (hdescending : Antitone (s.singular : Fin p → ℝ)) :
    s.leading c = 0 ↔ ∀ i : Fin p, s.singular i < value c := by
  constructor
  · intro hzero i
    rw [← not_le, ← lt_leading_iff hsize hdescending, hzero]
    exact Nat.not_lt_zero _
  · intro hbelow
    by_contra hne
    have hpos : 0 < p := (Nat.pos_of_ne_zero hne).trans_le (leading_le hsize)
    exact (hbelow ⟨0, hpos⟩).not_ge
      ((lt_leading_iff hsize hdescending ⟨0, hpos⟩).1 (Nat.pos_of_ne_zero hne))

/-- What is computed where a value reaches the cutoff. -/
theorem ends_covariance (hsize : s.values.size = p)
    (hdescending : Antitone (s.singular : Fin p → ℝ)) (hc : 0 < value c) (hv : s.v.Stores V)
    (hsome : s.leading c ≠ 0) :
    Ends E (fun cov => ∃ C : Matrix (Fin n) (Fin n) ρ, cov.Stores C ∧
      C.map value = spectral (V.map value) (V.map value) (s.variances c)) (s.covariance c) := by
  have hle : s.leading c ≤ p := leading_le hsize
  -- the position of a row of the factor among the singular values
  let place (i : Fin (s.leading c)) : Fin p := Fin.castLE hle i
  have hreaches (i : Fin (s.leading c)) : value c ≤ s.singular (place i) :=
    (lt_leading_iff hsize hdescending (place i)).1 i.isLt
  have hrow (i : Fin (s.leading c)) (j : Fin n) {vt : DenseMatrix ρ} (hvt : vt.Stores Vᵀ) :
      Ends E (fun y => value y = value (V j (place i)) / s.singular (place i))
        (do return (← vt.entry i j) / (← Storage.read s.values i)) := by
    have hi : (i : ℕ) < s.values.size := hsize ▸ (place i).isLt
    have hentry : vt.entry i j = .ok (V j (place i)) := hvt.entry (place i) j
    rw [hentry]
    refine Ends.ok_bind_iff.2 ((ends_read hi).bind fun σ hσ => Ends.pure_iff.2 ?_)
    have hsingular : value σ = s.singular (place i) := hσ
    rw [ExactScalar.value_div _ _ (hsingular ▸ (hc.trans_le (hreaches i)).ne'), hsingular]
  have hcutoff : ¬ (s.values.toList.takeWhile fun x => decide (c ≤ x)).length = 0 := hsome
  unfold SVD.covariance vTranspose
  rw [if_neg hcutoff]
  refine Ends.ok_bind_iff.2 (hv.transpose.bind fun vt hvt => ?_)
  rw [hvt.ncols]
  refine (Ends.tabulate (r := s.leading c) fun i j => hrow i j hvt).bind ?_
  rintro dense ⟨J, hJ, hentries⟩
  refine (hJ.transposeMul hJ).imp ?_
  rintro cov ⟨C, hC, hproduct⟩
  refine ⟨C, hC, ?_⟩
  rw [hproduct]
  ext a b
  rw [spectral, Matrix.mul_apply, Matrix.mul_apply]
  refine Fintype.sum_of_injective place (Fin.castLE_injective hle) _ _ (fun i hi => ?_) fun i => ?_
  · have hnot : ¬ value c ≤ s.singular i := fun h =>
      hi ⟨⟨i, (lt_leading_iff hsize hdescending i).2 h⟩, rfl⟩
    rw [Matrix.mul_diagonal, variances, if_neg hnot, mul_zero, zero_mul]
  · rw [Matrix.mul_diagonal, variances, if_pos (hreaches i), Matrix.transpose_apply,
      Matrix.transpose_apply, Matrix.map_apply, Matrix.map_apply, Matrix.map_apply,
      Matrix.map_apply, hentries, hentries]
    field_simp

/-- The covariance is the pseudo-inverse times its transpose, if they keep the same values. -/
theorem spectral_variances_eq (hU : (U.map value)ᵀ * U.map value = 1)
    (hsame : ∀ i : Fin p, value s.tolerance < s.singular i ↔ value c ≤ s.singular i) :
    spectral (V.map value) (V.map value) (s.variances c) =
      spectral (V.map value) (U.map value) s.inverted *
        (spectral (V.map value) (U.map value) s.inverted)ᵀ := by
  rw [spectral_transpose, spectral_mul hU]
  congr 1
  funext i
  by_cases hi : value c ≤ s.singular i
  · rw [variances, if_pos hi, inverted, if_pos ((hsame i).2 hi), ← pow_two, inv_pow]
  · rw [variances, if_neg hi, inverted, if_neg ((hsame i).not.2 hi), mul_zero]

/-- The covariance is the inverse of `Aᵀ · A`, if as many values are kept as there are
columns. -/
theorem spectral_variances_mul (hU : (U.map value)ᵀ * U.map value = 1)
    (hV : (V.map value)ᵀ * V.map value = 1) (hc : 0 < value c)
    (hall : Fintype.card { i : Fin p // value c ≤ s.singular i } = n) :
    spectral (V.map value) (V.map value) (s.variances c) *
      ((spectral (U.map value) (V.map value) s.singular)ᵀ *
        spectral (U.map value) (V.map value) s.singular) = 1 := by
  have hpn : p ≤ n := by
    have hrank : (1 : Matrix (Fin p) (Fin p) ℝ).rank ≤ n :=
      hV ▸ (Matrix.rank_mul_le_right _ _).trans (Matrix.rank_le_height _)
    rwa [Matrix.rank_one, Fintype.card_fin] at hrank
  have hcard : Fintype.card { i : Fin p // value c ≤ s.singular i } ≤ p :=
    (Fintype.card_subtype_le _).trans_eq (Fintype.card_fin p)
  obtain rfl : p = n := le_antisymm hpn (hall ▸ hcard)
  have hkept (i : Fin p) : value c ≤ s.singular i := by
    have hcount := hall.trans (Fintype.card_fin p).symm
    rw [Fintype.card_subtype, ← Finset.card_univ, Finset.card_filter_eq_iff] at hcount
    exact hcount i (Finset.mem_univ i)
  have hone : (fun i : Fin p => s.variances c i * (s.singular i * s.singular i)) = fun _ => 1 := by
    funext i
    rw [variances, if_pos (hkept i), ← pow_two,
      inv_mul_cancel₀ (pow_ne_zero 2 (hc.trans_le (hkept i)).ne')]
  rw [spectral_transpose, spectral_mul hU, spectral_mul hV, hone, spectral, Matrix.diagonal_one,
    Matrix.mul_one, mul_eq_one_comm]
  exact hV

section Main

variable {d : DenseMatrix ρ} {S : Matrix (Fin p) (Fin p) ρ} {A : Matrix (Fin m) (Fin n) ℝ}

omit [ExactReal ρ] in
/-- Where no value reaches the cutoff, the covariance is refused. -/
theorem covariance_eq_cutoffTooLarge (hnone : s.leading c = 0) :
    s.covariance c =
      .error (.cutoffTooLarge (RealScalar.toFloat c) (RealScalar.toFloat s.norm)) := by
  have hcutoff : (s.values.toList.takeWhile fun x => decide (c ≤ x)).length = 0 := hnone
  unfold SVD.covariance
  rw [if_pos hcutoff]
  rfl

/-- A matrix that is the product of the factors is a sum of outer products. -/
theorem eq_spectral (hsize : s.values.size = p) (hdiagonal : s.diagonal = .ok d)
    (hd : d.Stores S) (hA : A = U.map value * S.map value * (V.map value)ᵀ) :
    A = spectral (U.map value) (V.map value) s.singular := by
  obtain ⟨S', hS', hvalue⟩ :=
    (ends_diagonal (E := Never) hsize).of_ok hdiagonal
  obtain rfl : S = S' := hd.unique hS'
  rw [hA, hvalue]
  rfl

/-- **The covariance**, for a decomposition `A = U · S · Vᵀ` with orthonormal factors and
descending values, and a positive cutoff. It is refused exactly if no singular value reaches
the cutoff. Otherwise it is the sum of `σᵢ⁻² · vᵢ · vᵢᵀ` over those that do, which is symmetric
and positive semidefinite. It is `P · Pᵀ` for the pseudo-inverse of every tolerance that keeps
the same values, and the inverse of `Aᵀ · A` if there are as many of them as columns. -/
theorem covariance_eq_sum (hu : s.u.Stores U) (hv : s.v.Stores V) (hsize : s.values.size = p)
    (hU : (U.map value)ᵀ * U.map value = 1) (hV : (V.map value)ᵀ * V.map value = 1)
    (hdescending : Antitone (s.singular : Fin p → ℝ)) (hdiagonal : s.diagonal = .ok d)
    (hd : d.Stores S) (hA : A = U.map value * S.map value * (V.map value)ᵀ)
    (hc : 0 < value c) :
    (s.covariance c =
        .error (.cutoffTooLarge (RealScalar.toFloat c) (RealScalar.toFloat s.norm)) ↔
      ∀ i : Fin p, ¬ value c ≤ s.singular i) ∧
    ((∃ i : Fin p, value c ≤ s.singular i) →
      ∃ (cov : DenseMatrix ρ) (C : Matrix (Fin n) (Fin n) ρ),
        (s.covariance c = .ok cov ∧ cov.Stores C) ∧
        C.map value = ∑ i : Fin p with value c ≤ s.singular i, (s.singular i ^ 2)⁻¹ •
          Matrix.vecMulVec ((V.map value).col i) ((V.map value).col i) ∧
        (C.map value).IsSymm ∧ (C.map value).PosSemidef ∧
        (∀ tolerance : ρ,
          (∀ i : Fin p, value tolerance < s.singular i ↔ value c ≤ s.singular i) →
            ∃ (pinv : DenseMatrix ρ) (P : Matrix (Fin n) (Fin m) ρ),
              SVD.pseudoInverse { s with tolerance := tolerance } = .ok pinv ∧ pinv.Stores P ∧
                C.map value = P.map value * (P.map value)ᵀ) ∧
        (Fintype.card { i : Fin p // value c ≤ s.singular i } = n →
          C.map value = (Aᵀ * A)⁻¹)) := by
  have hzero := leading_eq_zero_iff (c := c) hsize hdescending
  simp only [← not_le] at hzero
  constructor
  · constructor
    · intro herror
      by_contra hreached
      obtain ⟨cov, hcov, -⟩ :=
        Ends.never_iff.1 (ends_covariance hsize hdescending hc hv (hzero.not.2 hreached))
      cases hcov.symm.trans herror
    · exact fun hnone => covariance_eq_cutoffTooLarge (hzero.2 hnone)
  · rintro ⟨i, hi⟩
    have hsome : s.leading c ≠ 0 := hzero.not.2 fun hnone => hnone i hi
    obtain ⟨cov, hcov, C, hC, hvalues⟩ :=
      Ends.never_iff.1 (ends_covariance hsize hdescending hc hv hsome)
    have hreached (j : Fin p) (hj : value c ≤ s.singular j) : s.singular j ≠ 0 :=
      (hc.trans_le hj).ne'
    refine ⟨cov, C, ⟨hcov, hC⟩, ?_, ?_, ?_, ?_, ?_⟩
    · rw [hvalues, spectral_eq_sum, Finset.sum_filter]
      refine Finset.sum_congr rfl fun j _ => ?_
      rw [variances, ite_smul, zero_smul]
    · rw [hvalues, Matrix.IsSymm, spectral_transpose]
    · have hnonneg : 0 ≤ (s.variances c : Fin p → ℝ) := fun j => by
        show 0 ≤ s.variances c j
        rw [variances]
        positivity
      rw [hvalues, spectral, ← Matrix.conjTranspose_eq_transpose_of_trivial]
      exact (Matrix.PosSemidef.diagonal hnonneg).mul_mul_conjTranspose_same _
    · intro tolerance hsame
      obtain ⟨pinv, hpinv, P, hP, hinverse⟩ := Ends.never_iff.1
        (ends_pseudoInverse_of_ne (s := { s with tolerance := tolerance }) hsize
          (fun j hj => hreached j ((hsame j).1 hj)) hu hv)
      refine ⟨pinv, P, hpinv, hP, ?_⟩
      rw [hvalues, hinverse]
      exact spectral_variances_eq (s := { s with tolerance := tolerance }) hU hsame
    · intro hall
      refine (Matrix.inv_eq_left_inv ?_).symm
      rw [hvalues, eq_spectral hsize hdiagonal hd hA]
      exact spectral_variances_mul hU hV hc hall

/-- Two singular values: a cutoff that one of them reaches, one that both do, and one that is
too large. -/
theorem covariance_eq_sum_two :
    letI := exactReal 1 1
    letI := exactReal.exact 1 1
    let eye : DenseMatrix ℝ := ⟨2, 2, #[1, 0, 0, 1]⟩
    let s : SVD ℝ := ⟨eye, eye, #[3, 1], 2⟩
    let A : Matrix (Fin 2) (Fin 2) ℝ := !![3, 0; 0, 1]
    (∃ (cov pinv : DenseMatrix ℝ) (C P : Matrix (Fin 2) (Fin 2) ℝ),
      s.covariance 2 = .ok cov ∧ cov.Stores C ∧ C.PosSemidef ∧ s.pseudoInverse = .ok pinv ∧
        pinv.Stores P ∧ C = P * Pᵀ) ∧
    (∃ (cov : DenseMatrix ℝ) (C : Matrix (Fin 2) (Fin 2) ℝ),
      s.covariance 1 = .ok cov ∧ cov.Stores C ∧ C = (Aᵀ * A)⁻¹) ∧
    s.covariance 4 =
      .error (.cutoffTooLarge (RealScalar.toFloat (4 : ℝ)) (RealScalar.toFloat s.norm)) := by
  let := exactReal 1 1
  let := exactReal.exact 1 1
  intro eye s A
  let I : Matrix (Fin 2) (Fin 2) ℝ := 1
  have hread (i j : Fin 2) : eye.entry i j = .ok (I i j) := by
    fin_cases i <;> fin_cases j <;> rfl
  have heye : eye.Stores I := ⟨rfl, rfl, rfl, hread⟩
  have hI : (I.map value)ᵀ * I.map value = 1 := by
    have hone : I.map value = 1 := Matrix.map_id I
    rw [hone, Matrix.transpose_one, Matrix.one_mul]
  have hfirst : s.singular (0 : Fin 2) = 3 := rfl
  have hsecond : s.singular (1 : Fin 2) = 1 := rfl
  have hdescending : Antitone (s.singular : Fin 2 → ℝ) := by
    refine antitone_iff_forall_lt.2 fun i j hij => ?_
    obtain ⟨rfl, rfl⟩ : i = 0 ∧ j = 1 := by omega
    rw [hfirst, hsecond]
    norm_num
  obtain ⟨d, hdiagonal, S, hd, hS⟩ := Ends.never_iff.1 (ends_diagonal (rfl : s.values.size = 2))
  have hA : A = I.map value * S.map value * (I.map value)ᵀ := by
    have hone : I.map value = 1 := Matrix.map_id I
    rw [hone, hS, Matrix.one_mul, Matrix.transpose_one, Matrix.mul_one]
    ext i j
    fin_cases i <;> fin_cases j <;> rfl
  have hcovariance {c : ℝ} (hc : 0 < value c) :=
    covariance_eq_sum (s := s) heye heye rfl hI hI hdescending hdiagonal hd hA hc
  refine ⟨?_, ?_, ?_⟩
  · obtain ⟨cov, C, ⟨hcov, hC⟩, -, -, hsemidefinite, hpinv, -⟩ :=
      (hcovariance (c := 2) two_pos).2 ⟨0, by rw [hfirst]; show (2 : ℝ) ≤ 3; norm_num⟩
    obtain ⟨pinv, P, hpinv, hP, hproduct⟩ := hpinv 2 fun i => by
      show (2 : ℝ) < s.singular i ↔ (2 : ℝ) ≤ s.singular i
      fin_cases i
      · show (2 : ℝ) < 3 ↔ (2 : ℝ) ≤ 3
        norm_num
      · show (2 : ℝ) < 1 ↔ (2 : ℝ) ≤ 1
        norm_num
    exact ⟨cov, pinv, C, P, hcov, hC, hsemidefinite, hpinv, hP, hproduct⟩
  · obtain ⟨cov, C, ⟨hcov, hC⟩, -, -, -, -, hinverse⟩ :=
      (hcovariance (c := 1) one_pos).2 ⟨1, le_refl (1 : ℝ)⟩
    refine ⟨cov, C, hcov, hC, hinverse ?_⟩
    have hall (i : Fin 2) : value (1 : ℝ) ≤ s.singular i := hdescending (Fin.le_last i)
    rw [Fintype.card_of_subtype Finset.univ fun i => ⟨fun _ => hall i, fun _ => Finset.mem_univ i⟩]
    exact Fintype.card_fin 2
  · refine (hcovariance (c := 4) four_pos).1.2 fun i h => ?_
    have hle : s.singular i ≤ 3 := hdescending (Fin.zero_le i)
    exact absurd (h.trans hle) (by show ¬ (4 : ℝ) ≤ 3; norm_num)

end Main

end

end DenseFactor.SVD
