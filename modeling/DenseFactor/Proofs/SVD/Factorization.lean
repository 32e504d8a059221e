import Mathlib
import DenseFactor.SVD.Basic
import DenseFactor.Proofs.Scalar.Real
import DenseFactor.Proofs.SVD.Shift

/-!
# DenseFactor.Proofs.SVD.Factorization

The singular value decomposition over exact real elements: **the factors are orthonormal,
and their product is the matrix** up to what was discarded on the way.

Design points:

* `IsCompact u v values A δ` is the result for one matrix: `p` orthonormal columns on
  either side, `p` values between them, and a product at a distance of at most `δ`. It
  says nothing about how the factors were found, so that it turns over with the matrix.
* `IsBounded values A` compares the values with the entries. An orthogonal step keeps the
  norm of the form, and setting an entry to zero lowers it, so no run of the iteration can
  make the values larger than the matrix.
* What is discarded is measured on the matrix that was divided by its largest entry. The
  scale multiplies it, unless it is that of a zero matrix, which is not divided.
* The iteration may need more passes than it is allowed. Nothing else can fail, and with at
  most two rows or columns not even this.
-/

namespace DenseFactor

open ExactScalar (value)
open scoped Matrix

variable {ρ : Type} [RealScalar ρ] [ExactReal ρ] {m n p : ℕ} {E : Failure → Prop}

namespace DenseMatrix.Stores

variable {α : Type} {a : DenseMatrix α} {M : Matrix (Fin m) (Fin n) α}

/-- Changing every stored element changes every entry. -/
theorem map (h : a.Stores M) (f : α → α) :
    ({ a with data := a.data.map f } : DenseMatrix α).Stores (M.map f) := by
  refine h.replace Array.size_map fun i j => ?_
  unfold Storage.read
  rw [Array.getElem?_map, h.getElem? i j]
  rfl

end DenseMatrix.Stores

/-- A transposed matrix has the same largest entry. -/
theorem maxModulus_transpose {a a' : DenseMatrix ρ} {M : Matrix (Fin m) (Fin n) ρ}
    (hM : a.Stores M) (hM' : a'.Stores Mᵀ) : value a'.maxModulus = value a.maxModulus := by
  refine eq_of_forall_ge_iff fun c => ?_
  rw [maxModulus_le_iff hM, maxModulus_le_iff hM']
  exact and_congr_right fun _ => forall_comm

namespace SVD

noncomputable section

/-! ### Compact decompositions -/

/-- The factors have orthonormal columns, and with the values between them their product
is `A` up to `δ`. -/
def IsCompact (u v : DenseMatrix ρ) (values : Array ρ) (A : Matrix (Fin m) (Fin n) ℝ) (p : ℕ)
    (δ : ℝ) : Prop :=
  values.size = p ∧ ∃ (U : Matrix (Fin m) (Fin p) ρ) (V : Matrix (Fin n) (Fin p) ρ),
    (u.Stores U ∧ v.Stores V) ∧
    ((U.map value)ᵀ * U.map value = 1 ∧ (V.map value)ᵀ * V.map value = 1) ∧
    frobenius (A - U.map value * Matrix.diagonal (fun i : Fin p => reals values i) *
      (V.map value)ᵀ) ≤ δ

/-- The transpose is decomposed by the same factors, exchanged. -/
theorem IsCompact.transpose {u v : DenseMatrix ρ} {values : Array ρ}
    {A : Matrix (Fin m) (Fin n) ℝ} {δ : ℝ} (h : IsCompact u v values A p δ) :
    IsCompact v u values Aᵀ p δ := by
  obtain ⟨hsize, U, V, hstores, horthonormal, hdistance⟩ := h
  refine ⟨hsize, V, U, hstores.symm, horthonormal.symm, ?_⟩
  rw [← frobenius_transpose, Matrix.transpose_sub, Matrix.transpose_transpose,
    Matrix.transpose_mul, Matrix.transpose_mul, Matrix.transpose_transpose,
    Matrix.diagonal_transpose, ← Matrix.mul_assoc]
  exact hdistance

/-- The first columns are enough for a diagonal form. -/
theorem mul_bidiagonal (hnm : n ≤ m) (U : Matrix (Fin m) (Fin m) ℝ) {d e : ℕ → ℝ}
    (he : ∀ i, e i = 0) : U * (bidiagonal d e : Matrix (Fin m) (Fin n) ℝ) =
      U.submatrix id (Fin.castLE hnm) * Matrix.diagonal fun i : Fin n => d i := by
  ext i l
  rw [Matrix.mul_diagonal, Matrix.mul_apply, Finset.sum_eq_single (Fin.castLE hnm l)]
  · simp [bidiagonal]
  · intro r _ hr
    have hne : (r : ℕ) ≠ l := fun h => hr (Fin.ext h)
    rw [bidiagonal_row, he, unit_of_ne hne.symm, mul_zero, zero_mul, add_zero, mul_zero]
  · exact fun hnot => absurd (Finset.mem_univ _) hnot

/-- A diagonal form with the first columns of its left transformation. -/
theorem isCompact_of_diagonalizes {b : Bidiagonal ρ} {A : Matrix (Fin m) (Fin n) ℝ}
    (hb : b.Diagonalizes A) (hnm : n ≤ m) :
    Ends E (fun u => IsCompact u b.v b.diag A n (value b.discarded))
      (DenseMatrix.tabulate m n b.u.entry) := by
  obtain ⟨U, V, hu, hv, htransforms⟩ := hb.carries
  let U₁ : Matrix (Fin m) (Fin n) ρ := U.submatrix id (Fin.castLE hnm)
  refine (Ends.tabulate_of_ok (M := U₁) fun i j => hu.entry i (Fin.castLE hnm j)).imp
    fun u hu' => ?_
  have hsubmatrix : U₁.map value = (U.map value).submatrix id (Fin.castLE hnm) := rfl
  refine ⟨hb.diag_size, U₁, V, ⟨hu', hv⟩, ⟨?_, htransforms.right⟩, ?_⟩
  · rw [hsubmatrix, Matrix.transpose_submatrix,
      ← Matrix.submatrix_mul _ _ _ id _ Function.bijective_id, htransforms.left,
      Matrix.submatrix_one _ (Fin.castLE_injective hnm)]
  · rw [hsubmatrix, ← mul_bidiagonal hnm _ hb.diagonal]
    exact htransforms.distance

/-- Multiplying the elements of a run multiplies its numbers. -/
theorem reals_map_mul (xs : Array ρ) (x : ρ) (i : ℕ) :
    reals (xs.map (· * x)) i = value x * reals xs i := by
  rcases lt_or_ge i xs.size with hi | hi
  · simp only [reals, Array.getD_eq_getD_getElem?, Array.getElem?_map,
      Array.getElem?_eq_getElem hi, Option.map_some, Option.getD_some, ExactScalar.value_mul]
    exact mul_comm _ _
  · rw [reals_of_le hi, reals_of_le (Array.size_map.trans_le hi), mul_zero]

/-- Multiplying the values multiplies the matrix, and the distance with it. -/
theorem IsCompact.scale {u v : DenseMatrix ρ} {values : Array ρ} {A : Matrix (Fin m) (Fin n) ℝ}
    {δ : ℝ} (h : IsCompact u v values A p δ) {scale : ρ} (hscale : 0 ≤ value scale) :
    IsCompact u v (values.map (· * scale)) (value scale • A) p (value scale * δ) := by
  obtain ⟨hsize, U, V, hstores, horthonormal, hdistance⟩ := h
  refine ⟨Array.size_map.trans hsize, U, V, hstores, horthonormal, ?_⟩
  have hvalues : (Matrix.diagonal fun i : Fin p => reals (values.map (· * scale)) i) =
      value scale • Matrix.diagonal fun i : Fin p => reals values i := by
    rw [← Matrix.diagonal_smul]
    congr 1
    funext i
    rw [reals_map_mul, Pi.smul_apply, smul_eq_mul]
  rw [hvalues, Matrix.mul_smul, Matrix.smul_mul, ← smul_sub, frobenius_smul, abs_of_nonneg hscale]
  exact mul_le_mul_of_nonneg_left hdistance hscale

/-! ### The size of the values -/

/-- The squares of the values sum to no more than the squares of the entries. -/
def IsBounded (values : Array ρ) (A : Matrix (Fin m) (Fin n) ℝ) : Prop :=
  ∑ i ∈ Finset.range values.size, reals values i ^ 2 ≤ frobenius A ^ 2

theorem IsBounded.transpose {values : Array ρ} {A : Matrix (Fin m) (Fin n) ℝ}
    (h : IsBounded values A) : IsBounded values Aᵀ := by
  rw [IsBounded, frobenius_transpose]
  exact h

theorem IsBounded.scale {values : Array ρ} {A : Matrix (Fin m) (Fin n) ℝ}
    (h : IsBounded values A) (scale : ρ) :
    IsBounded (values.map (· * scale)) (value scale • A) := by
  simp only [IsBounded, Array.size_map, reals_map_mul, frobenius_smul, mul_pow, sq_abs,
    ← Finset.mul_sum]
  exact mul_le_mul_of_nonneg_left h (sq_nonneg _)

/-- A diagonal form has nothing but its diagonal. -/
theorem sq_frobenius_bidiagonal (hnm : n ≤ m) {d e : ℕ → ℝ} (he : ∀ i, e i = 0) :
    frobenius (bidiagonal d e : Matrix (Fin m) (Fin n) ℝ) ^ 2 =
      ∑ i ∈ Finset.range n, d i ^ 2 := by
  have hentry (i : Fin m) (j : Fin n) :
      (bidiagonal d e i j : ℝ) = if i = Fin.castLE hnm j then d j else 0 := by
    simp only [bidiagonal, Matrix.of_apply, he, ite_self, Fin.ext_iff, Fin.val_castLE]
  rw [sq_frobenius, Finset.sum_comm, ← Fin.sum_univ_eq_sum_range fun i => d i ^ 2]
  refine Finset.sum_congr rfl fun j _ => ?_
  simp only [hentry, ite_pow, zero_pow two_ne_zero, Finset.sum_ite_eq', Finset.mem_univ, if_true]

/-- The diagonal that is left has at most the norm of the matrix: orthogonal steps keep it,
and dropping entries lowers it. -/
theorem isBounded_of_diagonalizes {b : Bidiagonal ρ} {A : Matrix (Fin m) (Fin n) ℝ}
    (hb : b.Diagonalizes A) (hnm : n ≤ m) : IsBounded b.diag A := by
  obtain ⟨U, V, -, -, htransforms⟩ := hb.carries
  rw [IsBounded, hb.diag_size, ← sq_frobenius_bidiagonal hnm hb.diagonal]
  exact pow_le_pow_left₀ (Real.sqrt_nonneg _) htransforms.norm_le 2

/-! ### The program -/

/-- How far the product may be from the matrix, if `discarded` was discarded. -/
def deviation (a : DenseMatrix ρ) (discarded : ρ) : ℝ :=
  if 0 < value a.maxModulus then value a.maxModulus * value discarded else value discarded

/-- A matrix with no fewer rows than columns is decomposed. -/
theorem ends_ofTall (hmin : 0 ≤ value (RealScalar.minPositive : ρ)) (hnm : n ≤ m)
    (hE : (0 ≤ value (RealScalar.epsilon : ρ) → 2 < n) → E .noConvergence) {a : DenseMatrix ρ}
    {M : Matrix (Fin m) (Fin n) ρ} (hM : a.Stores M) :
    Ends E (fun f => IsCompact f.u f.v f.values (M.map value) n (deviation a f.form.discarded) ∧
        IsBounded f.values (M.map value)) (ofTall a) := by
  have hnumber (b : Bidiagonal ρ) : ¬ b.hasNaN = true := by
    simp [Bidiagonal.hasNaN, ExactReal.isNaN_eq]
  have hbudget : 1 < n → 2 ≤ 30 * max m n := fun hn => by
    rw [max_eq_left hnm]
    omega
  unfold ofTall
  rw [hM.nrows, hM.ncols]
  by_cases hpos : 0 < value a.maxModulus
  · have hscale : scale? a = some a.maxModulus := by
      have hlt : (0 : ρ) < a.maxModulus := by
        rwa [ExactReal.lt_iff, ExactScalar.value_zero']
      simp [scale?, hlt, ExactReal.isFinite_eq]
    have hscaled : (M.map (· / a.maxModulus)).map value = (value a.maxModulus)⁻¹ • M.map value := by
      ext i j
      rw [Matrix.map_apply, Matrix.map_apply, ExactScalar.value_div _ _ hpos.ne', Matrix.smul_apply,
        Matrix.map_apply, smul_eq_mul, div_eq_inv_mul]
    have hback : value a.maxModulus • ((value a.maxModulus)⁻¹ • M.map value) = M.map value := by
      rw [smul_smul, mul_inv_cancel₀ hpos.ne', one_smul]
    rw [hscale]
    refine (Bidiagonal.ends_ofTall hmin hnm (hM.map (· / a.maxModulus))).bind fun b hb => ?_
    rw [hscaled] at hb
    rw [if_neg (hnumber b)]
    refine (Bidiagonal.ends_diagonalize hb hnm hE hbudget).bind fun form hform => ?_
    refine (isCompact_of_diagonalizes hform hnm).bind fun u hu => ?_
    have hcompact := hu.scale hpos.le
    have hbounded := (isBounded_of_diagonalizes hform hnm).scale a.maxModulus
    rw [hback] at hcompact hbounded
    rw [Ends.pure_iff, deviation, if_pos hpos]
    exact ⟨hcompact, hbounded⟩
  · have hscale : scale? a = none := by
      have hlt : ¬ (0 : ρ) < a.maxModulus := by
        rwa [ExactReal.lt_iff, ExactScalar.value_zero']
      simp [scale?, hlt]
    rw [hscale]
    refine (Bidiagonal.ends_ofTall hmin hnm hM).bind fun b hb => ?_
    rw [if_neg (hnumber b)]
    refine (Bidiagonal.ends_diagonalize hb hnm hE hbudget).bind fun form hform => ?_
    refine (isCompact_of_diagonalizes hform hnm).bind fun u hu => ?_
    rw [Ends.pure_iff, deviation, if_neg hpos]
    exact ⟨hu, isBounded_of_diagonalizes hform hnm⟩

/-- Every matrix is decomposed, a wide one through its transpose. -/
theorem ends_factorize_bounded (hmin : 0 ≤ value (RealScalar.minPositive : ρ))
    (hE : (0 ≤ value (RealScalar.epsilon : ρ) → 2 < min m n) → E .noConvergence)
    {a : DenseMatrix ρ} {M : Matrix (Fin m) (Fin n) ρ} (hM : a.Stores M) :
    Ends E (fun f => IsCompact f.u f.v f.values (M.map value) (min m n)
        (deviation a f.form.discarded) ∧ IsBounded f.values (M.map value)) (factorize a) := by
  unfold factorize
  rw [hM.nrows, hM.ncols]
  by_cases hnm : n ≤ m
  · rw [if_pos hnm, min_eq_right hnm]
    rw [min_eq_right hnm] at hE
    exact ends_ofTall hmin hnm hE hM
  · have hmn : m ≤ n := (not_le.1 hnm).le
    rw [if_neg hnm, min_eq_left hmn]
    rw [min_eq_left hmn] at hE
    refine hM.transpose.bind fun a' hM' => ?_
    refine (ends_ofTall hmin hmn hE hM').bind fun f hf => ?_
    have hdeviation : deviation a' f.form.discarded = deviation a f.form.discarded := by
      rw [deviation, deviation, maxModulus_transpose hM hM']
    rw [Ends.pure_iff, ← hdeviation]
    exact ⟨hf.1.transpose, hf.2.transpose⟩

theorem ends_factorize (hmin : 0 ≤ value (RealScalar.minPositive : ρ))
    (hE : (0 ≤ value (RealScalar.epsilon : ρ) → 2 < min m n) → E .noConvergence)
    {a : DenseMatrix ρ} {M : Matrix (Fin m) (Fin n) ρ} (hM : a.Stores M) :
    Ends E (fun f => IsCompact f.u f.v f.values (M.map value) (min m n)
        (deviation a f.form.discarded)) (factorize a) :=
  (ends_factorize_bounded hmin hE hM).imp fun _ hf => hf.1

/-- The values as a diagonal matrix. -/
theorem ends_diagonal {values : Array ρ} (hsize : values.size = p) :
    Ends E (fun s => ∃ S : Matrix (Fin p) (Fin p) ρ, s.Stores S ∧
        S.map value = Matrix.diagonal fun i : Fin p => reals values i)
      (DenseMatrix.diagonal values) := by
  unfold DenseMatrix.diagonal
  rw [hsize]
  let S : Matrix (Fin p) (Fin p) ρ := Matrix.of fun i j => if i = j then values.getD i 0 else 0
  have hread (i : Fin p) : Storage.read values i = .ok (values.getD i 0) := by
    have hi : (i : ℕ) < values.size := hsize ▸ i.isLt
    rw [Storage.read_of_lt hi, Array.getD_eq_getD_getElem?, Array.getElem?_eq_getElem hi,
      Option.getD_some]
  refine (Ends.tabulate_of_ok (M := S) fun i j => ?_).imp fun s hs => ⟨S, hs, ?_⟩
  · by_cases hij : i = j
    · rw [if_pos (congrArg Fin.val hij), hread i]
      exact congrArg Except.ok (if_pos hij).symm
    · rw [if_neg fun h => hij (Fin.ext h)]
      exact congrArg Except.ok (if_neg hij).symm
  · ext i j
    rw [Matrix.map_apply, Matrix.diagonal_apply]
    by_cases hij : i = j
    · have hS : S i j = values.getD i 0 := if_pos hij
      rw [if_pos hij, hS]
      rfl
    · have hS : S i j = 0 := if_neg hij
      rw [if_neg hij, hS, ExactScalar.value_zero']

omit [ExactReal ρ] in
/-- A decomposition in terms of the factors that were computed. -/
theorem of_eq_ok {a : MatrixView ρ} {s : SVD ρ} (hs : SVD.of a = .ok s) :
    ∃ (dense : DenseMatrix ρ) (f : Factors ρ), DenseMatrix.ofView a = .ok dense ∧
      factorize dense = .ok f ∧ s.u = f.u ∧ s.v = f.v ∧ s.values = f.values := by
  unfold SVD.of ofTolerance? at hs
  cases hdense : DenseMatrix.ofView a with
  | error e => simp [hdense, bind, Except.bind] at hs
  | ok dense =>
      cases hf : factorize dense with
      | error e => simp [hdense, hf, bind, Except.bind] at hs
      | ok f =>
          simp only [hdense, hf, bind, Except.bind, pure, Except.pure, Except.ok.injEq] at hs
          exact ⟨dense, f, rfl, hf, hs ▸ rfl, hs ▸ rfl, hs ▸ rfl⟩

section Main

variable {A : Matrix (Fin m) (Fin n) ρ} {a : MatrixView ρ} {s : SVD ρ}

/-- A matrix with at most two rows or columns is always decomposed. -/
theorem exists_of_eq_ok (ha : a.Shows A) (hε : 0 ≤ value (RealScalar.epsilon : ρ))
    (hmin : 0 ≤ value (RealScalar.minPositive : ρ)) (htwo : min m n ≤ 2) :
    ∃ s, SVD.of a = .ok s := by
  obtain ⟨dense, hdense, hstores⟩ := Ends.never_iff.1 ha.ofView
  obtain ⟨f, hf, -⟩ := Ends.never_iff.1
    (ends_factorize hmin (fun h => absurd (h hε) (not_lt.2 htwo)) hstores)
  refine ⟨⟨f.u, f.v, f.values, defaultTolerance a.nrows a.ncols f.values⟩, ?_⟩
  unfold SVD.of ofTolerance?
  simp only [hdense, hf, bind, Except.bind, pure, Except.pure]
  rfl

/-- **The factors are orthonormal.** Whenever a decomposition is returned, the columns of
either factor are as many as the smaller dimension, and orthonormal. -/
theorem of_orthonormal (ha : a.Shows A) (hmin : 0 ≤ value (RealScalar.minPositive : ρ))
    (hs : SVD.of a = .ok s) :
    ∃ (U : Matrix (Fin m) (Fin (min m n)) ρ) (V : Matrix (Fin n) (Fin (min m n)) ρ),
      s.u.Stores U ∧ s.v.Stores V ∧
        (U.map value)ᵀ * U.map value = 1 ∧ (V.map value)ᵀ * V.map value = 1 := by
  obtain ⟨dense, f, hdense, hf, hu, hv, -⟩ := of_eq_ok hs
  have hstores : dense.Stores A := ha.ofView.of_ok (E := Never) hdense
  obtain ⟨-, U, V, hfactors, horthonormal, -⟩ :=
    (ends_factorize (E := Always) hmin (fun _ => trivial) hstores).of_ok hf
  rw [hu, hv]
  exact ⟨U, V, hfactors.1, hfactors.2, horthonormal⟩

/-- A triangular matrix of two rows, which no deflation can finish without a pass. -/
theorem of_orthonormal_two :
    letI := exactReal 0 0
    letI := exactReal.exact 0 0
    let A : Matrix (Fin 2) (Fin 2) ℝ := !![12, 7; 0, 12]
    ∃ (s : SVD ℝ) (U V : Matrix (Fin 2) (Fin 2) ℝ),
      SVD.of (.ofMatrix A) = .ok s ∧ s.u.Stores U ∧ s.v.Stores V ∧ Uᵀ * U = 1 ∧ Vᵀ * V = 1 := by
  let := exactReal 0 0
  let := exactReal.exact 0 0
  intro A
  obtain ⟨s, hs⟩ := exists_of_eq_ok (MatrixView.ofMatrix_shows A) le_rfl le_rfl le_rfl
  obtain ⟨U, V, hu, hv, hU, hV⟩ := of_orthonormal (MatrixView.ofMatrix_shows A) le_rfl hs
  exact ⟨s, U, V, hs, hu, hv, hU, hV⟩

/-- **The product of the factors is the matrix**, up to the largest entry times what was
discarded. A zero matrix is not divided by its largest entry, so there it is what was
discarded alone. -/
theorem of_reconstructs (ha : a.Shows A) (hmin : 0 ≤ value (RealScalar.minPositive : ρ))
    (hs : SVD.of a = .ok s) :
    ∃ (dense : DenseMatrix ρ) (f : Factors ρ) (diagonal : DenseMatrix ρ)
        (U : Matrix (Fin m) (Fin (min m n)) ρ) (S : Matrix (Fin (min m n)) (Fin (min m n)) ρ)
        (V : Matrix (Fin n) (Fin (min m n)) ρ),
      (DenseMatrix.ofView a = .ok dense ∧ factorize dense = .ok f) ∧
      (s.u = f.u ∧ s.values = f.values ∧ s.v = f.v) ∧
      (s.u.Stores U ∧ s.v.Stores V) ∧ (s.diagonal = .ok diagonal ∧ diagonal.Stores S) ∧
      (A.map value ≠ 0 →
        frobenius (A.map value - U.map value * S.map value * (V.map value)ᵀ) ≤
          value dense.maxModulus * value f.form.discarded) ∧
      (A.map value = 0 →
        frobenius (A.map value - U.map value * S.map value * (V.map value)ᵀ) ≤
          value f.form.discarded) ∧
      (value f.form.discarded = 0 →
        A.map value = U.map value * S.map value * (V.map value)ᵀ) := by
  obtain ⟨dense, f, hdense, hf, hu, hv, hvalues⟩ := of_eq_ok hs
  have hstores : dense.Stores A := ha.ofView.of_ok (E := Never) hdense
  obtain ⟨hsize, U, V, hfactors, -, hdistance⟩ :=
    (ends_factorize (E := Always) hmin (fun _ => trivial) hstores).of_ok hf
  obtain ⟨diagonal, hdiagonal, S, hS, hvalue⟩ := Ends.never_iff.1 (ends_diagonal hsize)
  rw [← hvalue] at hdistance
  have hpos := maxModulus_pos_iff hstores
  refine ⟨dense, f, diagonal, U, S, V, ⟨hdense, hf⟩, ⟨hu, hvalues, hv⟩, ?_, ?_, fun hA => ?_,
    fun hA => ?_, fun hzero => ?_⟩
  · rw [hu, hv]
    exact hfactors
  · rw [SVD.diagonal, hvalues]
    exact ⟨hdiagonal, hS⟩
  · rwa [deviation, if_pos (hpos.2 hA)] at hdistance
  · rwa [deviation, if_neg fun h => hpos.1 h hA] at hdistance
  · have hnone : deviation dense f.form.discarded = 0 := by
      rw [deviation, hzero, mul_zero, ite_self]
    rw [hnone] at hdistance
    exact sub_eq_zero.1 (eq_zero_of_frobenius hdistance)

/-- A wide matrix of two rows, which is decomposed through its transpose. -/
theorem of_reconstructs_two :
    letI := exactReal 0 0
    letI := exactReal.exact 0 0
    let A : Matrix (Fin 2) (Fin 3) ℝ := !![12, 7, 0; 0, 12, 5]
    ∃ (s : SVD ℝ) (dense : DenseMatrix ℝ) (f : Factors ℝ) (U S : Matrix (Fin 2) (Fin 2) ℝ)
        (V : Matrix (Fin 3) (Fin 2) ℝ),
      SVD.of (.ofMatrix A) = .ok s ∧ factorize dense = .ok f ∧ s.u.Stores U ∧ s.v.Stores V ∧
        frobenius (A - U * S * Vᵀ) ≤ dense.maxModulus * f.form.discarded ∧
        (f.form.discarded = 0 → A = U * S * Vᵀ) := by
  let := exactReal 0 0
  let := exactReal.exact 0 0
  intro A
  obtain ⟨s, hs⟩ := exists_of_eq_ok (MatrixView.ofMatrix_shows A) le_rfl le_rfl le_rfl
  obtain ⟨dense, f, _, U, S, V, ⟨-, hf⟩, -, ⟨hu, hv⟩, -, hdistance, -, hexact⟩ :=
    of_reconstructs (MatrixView.ofMatrix_shows A) le_rfl hs
  have hA : A ≠ 0 := fun h => by
    have hentry : (12 : ℝ) = 0 := congrFun (congrFun h 0) 0
    norm_num at hentry
  exact ⟨s, dense, f, U, S, V, hs, hf, hu, hv, hdistance hA, hexact⟩

end Main

end

end SVD

end DenseFactor
