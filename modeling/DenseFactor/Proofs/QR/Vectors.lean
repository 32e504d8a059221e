import Mathlib
import DenseFactor.Scalar.Binary
import DenseFactor.Proofs.QR.RankRevealing
import DenseFactor.Proofs.QR.Solver

/-!
# DenseFactor.Proofs.QR.Vectors

Over exact real or complex elements the vectors that can be read off a QR decomposition are
those of **the reflections that were made**, scaled to a head between one and two.

Design points:

* A vector is divided by the negated diagonal entry. With the entry `a` that a column `x` is
  reflected to, the head becomes `1 + |x₀|/‖x‖` (`head_eq`), whatever the phase of `x₀`.
* Scaling a vector scales its reflector's denominator alike, so the reflector is
  `1 - h · hᴴ / h₀` for the scaled vector `h`.
* The unitary factor composes the reflectors the last one first. They are Hermitian, so it is
  their product in the order in which they were made.
* A column without a reflection has a zero on the diagonal of `R`. The unitary factor leaves it
  out, but the accessor divides by its entry all the same, zero by zero.
-/

namespace DenseFactor.QR

open ExactScalar (value)
open scoped Matrix

noncomputable section

variable {𝕜 : Type} [RCLike 𝕜] {m n : ℕ}

/-! ### Scaled vectors -/

/-- The reflector of a vector that is scaled so that its head is its denominator. -/
def scaledReflector (h : Fin m → 𝕜) (k : Fin m) : Matrix (Fin m) (Fin m) 𝕜 :=
  1 - (h k)⁻¹ • Matrix.vecMulVec h (star h)

section Scaled

variable {w : Matrix (Fin n) (Fin m) 𝕜} {d : ℕ → 𝕜} {k : Fin (min m n)}

/-- Dividing the vector by its negated entry does not change the reflector. -/
theorem leftReflector_eq_scaledReflector (hd : d k ≠ 0) {h : Fin m → 𝕜}
    (hh : ∀ i, h i = columnRest w k i / (0 - d k)) :
    leftReflector w d k = scaledReflector h (asRow k) := by
  have hd' : star (d k) ≠ 0 := star_ne_zero.2 hd
  ext i j
  simp only [leftReflector, reflector, scaledReflector, Matrix.add_apply, Matrix.sub_apply,
    Matrix.smul_apply, Matrix.vecMulVec_apply, Pi.star_apply, smul_eq_mul, hh, zero_sub, star_div₀,
    star_neg, columnRest_of_le w k le_rfl]
  by_cases hhead : w (asCol k) (asRow k) = 0
  · simp [hhead]
  · field_simp
    ring

theorem norm_le_length (x : Fin m → 𝕜) (k : Fin m) : ‖x k‖ ≤ length x := by
  refine Real.le_sqrt_of_sq_le ?_
  rw [sq]
  exact Finset.single_le_sum (f := fun i => ‖x i‖ * ‖x i‖) (fun i _ => mul_self_nonneg _)
    (Finset.mem_univ k)

/-- The scaled head of the vector that reflects a column. -/
theorem LeavesReflection.head_eq {x : Fin m → 𝕜} (hd : d k = newEntry (x (asRow k)) (length x))
    (hx : columnRest w k = householder x (asRow k)) (hne : d k ≠ 0) :
    w (asCol k) (asRow k) / (0 - d k) = ((1 + ‖x (asRow k)‖ / length x : ℝ) : 𝕜) := by
  have hlength : (length x : 𝕜) ≠ 0 := by
    intro hzero
    refine hne ?_
    rw [hd, newEntry_eq_zero_iff]
    exact_mod_cast hzero
  have hd' : star (d k) ≠ 0 := star_ne_zero.2 hne
  have hproduct := LeavesReflection.pivotProduct_eq hd hx
  have hsquare : star (d k) * d k = (length x : 𝕜) * (length x : 𝕜) := by
    rw [hd, star_newEntry_mul_self]
  rw [QR.pivotProduct_eq] at hproduct
  calc w (asCol k) (asRow k) / (0 - d k)
      = -(star (d k) * w (asCol k) (asRow k)) / (star (d k) * d k) := by
        field_simp
        ring
    _ = ((1 + ‖x (asRow k)‖ / length x : ℝ) : 𝕜) := by
        rw [hproduct, hsquare]
        push_cast
        field_simp
        ring

/-- The scaled head of a reflection is real and between one and two. -/
theorem LeavesReflection.head_mem (h : LeavesReflection w d k) (hne : d k ≠ 0) :
    ∃ c : ℝ, 1 ≤ c ∧ c ≤ 2 ∧ w (asCol k) (asRow k) / (0 - d k) = (c : 𝕜) := by
  obtain ⟨x, hd, hx⟩ := h
  have hle := norm_le_length x (asRow k)
  have hlength : 0 ≤ length x := Real.sqrt_nonneg _
  refine ⟨1 + ‖x (asRow k)‖ / length x, ?_, ?_, LeavesReflection.head_eq hd hx hne⟩
  · have := div_nonneg (norm_nonneg (x (asRow k))) hlength
    linarith
  · have := div_le_one_of_le₀ hle hlength
    linarith

/-- Without an entry there is no vector. -/
theorem LeavesReflection.columnRest_eq_zero (h : LeavesReflection w d k) (hzero : d k = 0) :
    columnRest w k = 0 := by
  obtain ⟨x, hd, hx⟩ := h
  rw [hd, newEntry_eq_zero_iff] at hzero
  rw [hx, householder_of_length hzero]

end Scaled

/-- The conjugate transpose of a composition of Hermitian matrices is their product. -/
theorem composed_conjTranspose {p : ℕ} {H : Fin p → Matrix (Fin m) (Fin m) 𝕜}
    (h : ∀ i, (H i)ᴴ = H i) : (composed H p)ᴴ = (List.ofFn H).prod := by
  have hfirst (k : ℕ) (hk : k ≤ p) : (composed H k)ᴴ = ((List.ofFn H).take k).prod := by
    induction k with
    | zero => simp [composed]
    | succ k ih =>
        have hlength : k < (List.ofFn H).length := by
          rw [List.length_ofFn]
          exact hk
        rw [composed_succ ⟨k, hk⟩, Matrix.conjTranspose_mul, ih (by omega), h,
          List.prod_take_succ _ _ hlength, List.getElem_ofFn]
  have hwhole : (List.ofFn H).take p = List.ofFn H := by
    rw [List.take_of_length_le]
    rw [List.length_ofFn]
  rw [hfirst p le_rfl, hwhole]

/-! ### What is read off -/

/-- The columns of `H` are the vectors of the reflections that `Q` is made of, where `R` is the
triangular factor: a zero on its diagonal stands for no reflection. -/
structure DescribesReflections {α : Type} [Arithmetic α] [ExactScalar α 𝕜]
    (H : Matrix (Fin m) (Fin n) α) (Q : Matrix (Fin m) (Fin m) α) (R : Matrix (Fin m) (Fin n) α) :
    Prop where
  above (i : Fin m) (j : Fin n) (h : (i : ℕ) < j) : H i j = 0
  /-- Every other entry is divided by the negated diagonal entry of its column. -/
  quotient (k : Fin (min m n)) (i : Fin m) (hi : asRow k ≤ i) :
    ∃ x y : α, H i (asCol k) = x / y ∧ value y = -value (R (asRow k) (asCol k)) ∧
      (value (R (asRow k) (asCol k)) = 0 → value x = 0)
  head (k : Fin (min m n)) (hk : value (R (asRow k) (asCol k)) ≠ 0) :
    ∃ c : ℝ, 1 ≤ c ∧ c ≤ 2 ∧ value (H (asRow k) (asCol k)) = (c : 𝕜)
  product : ∃ F : Fin (min m n) → Matrix (Fin m) (Fin m) 𝕜,
    Q.map value = (List.ofFn F).prod ∧ ∀ k,
      (value (R (asRow k) (asCol k)) = 0 → F k = 1) ∧
      (value (R (asRow k) (asCol k)) ≠ 0 →
        F k = scaledReflector ((H.map value).col (asCol k)) (asRow k))

section Reading

variable {α ρ : Type} [RealScalar ρ] [ExactReal ρ] [EuclideanScalar α ρ]
  [ExactEuclidean α ρ 𝕜] {E : Failure → Prop} {f : Factors α} {A : Matrix (Fin m) (Fin n) α}
  {W : Matrix (Fin n) (Fin m) α}

/-- The table of the vectors. -/
theorem Factors.Represents.ends_vectors (h : f.Represents A (min m n) W) :
    Ends E (fun v => ∃ H : Matrix (Fin m) (Fin n) α, v.Stores H ∧
        (∀ (i : Fin m) (j : Fin n), (i : ℕ) < j → H i j = 0) ∧
        ∀ (k : Fin (min m n)) (i : Fin m), asRow k ≤ i →
          H i (asCol k) = W (asCol k) i / (0 - f.diagonal.getD k 0)) f.vectors := by
  have hrows : f.nrows = m := h.work.ncols
  have hcols : f.ncols = n := h.work.nrows
  unfold Factors.vectors
  rw [hrows, hcols]
  let P (i : Fin m) (j : Fin n) (x : α) : Prop :=
    ((i : ℕ) < j → x = 0) ∧ ((j : ℕ) ≤ i → x = W j i / (0 - f.diagonal.getD j 0))
  refine (Ends.tabulate (P := P) fun i j => ?_).imp ?_
  · by_cases hij : (j : ℕ) ≤ i
    · have hj : (j : ℕ) < f.diagonal.size := by
        rw [h.size]
        omega
      rw [if_pos hij, h.work.entry j i, Ends.ok_bind_iff, f.read_diagonal hj]
      exact ⟨fun hlt => absurd hij (not_le.2 hlt), fun _ => rfl⟩
    · rw [if_neg hij]
      exact ⟨fun _ => rfl, fun hle => absurd hle hij⟩
  · rintro v ⟨H, hH, hentries⟩
    exact ⟨H, hH, fun i j => (hentries i j).1, fun k i hi => (hentries i (asCol k)).2 hi⟩

/-- The diagonal of the triangular factor is the stored one. -/
theorem Factors.Represents.value_diag {R : Matrix (Fin m) (Fin n) α}
    (hR : R.map value = reducedMatrix (W.map value) f.entries (min m n)) (k : Fin (min m n)) :
    value (R (asRow k) (asCol k)) = f.entries k := by
  rw [← reducedMatrix_diag (W.map value) f.entries k.isLt, ← hR, Matrix.map_apply]

/-- The vectors, the unitary factor and the triangular factor belong together. -/
theorem Factors.Represents.describesReflections (h : f.Represents A (min m n) W)
    {H : Matrix (Fin m) (Fin n) α} {Q : Matrix (Fin m) (Fin m) α} {R : Matrix (Fin m) (Fin n) α}
    (habove : ∀ (i : Fin m) (j : Fin n), (i : ℕ) < j → H i j = 0)
    (hbelow : ∀ (k : Fin (min m n)) (i : Fin m), asRow k ≤ i →
      H i (asCol k) = W (asCol k) i / (0 - f.diagonal.getD k 0))
    (hQ : Q.map value = (composed (leftReflector (W.map value) f.entries) (min m n))ᴴ)
    (hR : R.map value = reducedMatrix (W.map value) f.entries (min m n)) :
    DescribesReflections H Q R := by
  have hdiag := Represents.value_diag hR
  have hdivisor (k : Fin (min m n)) : value (0 - f.diagonal.getD k 0 : α) = 0 - f.entries k := by
    rw [ExactScalar.value_sub, ExactScalar.value_zero']
    rfl
  have hscaled (k : Fin (min m n)) (hk : f.entries k ≠ 0) (i : Fin m) :
      (H.map value).col (asCol k) i = columnRest (W.map value) k i / (0 - f.entries k) := by
    change value (H i (asCol k)) = _
    by_cases hi : asRow k ≤ i
    · rw [hbelow k i hi, ExactScalar.value_div _ _ (by rw [hdivisor]; simpa using hk), hdivisor,
        columnRest_of_le _ _ hi]
      rfl
    · rw [habove i (asCol k) (not_le.1 hi), columnRest_of_lt _ _ (not_le.1 hi), zero_div,
        ExactScalar.value_zero']
  refine ⟨habove, fun k i hi => ?_, fun k hk => ?_, ?_⟩
  · refine ⟨W (asCol k) i, _, hbelow k i hi, ?_, fun hzero => ?_⟩
    · rw [hdivisor, hdiag, zero_sub]
    · rw [hdiag] at hzero
      have hrest := congrFun ((h.leaves k k.isLt).columnRest_eq_zero hzero) i
      rwa [columnRest_of_le _ _ hi] at hrest
  · rw [hdiag] at hk
    obtain ⟨c, hone, htwo, hhead⟩ := (h.leaves k k.isLt).head_mem hk
    refine ⟨c, hone, htwo, ?_⟩
    rw [← hhead, ← columnRest_of_le (W.map value) k le_rfl]
    exact hscaled k hk (asRow k)
  · refine ⟨leftReflector (W.map value) f.entries, ?_, fun k => ?_⟩
    · rw [hQ, composed_conjTranspose fun k => ?_]
      exact reflector_conjTranspose (h.reflecting k k.isLt)
    · rw [hdiag]
      refine ⟨fun hzero => ?_, fun hk => leftReflector_eq_scaledReflector hk (hscaled k hk)⟩
      rw [leftReflector, hzero, star_zero, zero_mul, reflector_zero]

end Reading

end

/-- Over exact real or complex elements every matrix, of any shape and rank, has a QR
decomposition whose vectors, unitary factor and diagonal belong together as
`DescribesReflections` says. The vectors are divided by no zero exactly if the leading columns
are independent. All this also holds with column pivoting over real elements, for the columns
in their new order. -/
theorem vectors_describe_reflections {α ρ 𝕜 : Type} [RealScalar ρ] [ExactReal ρ]
    [EuclideanScalar α ρ] [RCLike 𝕜] [ExactEuclidean α ρ 𝕜] {m n : ℕ}
    {A : Matrix (Fin m) (Fin n) α} {a : MatrixView α} (ha : a.Shows A)
    {B : Matrix (Fin m) (Fin n) ρ} {b : MatrixView ρ} (hb : b.Shows B) (threshold : ρ) :
    (∃ (qr : QR α ρ) (h q r : DenseMatrix α) (H R : Matrix (Fin m) (Fin n) α)
        (Q : Matrix (Fin m) (Fin m) α),
      ofThreshold threshold a = .ok qr ∧
        (qr.h = .ok h ∧ h.Stores H) ∧ (qr.q = .ok q ∧ q.Stores Q) ∧ (qr.r = .ok r ∧ r.Stores R) ∧
        DescribesReflections H Q R ∧
        ((∀ k : Fin (min m n), value (R (asRow k) (asCol k)) ≠ 0) ↔
          LinearIndependent 𝕜 fun k : Fin (min m n) => (A.map value).col (asCol k))) ∧
    ∃ (qr : RankRevealingQR ρ) (σ : Equiv.Perm (Fin n)) (h q r : DenseMatrix ρ)
        (H R : Matrix (Fin m) (Fin n) ρ) (Q : Matrix (Fin m) (Fin m) ρ),
      RankRevealingQR.ofThreshold threshold b = .ok qr ∧ Lists qr.permutation σ ∧
        (qr.h = .ok h ∧ h.Stores H) ∧ (qr.q = .ok q ∧ q.Stores Q) ∧ (qr.r = .ok r ∧ r.Stores R) ∧
        DescribesReflections H Q R ∧
        ((∀ k : Fin (min m n), value (R (asRow k) (asCol k)) ≠ 0) ↔
          LinearIndependent ℝ fun k : Fin (min m n) => (B.map value).col (σ (asCol k))) := by
  constructor
  · obtain ⟨qr, hqr, W, hW⟩ := Ends.never_iff.1 (ends_ofThreshold ha threshold)
    obtain ⟨h, hh, H, hH, habove, hbelow⟩ := Ends.never_iff.1 hW.ends_vectors
    obtain ⟨qt, hqt, Qt, hQt, hcomposed⟩ := Ends.never_iff.1 hW.ends_adjointQ
    obtain ⟨q, hq, Q, hQ, hadjoint⟩ := Ends.never_iff.1 (ends_adjoint hQt)
    obtain ⟨r, hr, R, hR, hreduced, -⟩ := Ends.never_iff.1 hW.ends_upper
    have hq' : qr.q = .ok q := by
      unfold QR.q
      rw [hqt]
      exact hq
    refine ⟨qr, h, q, r, H, R, Q, hqr, ⟨hh, hH⟩, ⟨hq', hQ⟩, ⟨hr, hR⟩, ?_, ?_⟩
    · exact hW.describesReflections habove hbelow (by rw [hadjoint, hcomposed]) hreduced
    · simp only [Factors.Represents.value_diag hreduced]
      exact hW.linearIndependent_iff.symm
  · obtain ⟨qr, hqr, σ, W, hσ, hW, -⟩ :=
      Ends.never_iff.1 (RankRevealingQR.ends_ofThreshold hb threshold)
    obtain ⟨h, hh, H, hH, habove, hbelow⟩ := Ends.never_iff.1 hW.ends_vectors
    obtain ⟨qt, hqt, Qt, hQt, hcomposed⟩ := Ends.never_iff.1 hW.ends_adjointQ
    obtain ⟨q, hq, hQ⟩ := Ends.never_iff.1 hQt.transpose
    obtain ⟨r, hr, R, hR, hreduced, -⟩ := Ends.never_iff.1 hW.ends_upper
    have hq' : qr.q = .ok q := by
      unfold RankRevealingQR.q
      rw [hqt]
      exact hq
    refine ⟨qr, σ, h, q, r, H, R, Qt.transpose, hqr, hσ, ⟨hh, hH⟩, ⟨hq', hQ⟩, ⟨hr, hR⟩, ?_, ?_⟩
    · refine hW.describesReflections habove hbelow ?_ hreduced
      rw [← hcomposed, Matrix.conjTranspose_eq_transpose_of_trivial, Matrix.transpose_map]
    · simp only [Factors.Represents.value_diag hreduced]
      exact hW.linearIndependent_iff.symm

/-- A complex column whose head is zero makes a reflection; the vector's head is one. -/
theorem vectors_describe_reflections_complex :
    letI := exactReal 1 1
    letI := exactReal.exact 1 1
    let A : Matrix (Fin 2) (Fin 1) (Cartesian ℝ) := !![⟨0, 0⟩; ⟨0, 1⟩]
    ∃ (qr : QR (Cartesian ℝ) ℝ) (h q r : DenseMatrix (Cartesian ℝ))
        (H R : Matrix (Fin 2) (Fin 1) (Cartesian ℝ)) (Q : Matrix (Fin 2) (Fin 2) (Cartesian ℝ)),
      ofThreshold 0 (.ofMatrix A) = .ok qr ∧
        (qr.h = .ok h ∧ h.Stores H) ∧ (qr.q = .ok q ∧ q.Stores Q) ∧ (qr.r = .ok r ∧ r.Stores R) ∧
        DescribesReflections H Q R ∧ value (R 0 0) ≠ 0 := by
  let := exactReal 1 1
  let := exactReal.exact 1 1
  intro A
  obtain ⟨⟨qr, h, q, r, H, R, Q, hqr, hh, hq, hr, hdescribes, hindependent⟩, -⟩ :=
    vectors_describe_reflections (MatrixView.ofMatrix_shows A)
      (MatrixView.ofMatrix_shows (0 : Matrix (Fin 2) (Fin 1) ℝ)) (0 : ℝ)
  refine ⟨qr, h, q, r, H, R, Q, hqr, hh, hq, hr, hdescribes, hindependent.2 ?_ ⟨0, by decide⟩⟩
  have : Subsingleton (Fin (min 2 1)) := inferInstanceAs (Subsingleton (Fin 1))
  refine LinearIndependent.of_subsingleton ⟨0, by decide⟩ fun hzero => ?_
  have hentry : (⟨0, 1⟩ : ℂ) = 0 := congrFun hzero 1
  exact one_ne_zero (congrArg Complex.im hentry)

/-- The column of a zero matrix makes no reflection, and its vector is zero divided by zero. -/
theorem vectors_divide_zero_by_zero :
    let zero : DenseMatrix Float := ⟨1, 1, #[0]⟩
    Ends Never (fun qr => Ends Never (fun r => Ends Never (· = 0) (r.entry 0 0)) qr.r ∧
      Ends Never (fun q => Ends Never (· = 1) (q.entry 0 0)) qr.q ∧
      Ends Never (fun h => Ends Never (RealScalar.isNaN · = true) (h.entry 0 0)) qr.h)
      (QR.of (ρ := Float) zero.view) := by
  decide +kernel

end DenseFactor.QR
