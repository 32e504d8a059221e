import Mathlib
import DenseFactor.Proofs.Cholesky.Factorization
import DenseFactor.Proofs.Cholesky.Symmetry
import DenseFactor.Proofs.Solver.Basic
import DenseFactor.Proofs.Triangular

/-!
# DenseFactor.Proofs.Cholesky.Solver

Over exact real numbers the solver of a Cholesky decomposition **solves for the mirror of
the upper triangle**, and so do its inverse and its determinant.

Design points:

* A decomposition that was accepted need not be that of a symmetric matrix. What it factors
  is `mirrored A`, whatever the symmetry threshold let pass (`ends_ofThresholds_mirrored`).
* Both substitutions divide a row and take it out of the rows on one side of it. They differ
  in the side and in which of two opposite entries they read (`ends_takeOut`). Read along its
  columns, the stored triangle is the lower factor.
* The determinant is a square because the two factors share their diagonal, and its logarithm
  is a sum because all of the diagonal is positive.
-/

namespace DenseFactor.Cholesky

open ExactScalar (value)
open scoped Matrix

variable {ρ : Type} [RealScalar ρ] [ExactReal ρ] {n c : ℕ} {E : Failure → Prop}

/-! ### Accepted matrices -/

/-- What is accepted is factored as the mirror of its upper triangle. With a positivity
threshold of zero a matrix is refused for its symmetry or because it is not definite. -/
theorem ends_ofThresholds_mirrored {A : Matrix (Fin n) (Fin n) ρ} {a : MatrixView ρ}
    (ha : a.Shows A) (symmetry : ρ) {positivity : ρ} (hpositivity : 0 ≤ value positivity) :
    Ends (fun e => e = .notPositiveDefinite →
        value positivity = 0 → ¬ (mirrored (A.map value)).PosDef)
      (fun ch => ∃ U : Matrix (Fin n) (Fin n) ρ, ch.upper.Stores U ∧
        Eliminated (mirrored (A.map value)) n (U.map value))
      (ofThresholds symmetry positivity a) := by
  unfold ofThresholds
  rw [if_neg ha.square]
  refine ha.ofView.bind ?_
  intro m hm
  refine (ends_asymmetry hm symmetry).bind ?_
  intro found _
  cases found with
  | some pair => exact fun h => Failure.noConfusion h
  | none =>
      refine (ends_upperTriangle hm).bind ?_
      intro m₀ hm₀
      obtain ⟨U₀, hU₀, hentries⟩ := hm₀
      rw [hm.nrows]
      have hsteps := ends_steps hU₀ hentries hpositivity
      have hrefused (e : Failure) (he : e = .notPositiveDefinite ∧
          (value positivity = 0 → ¬ (mirrored (A.map value)).PosDef)) :
          e = .notPositiveDefinite → value positivity = 0 →
            ¬ (mirrored (A.map value)).PosDef := fun _ => he.2
      exact (hsteps.weaken hrefused).bind fun upper hupper => hupper

section Factor

variable {S u : Matrix (Fin n) (Fin n) ℝ}

/-- The two factors share their diagonal. -/
theorem Eliminated.det_eq (h : Eliminated S n u) : S.det = (∏ i, u i i) * ∏ i, u i i := by
  have hupper : u.IsUpperTriangular := fun i j hij => h.upper i j hij
  have hproduct := h.factor.mul_transpose
  rw [Matrix.transpose_transpose] at hproduct
  rw [← hproduct, Matrix.det_mul, Matrix.det_transpose, Matrix.det_of_isUpperTriangular hupper]

/-- The diagonal is positive. -/
theorem Eliminated.diag_pos (h : Eliminated S n u) (i : Fin n) : 0 < u i i :=
  h.factor.pivot i i.isLt

end Factor

/-! ### Substitution -/

section Substitution

variable {upper x : DenseMatrix ρ} {U : Matrix (Fin n) (Fin n) ρ} {X : Matrix (Fin n) (Fin c) ρ}

theorem ends_divideRow (hU : upper.Stores U) (hX : x.Stores X) {j : Fin n}
    (hpivot : value (U j j) ≠ 0) :
    Ends E (fun x' => ∃ X' : Matrix (Fin n) (Fin c) ρ, x'.Stores X' ∧
        (∀ l, value (U j j) * value (X' j l) = value (X j l)) ∧ ∀ i l, i ≠ j → X' i l = X i l)
      (divideRow upper x j) := by
  unfold divideRow
  rw [hU.entry j j, Ends.ok_bind_iff]
  refine (Ends.mapEntries_of_ok (N := Matrix.of fun i l =>
    if i = j then X i l / U j j else X i l) hX fun i l => ?_).imp ?_
  · simp only [Matrix.of_apply, Fin.val_inj]
  · intro x' hx'
    refine ⟨_, hx', fun l => ?_, fun i l hi => ?_⟩
    · rw [Matrix.of_apply, if_pos rfl, ExactScalar.value_div _ _ hpivot, mul_div_cancel₀ _ hpivot]
    · rw [Matrix.of_apply, if_neg hi]

/-- A row is divided by its pivot and taken out of the rows on one side of it, each time as
often as the factor says. -/
theorem ends_takeOut (hU : upper.Stores U) (hX : x.Stores X) {j : Fin n}
    (hpivot : value (U j j) ≠ 0) (side : ℕ → Prop) [DecidablePred side] (hside : ¬ side j)
    {coefficient : ℕ → Except Failure ρ} {factor : Fin n → ρ}
    (hfactor : ∀ i : Fin n, side i → coefficient i = .ok (factor i)) :
    Ends E (fun x' => ∃ X' : Matrix (Fin n) (Fin c) ρ, x'.Stores X' ∧
        (∀ l, value (U j j) * X'.map value j l = X.map value j l) ∧
        ∀ i l, i ≠ j → X'.map value i l =
          if side i then X.map value i l - X'.map value j l * value (factor i)
          else X.map value i l)
      (do
        let x ← divideRow upper x j
        x.mapEntries fun i l old =>
          if side i then do return old - (← x.entry j l) * (← coefficient i)
          else .ok old) := by
  refine (ends_divideRow hU hX hpivot).bind ?_
  intro x₁ hx₁
  obtain ⟨X₁, hX₁, hdivided, hkept⟩ := hx₁
  refine (Ends.mapEntries_of_ok (N := Matrix.of fun i l =>
    if side i then X₁ i l - X₁ j l * factor i else X₁ i l) hX₁ fun i l => ?_).imp ?_
  · rw [Matrix.of_apply]
    by_cases hi : side i
    · rw [if_pos hi, if_pos hi, hX₁.entry j l, hfactor i hi]
      rfl
    · rw [if_neg hi, if_neg hi]
  · intro x₂ hx₂
    refine ⟨_, hx₂, fun l => ?_, fun i l hi => ?_⟩
    · simp only [Matrix.map_apply, Matrix.of_apply, if_neg hside]
      exact hdivided l
    · simp only [Matrix.map_apply, Matrix.of_apply, if_neg hside, hkept i l hi]
      by_cases hi' : side i
      · rw [if_pos hi', if_pos hi', ExactScalar.value_sub, ExactScalar.value_mul]
      · rw [if_neg hi', if_neg hi']

variable (hU : upper.Stores U) (hX : x.Stores X) (hupper : (U.map value).IsUpperTriangular)
  (hpivot : ∀ i, value (U i i) ≠ 0)

include hU hX hupper hpivot

/-- One row of the solution for the lower factor. -/
theorem ends_forwardStep (j : Fin n) :
    Ends E (fun x' => ∃ X' : Matrix (Fin n) (Fin c) ρ, x'.Stores X' ∧
        forwardImage (U.map value)ᵀ (j + 1) (X'.map value) =
          forwardImage (U.map value)ᵀ j (X.map value))
      (forwardStep upper x j) := by
  refine (ends_takeOut hU hX (hpivot j) (fun i => (j : ℕ) < i) (lt_irrefl _)
    fun i _ => hU.entry j i).imp ?_
  intro x' hx'
  obtain ⟨X', hX', hdivided, hrest⟩ := hx'
  refine ⟨X', hX', forwardImage_eq hupper.transpose j hdivided fun i l hi => ?_⟩
  exact hrest i l hi

/-- One row of the solution for the upper factor. -/
theorem ends_backwardStep (j : Fin n) :
    Ends E (fun x' => ∃ X' : Matrix (Fin n) (Fin c) ρ, x'.Stores X' ∧
        backwardImage (U.map value) j (X'.map value) =
          backwardImage (U.map value) (j + 1) (X.map value))
      (backwardStep upper x j) := by
  refine (ends_takeOut hU hX (hpivot j) (fun i => i < (j : ℕ)) (lt_irrefl _)
    fun i _ => hU.entry i j).imp ?_
  intro x' hx'
  obtain ⟨X', hX', hdivided, hrest⟩ := hx'
  exact ⟨X', hX', backwardImage_eq hupper j hdivided fun i l hi => hrest i l hi⟩

/-- All rows of the solution for the lower factor. -/
theorem ends_forward :
    Ends E (fun y => ∃ Y : Matrix (Fin n) (Fin c) ρ, y.Stores Y ∧
        (U.map value)ᵀ * Y.map value = X.map value)
      ((positions 0 n).foldlM (forwardStep upper) x) := by
  refine (Ends.foldlM_positions (I := fun k y => ∃ Y : Matrix (Fin n) (Fin c) ρ, y.Stores Y ∧
    forwardImage (U.map value)ᵀ k (Y.map value) = X.map value) (Nat.zero_le n) ?_ ?_).imp ?_
  · exact ⟨X, hX, forwardImage_zero _ _⟩
  · intro k y _ hk hy
    obtain ⟨Y, hY, himage⟩ := hy
    refine (ends_forwardStep hU hY hupper hpivot ⟨k, hk⟩).imp ?_
    intro y' hy'
    obtain ⟨Y', hY', hkept⟩ := hy'
    exact ⟨Y', hY', hkept.trans himage⟩
  · intro y hy
    obtain ⟨Y, hY, himage⟩ := hy
    rw [forwardImage_all] at himage
    exact ⟨Y, hY, himage⟩

/-- All rows of the solution for the upper factor, from the last one on. -/
theorem ends_backward :
    Ends E (fun y => ∃ Y : Matrix (Fin n) (Fin c) ρ, y.Stores Y ∧
        U.map value * Y.map value = X.map value)
      ((positions 0 n).reverse.foldlM (backwardStep upper) x) := by
  refine (Ends.foldReversed (I := fun k y => ∃ Y : Matrix (Fin n) (Fin c) ρ, y.Stores Y ∧
    backwardImage (U.map value) k (Y.map value) = X.map value) ?_ ?_).imp ?_
  · exact ⟨X, hX, backwardImage_all _ _⟩
  · intro k y hk hy
    obtain ⟨Y, hY, himage⟩ := hy
    refine (ends_backwardStep hU hY hupper hpivot ⟨k, hk⟩).imp ?_
    intro y' hy'
    obtain ⟨Y', hY', hkept⟩ := hy'
    exact ⟨Y', hY', hkept.trans himage⟩
  · intro y hy
    obtain ⟨Y, hY, himage⟩ := hy
    rw [backwardImage_zero] at himage
    exact ⟨Y, hY, himage⟩

end Substitution

/-! ### The answers of a decomposition -/

section Answers

variable {ch : Cholesky ρ} {S : Matrix (Fin n) (Fin n) ℝ} {U : Matrix (Fin n) (Fin n) ρ}

theorem Solver.ends_solveMatrix (hU : ch.upper.Stores U) (hI : Eliminated S n (U.map value))
    {b : MatrixView ρ} {B : Matrix (Fin n) (Fin c) ρ} (hb : b.Shows B) :
    Ends E (fun x => ∃ X : Matrix (Fin n) (Fin c) ρ, x.Stores X ∧
        S * X.map value = B.map value) (LinearSolver.solveMatrix ch.solver b) := by
  have hupper : (U.map value).IsUpperTriangular := fun i j hij => hI.upper i j hij
  have hpivot (i : Fin n) : value (U i i) ≠ 0 := (hI.diag_pos i).ne'
  have hrows : ch.solver.upper.nrows = n := hU.nrows
  change Ends E _ (ch.solver.solveMatrix b)
  rw [Solver.solveMatrix_eq, hrows, if_pos hb.nrows]
  refine hb.ofView.bind ?_
  intro y hy
  refine (ends_forward hU hy hupper hpivot).bind ?_
  intro y₁ hy₁
  obtain ⟨Y, hY, hforward⟩ := hy₁
  refine (ends_backward hU hY hupper hpivot).imp ?_
  intro x hx
  obtain ⟨X, hX, hbackward⟩ := hx
  have hproduct := hI.factor.mul_transpose
  rw [Matrix.transpose_transpose] at hproduct
  refine ⟨X, hX, ?_⟩
  rw [← hproduct, Matrix.mul_assoc, hbackward, hforward]

theorem Solver.ends_inverse (hU : ch.upper.Stores U) (hI : Eliminated S n (U.map value)) :
    Ends E (fun y => ∃ Y : Matrix (Fin n) (Fin n) ρ, y.Stores Y ∧
        S * Y.map value = 1 ∧ Y.map value * S = 1) (LinearSolver.inverse ch.solver) := by
  have hrows : ch.solver.upper.nrows = n := hU.nrows
  change Ends E _ (LinearSolver.solveIdentity ch.solver.solveMatrix ch.solver.upper.nrows)
  unfold LinearSolver.solveIdentity
  rw [hrows]
  refine (DenseMatrix.ends_identity n).bind ?_
  intro e he
  obtain ⟨I, he, hone⟩ := he
  refine (Solver.ends_solveMatrix hU hI he.view).imp ?_
  intro y hy
  obtain ⟨Y, hY, hmul⟩ := hy
  rw [hone] at hmul
  exact ⟨Y, hY, hmul, mul_eq_one_comm.1 hmul⟩

theorem ends_det (hU : ch.upper.Stores U) (hI : Eliminated S n (U.map value)) :
    Ends E (fun d => value d = S.det) ch.det := by
  unfold det
  rw [hU.nrows]
  refine (ends_product (1 : ρ) (fun i => value (U i i)) fun i x => ?_).bind ?_
  · rw [hU.entry i i]
    exact ExactScalar.value_mul x _
  · intro d hd
    change value (d * d) = S.det
    rw [ExactScalar.value_mul, hd, ExactScalar.value_one', one_mul, hI.det_eq]
    rfl

/-- The logarithms of the diagonal add up to half the logarithm of the determinant. -/
theorem ends_logDet (hU : ch.upper.Stores U) (hI : Eliminated S n (U.map value)) :
    Ends E (fun l => value l = Real.log S.det) ch.logDet := by
  unfold logDet
  rw [hU.nrows]
  refine (ends_sum (Nat.zero_le n) (fun i => Real.log (value (U i i))) fun i sum _ => ?_).bind ?_
  · rw [hU.entry i i]
    change value (sum + RealScalar.log (U i i)) = _
    rw [ExactScalar.value_add, ExactReal.value_log _ (hI.diag_pos i)]
  · intro l hl
    change value (l + l) = _
    have hne : ∏ i, U.map value i i ≠ 0 := Finset.prod_ne_zero_iff.2 fun i _ => (hI.diag_pos i).ne'
    have hsum : value l = Real.log (∏ i, U.map value i i) := by
      rw [hl, Real.log_prod fun i _ => (hI.diag_pos i).ne']
      simp
    rw [ExactScalar.value_add, hsum, hI.det_eq, Real.log_mul hne hne]

end Answers

/-- Over exact real numbers, let a matrix be accepted with a positivity threshold that is not
negative, whatever the symmetry threshold, and mirror its upper triangle. Then every right-hand
side of its height has an answer, which is a solution for the mirrored matrix; the inverse is
that of the mirrored matrix, on both sides; and its determinant, which is positive, is the
computed one, and the computed logarithm is the natural logarithm of it. -/
theorem accepted_solves_mirrored {ρ : Type} [RealScalar ρ] [ExactReal ρ] {n : ℕ}
    {A : Matrix (Fin n) (Fin n) ρ} {a : MatrixView ρ} (ha : a.Shows A) {symmetry positivity : ρ}
    (hpositivity : 0 ≤ value positivity) {ch : Cholesky ρ}
    (hch : ofThresholds symmetry positivity a = .ok ch) :
    (∀ (c : ℕ) (B : Matrix (Fin n) (Fin c) ρ) (b : MatrixView ρ), b.Shows B →
        ∃ (x : DenseMatrix ρ) (X : Matrix (Fin n) (Fin c) ρ),
          LinearSolver.solveMatrix ch.solver b = .ok x ∧ x.Stores X ∧
          mirrored (A.map value) * X.map value = B.map value) ∧
      (∃ (y : DenseMatrix ρ) (Y : Matrix (Fin n) (Fin n) ρ),
        LinearSolver.inverse ch.solver = .ok y ∧ y.Stores Y ∧
        mirrored (A.map value) * Y.map value = 1 ∧ Y.map value * mirrored (A.map value) = 1) ∧
      0 < (mirrored (A.map value)).det ∧
      (∃ d, ch.det = .ok d ∧ value d = (mirrored (A.map value)).det) ∧
      ∃ l, ch.logDet = .ok l ∧ value l = Real.log (mirrored (A.map value)).det := by
  obtain ⟨U, hU, hI⟩ := (ends_ofThresholds_mirrored ha symmetry hpositivity).of_ok hch
  refine ⟨fun c B b hb => ?_, ?_, hI.posDef.det_pos, ?_, ?_⟩
  · obtain ⟨x, hx, X, hX, hsolution⟩ := Ends.never_iff.1 (Solver.ends_solveMatrix hU hI hb)
    exact ⟨x, X, hx, hX, hsolution⟩
  · obtain ⟨y, hy, Y, hY, hinverse⟩ := Ends.never_iff.1 (Solver.ends_inverse hU hI)
    exact ⟨y, Y, hy, hY, hinverse⟩
  · exact Ends.never_iff.1 (ends_det hU hI)
  · exact Ends.never_iff.1 (ends_logDet hU hI)

/-- A matrix whose opposite entries differ by a half of the larger one. A symmetry threshold
of one lets it pass, and the entry below the diagonal counts for nothing. -/
theorem accepted_solves_mirrored_asymmetric :
    letI := exactReal 1 1
    letI := exactReal.exact 1 1
    let A : Matrix (Fin 2) (Fin 2) ℝ := !![4, 2; 1, 2]
    let B : Matrix (Fin 2) (Fin 1) ℝ := !![6; 4]
    ∃ (ch : Cholesky ℝ) (x : DenseMatrix ℝ) (X : Matrix (Fin 2) (Fin 1) ℝ),
      ofThresholds 1 0 (.ofMatrix A) = .ok ch ∧
        (LinearSolver.solveMatrix ch.solver (.ofMatrix B) = .ok x ∧ x.Stores X) ∧
        X = !![1; 1] ∧ ch.det = .ok 4 ∧ ch.logDet = .ok (Real.log 4) := by
  let := exactReal 1 1
  let := exactReal.exact 1 1
  intro A B
  have hmirrored : mirrored (A.map value) = !![4, 2; 2, 2] := by
    ext i j
    fin_cases i <;> fin_cases j <;> rfl
  have hdefinite : (mirrored (A.map value)).PosDef := by
    let u : Matrix (Fin 2) (Fin 2) ℝ := !![2, 1; 0, 1]
    have hproduct : mirrored (A.map value) = uᴴ * u := by
      rw [hmirrored]
      ext i j
      fin_cases i <;> fin_cases j <;> norm_num [u, Matrix.mul_apply, Fin.sum_univ_two]
    have hdet : u.det ≠ 0 := by norm_num [u, Matrix.det_fin_two]
    rw [hproduct]
    exact Matrix.PosDef.conjTranspose_mul_self u (Matrix.mulVec_injective_of_det_ne_zero hdet)
  have hpasses : ¬ bound (1 : ℝ) A 0 1 < difference A 0 1 := by
    have hbound : value (bound (1 : ℝ) A 0 1) = 1 * max |2| |1| := by
      unfold bound
      rw [ExactScalar.value_mul, ExactReal.value_maximum]
      rfl
    have hdifference : value (difference A 0 1) = |2 - 1| := rfl
    rw [ExactReal.lt_iff, hbound, hdifference]
    norm_num
  have hpositivity : 0 ≤ value (0 : ℝ) := le_rfl
  cases hresult : ofThresholds (1 : ℝ) 0 (.ofMatrix A) with
  | error e =>
      have hrefused := (ends_ofThresholds_mirrored (MatrixView.ofMatrix_shows A) 1
        hpositivity).of_error hresult
      rcases (ends_ofThresholds_symmetry (MatrixView.ofMatrix_shows A) 1 0).of_error hresult with
        ⟨i, j, -, hfirst⟩ | ⟨hpivot, -⟩
      · -- there is one pair only
        have habove := hfirst.above
        have hexceeds := hfirst.holds
        obtain rfl : i = 0 := by omega
        obtain rfl : j = 1 := by omega
        exact absurd hexceeds hpasses
      · exact absurd hdefinite (hrefused hpivot rfl)
  | ok ch =>
      obtain ⟨hsolve, -, -, ⟨d, hd, hdet⟩, l, hl, hlog⟩ :=
        accepted_solves_mirrored (MatrixView.ofMatrix_shows A) hpositivity hresult
      obtain ⟨x, X, hx, hX, hsolution⟩ := hsolve 1 B (.ofMatrix B) (MatrixView.ofMatrix_shows B)
      rw [hmirrored] at hsolution hdet hlog
      have hfour : (!![4, 2; 2, 2] : Matrix (Fin 2) (Fin 2) ℝ).det = 4 := by
        norm_num [Matrix.det_fin_two]
      rw [hfour] at hdet hlog
      obtain rfl : d = 4 := hdet
      obtain rfl : l = Real.log 4 := hlog
      refine ⟨ch, x, X, rfl, ⟨hx, hX⟩, ?_, hd, hl⟩
      have hfirst : 4 * X 0 0 + 2 * X 1 0 = 6 := by
        have hrow := congrFun (congrFun hsolution 0) 0
        rw [Matrix.mul_apply, Fin.sum_univ_two] at hrow
        exact hrow
      have hsecond : 2 * X 0 0 + 2 * X 1 0 = 4 := by
        have hrow := congrFun (congrFun hsolution 1) 0
        rw [Matrix.mul_apply, Fin.sum_univ_two] at hrow
        exact hrow
      ext i j
      fin_cases i <;> fin_cases j
      · show X 0 0 = 1
        linarith
      · show X 1 0 = 1
        linarith

end DenseFactor.Cholesky
