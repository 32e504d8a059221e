import Mathlib
import DenseFactor.Proofs.Cholesky.Complement
import DenseFactor.Proofs.Cholesky.Step
import DenseFactor.Proofs.Scalar.Real
import DenseFactor.Proofs.Stored

/-!
# DenseFactor.Proofs.Cholesky.Factorization

Over exact real numbers a Cholesky decomposition **decides positive definiteness**, and
where it exists it is a factorization.

Design points:

* Only the upper triangle is kept up, so what a run has left after `k` rows is read off it
  by `remaining u k`, a symmetric matrix with zeros before position `k`. Of a matrix that is
  not symmetric the run factors the mirror of its upper triangle, `mirrored A`.
* `EliminatesRow` is everything that one step does to the triangle. For what is left it
  means the complement of the pivot (`EliminatesRow.remaining_eq`), and for the factor one
  more column.
* The invariant says that the matrix is positive definite exactly if what is left is. So
  a pivot that is refused refutes definiteness, and a run that ends proves it.
-/

namespace DenseFactor.Cholesky

open ExactScalar (value)
open scoped Matrix

noncomputable section

variable {n : ℕ}

/-! ### The triangle -/

/-- The symmetric matrix with the upper triangle of `A`. -/
def mirrored (A : Matrix (Fin n) (Fin n) ℝ) : Matrix (Fin n) (Fin n) ℝ :=
  Matrix.of fun i j => A (min i j) (max i j)

theorem mirrored_isSymm (A : Matrix (Fin n) (Fin n) ℝ) : (mirrored A).IsSymm := by
  refine Matrix.IsSymm.ext fun i j => ?_
  simp only [mirrored, Matrix.of_apply, min_comm, max_comm]

theorem mirrored_of_le (A : Matrix (Fin n) (Fin n) ℝ) {i j : Fin n} (h : i ≤ j) :
    mirrored A i j = A i j := by
  rw [mirrored, Matrix.of_apply, min_eq_left h, max_eq_right h]

/-- A symmetric matrix has nothing to mirror. -/
theorem mirrored_eq {A : Matrix (Fin n) (Fin n) ℝ} (hA : A.IsSymm) : mirrored A = A := by
  ext i j
  rcases le_total i j with h | h
  · rw [mirrored_of_le A h]
  · rw [← (mirrored_isSymm A).apply, mirrored_of_le A h, hA.apply]

/-- What the upper triangle `u` has left after `k` rows. -/
def remaining (u : Matrix (Fin n) (Fin n) ℝ) (k : ℕ) : Matrix (Fin n) (Fin n) ℝ :=
  Matrix.of fun i j => if k ≤ (i : ℕ) ∧ k ≤ (j : ℕ) then u (min i j) (max i j) else 0

/-- The upper triangle `v` is `u` with row `k` turned into a row of the factor and taken
out of the later rows. -/
structure EliminatesRow (k : Fin n) (u v : Matrix (Fin n) (Fin n) ℝ) : Prop where
  /-- The rows before stay, and so does the lower triangle. -/
  kept (i j : Fin n) (h : i < k ∨ j < i) : v i j = u i j
  pivot : v k k = √(u k k)
  row (j : Fin n) (hj : k < j) : v k j = u k j * (1 / √(u k k))
  later (i j : Fin n) (hi : k < i) (hij : i ≤ j) : v i j = u i j - v k i * v k j

section Triangle

variable {u v : Matrix (Fin n) (Fin n) ℝ} {k : Fin n}

theorem remaining_of_le (u : Matrix (Fin n) (Fin n) ℝ) {k : ℕ} {i j : Fin n} (hi : k ≤ (i : ℕ))
    (hj : k ≤ (j : ℕ)) : remaining u k i j = u (min i j) (max i j) :=
  if_pos ⟨hi, hj⟩

theorem remaining_of_lt (u : Matrix (Fin n) (Fin n) ℝ) {k : ℕ} {i j : Fin n}
    (h : (i : ℕ) < k ∨ (j : ℕ) < k) : remaining u k i j = 0 :=
  if_neg (by omega)

@[simp]
theorem remaining_pivot (u : Matrix (Fin n) (Fin n) ℝ) (k : Fin n) :
    remaining u k k k = u k k := by
  rw [remaining_of_le u le_rfl le_rfl, min_self, max_self]

/-- The upper triangle of a symmetric matrix has all of it left. -/
theorem remaining_zero {A : Matrix (Fin n) (Fin n) ℝ} (hA : A.IsSymm)
    (hu : ∀ i j, i ≤ j → u i j = A i j) : remaining u 0 = A := by
  rw [← mirrored_eq hA]
  ext i j
  rw [remaining_of_le u (Nat.zero_le _) (Nat.zero_le _), hu _ _ min_le_max]
  rfl

/-- In the row of the pivot the triangle shows what is left. -/
theorem remaining_row (u : Matrix (Fin n) (Fin n) ℝ) {j : Fin n} (hj : k ≤ j) :
    remaining u k k j = u k j := by
  rw [remaining_of_le u le_rfl hj, min_eq_left hj, max_eq_right hj]

theorem remaining_col (u : Matrix (Fin n) (Fin n) ℝ) {i : Fin n} (hi : k ≤ i) :
    remaining u k i k = u k i := by
  rw [remaining_of_le u hi le_rfl, min_eq_right hi, max_eq_left hi]

/-- The row of the factor is the column of what is left, scaled by the root of the
pivot. -/
theorem EliminatesRow.row_eq (h : EliminatesRow k u v) (hlower : ∀ i j, j < i → u i j = 0)
    (hk : 0 < u k k) (i : Fin n) :
    v k i = remaining u k i k / √(remaining u k k k) := by
  rw [remaining_pivot]
  rcases lt_trichotomy i k with hi | rfl | hi
  · rw [h.kept k i (Or.inr hi), hlower k i hi, remaining_of_lt u (Or.inl hi), zero_div]
  · rw [h.pivot, remaining_pivot, Real.div_sqrt]
  · rw [h.row i hi, remaining_col u hi.le, mul_one_div]

/-- A step leaves the complement of its pivot. -/
theorem EliminatesRow.remaining_eq (h : EliminatesRow k u v) (hk : 0 < u k k) :
    remaining v (k + 1) = complement (remaining u k) k := by
  have hpivot : remaining u k k k ≠ 0 := by
    rw [remaining_pivot]
    exact hk.ne'
  refine eq_complement hpivot (fun i j h => remaining_of_lt u h)
    (fun i j h => remaining_of_lt v (by omega)) fun i j hi hj => ?_
  have hmin : k < min i j := lt_min hi hj
  have hmax : k < max i j := lt_max_of_lt_left hi
  have hterm : v k (min i j) * v k (max i j) = u k i * u k j / u k k := by
    have hroot : √(u k k) * √(u k k) = u k k := Real.mul_self_sqrt hk.le
    have hproduct : u k (min i j) * u k (max i j) = u k i * u k j := by
      rcases le_total i j with hij | hij
      · rw [min_eq_left hij, max_eq_right hij]
      · rw [min_eq_right hij, max_eq_left hij, mul_comm]
    rw [h.row _ hmin, h.row _ hmax, mul_one_div, mul_one_div, div_mul_div_comm, hroot, hproduct]
  rw [remaining_of_le v (by omega) (by omega), h.later _ _ hmin min_le_max, hterm,
    remaining_of_le u hi.le hj.le, remaining_col u hi.le, remaining_row u hj.le, remaining_pivot]

end Triangle

/-! ### The passes of a step -/

section Passes

variable {ρ : Type} [RealScalar ρ] [ExactReal ρ] {E : Failure → Prop} {m : DenseMatrix ρ}
  {U : Matrix (Fin n) (Fin n) ρ}

/-- Equal entries are not asymmetric. -/
theorem isAsymmetric_of_eq {threshold x y : ρ} (hthreshold : 0 ≤ value threshold)
    (hxy : value x = value y) : isAsymmetric threshold x y = false := by
  unfold isAsymmetric
  rw [decide_eq_false_iff_not, ExactReal.lt_iff, not_lt, ExactReal.value_abs,
    ExactScalar.value_sub, hxy, sub_self, abs_zero, ExactScalar.value_mul,
    ExactReal.value_maximum, ExactReal.value_abs]
  exact mul_nonneg hthreshold (le_max_of_le_left (abs_nonneg _))

/-- A symmetric matrix passes the symmetry test. -/
theorem ends_symmetryTest (hU : m.Stores U) (hsymm : (U.map value).IsSymm) {threshold : ρ}
    (hthreshold : 0 ≤ value threshold) :
    Ends E (· = none) <| firstAsymmetry? m threshold := by
  unfold firstAsymmetry?
  rw [hU.nrows]
  refine Ends.findSomeM? fun i hi => ?_
  have hin : i < n := (mem_positions.1 hi).2
  have hrow : Ends E (· = none) ((positions (i + 1) n).findM? fun j => do
      return isAsymmetric threshold (← m.entry i j) (← m.entry j i)) := by
    refine Ends.findM? fun j hj => ?_
    have hjn : j < n := (mem_positions.1 hj).2
    rw [hU.entry ⟨i, hin⟩ ⟨j, hjn⟩, hU.entry ⟨j, hjn⟩ ⟨i, hin⟩]
    exact isAsymmetric_of_eq hthreshold (hsymm.apply ⟨j, hjn⟩ ⟨i, hin⟩)
  refine hrow.bind ?_
  intro found hfound
  subst hfound
  rfl

theorem ends_upperTriangle (hU : m.Stores U) :
    Ends E (fun m' => ∃ V : Matrix (Fin n) (Fin n) ρ, m'.Stores V ∧
      V.map value = Matrix.of fun i j => if j < i then 0 else value (U i j))
      (upperTriangle m) := by
  refine (ends_upperTriangle_entries hU).imp fun m' hV => ⟨_, hV, ?_⟩
  ext i j
  by_cases hji : j < i
  · simp [hji]
  · simp [hji]

/-- What a step does to the entries, in the numbers they mean. -/
theorem TakesRow.eliminatesRow {V : Matrix (Fin n) (Fin n) ρ} {k : Fin n} (h : TakesRow k U V)
    (hk : 0 < value (U k k)) : EliminatesRow k (U.map value) (V.map value) := by
  have hroot : value (RealScalar.sqrt (U k k)) = √(value (U k k)) :=
    ExactReal.value_sqrt _ hk.le
  have hinverse : value (1 / RealScalar.sqrt (U k k)) = 1 / √(value (U k k)) := by
    have hne : value (RealScalar.sqrt (U k k)) ≠ 0 := by
      rw [hroot]
      exact (Real.sqrt_pos.2 hk).ne'
    rw [ExactScalar.value_div _ _ hne, ExactScalar.value_one', hroot]
  refine ⟨fun i j hij => congrArg value (h.kept i j hij), ?_, fun j hj => ?_, fun i j hi hij => ?_⟩
  · exact (congrArg value h.pivot).trans hroot
  · rw [Matrix.map_apply, h.row j hj, ExactScalar.value_mul, hinverse]
    rfl
  · rw [Matrix.map_apply, h.later i j hi hij, ExactScalar.value_sub, ExactScalar.value_mul]
    rfl

/-- One step: a pivot above the threshold eliminates its row, and every other one is
refused. -/
theorem ends_step (hU : m.Stores U) (k : Fin n) {positivity : ρ}
    (hpositivity : 0 ≤ value positivity) :
    Ends (fun e => e = .notPositiveDefinite ∧ value (U k k) ≤ value positivity)
      (fun m' => ∃ V : Matrix (Fin n) (Fin n) ρ, m'.Stores V ∧ 0 < value (U k k) ∧
        EliminatesRow k (U.map value) (V.map value))
      (step positivity m k) := by
  have hstep := ends_step_entries hU k positivity
  rw [ExactReal.lt_iff, not_lt] at hstep
  refine hstep.imp ?_
  intro m' hm'
  obtain ⟨V, hV, hpivot, hrow⟩ := hm'
  have hpos := hpositivity.trans_lt hpivot
  exact ⟨V, hV, hpos, hrow.eliminatesRow hpos⟩

end Passes

/-! ### The run -/

/-- After `k` rows the triangle `u` holds `k` rows of a factor of `A` and what they leave,
which is positive if and only if `A` is. -/
structure Eliminated (A : Matrix (Fin n) (Fin n) ℝ) (k : ℕ) (u : Matrix (Fin n) (Fin n) ℝ) :
    Prop where
  upper (i j : Fin n) (h : j < i) : u i j = 0
  factor : PartialFactor A uᵀ (remaining u k) k
  definite : A.PosDef ↔ PositiveFrom k (remaining u k)

namespace Eliminated

variable {A u v : Matrix (Fin n) (Fin n) ℝ}

/-- Before the first row the triangle is that of the matrix. -/
theorem start (hA : A.IsSymm) (hu : ∀ i j, u i j = if j < i then 0 else A i j) :
    Eliminated A 0 u := by
  have hall : remaining u 0 = A := by
    refine remaining_zero hA fun i j hij => ?_
    rw [hu, if_neg hij.not_gt]
  refine ⟨fun i j h => ?_, ?_, ?_⟩
  · rw [hu, if_pos h]
  · rw [hall]
    exact PartialFactor.start hA uᵀ
  · rw [hall, positiveFrom_zero_iff hA]

/-- A pivot that is not positive refutes definiteness. -/
theorem not_posDef {k : Fin n} (h : Eliminated A k u) (hk : ¬ 0 < u k k) : ¬ A.PosDef := by
  intro hA
  have hpivot := (h.definite.1 hA).pivot_pos
  rw [remaining_pivot] at hpivot
  exact hk hpivot

/-- A positive pivot keeps the invariant. -/
theorem step {k : Fin n} (h : Eliminated A k u) (hk : 0 < u k k) (hrow : EliminatesRow k u v) :
    Eliminated A (k + 1) v := by
  have hpivot : 0 < remaining u k k k := by rwa [remaining_pivot]
  refine ⟨fun i j hji => ?_, ?_, ?_⟩
  · rw [hrow.kept i j (Or.inr hji), h.upper i j hji]
  · rw [hrow.remaining_eq hk]
    exact h.factor.step hpivot (fun i t ht => hrow.kept t i (Or.inl ht))
      (hrow.row_eq h.upper hk)
  · rw [hrow.remaining_eq hk, positiveFrom_complement_iff h.factor.symm hpivot, h.definite]

/-- After the last row the matrix is definite. -/
theorem posDef (h : Eliminated A n u) : A.PosDef :=
  h.definite.2 (positiveFrom_all _)

end Eliminated

section Run

variable {ρ : Type} [RealScalar ρ] [ExactReal ρ] {A : Matrix (Fin n) (Fin n) ρ}
  {a : MatrixView ρ} {symmetry positivity : ρ}

/-- The steps factor the mirrored matrix. With a threshold of zero they refuse one that is
not definite only. -/
theorem ends_steps {m : DenseMatrix ρ} {U₀ : Matrix (Fin n) (Fin n) ρ} (hU₀ : m.Stores U₀)
    (hentries : U₀.map value = Matrix.of fun i j => if j < i then 0 else value (A i j))
    (hpositivity : 0 ≤ value positivity) :
    Ends (fun e => e = .notPositiveDefinite ∧
        (value positivity = 0 → ¬ (mirrored (A.map value)).PosDef))
      (fun m' => ∃ U : Matrix (Fin n) (Fin n) ρ, m'.Stores U ∧
        Eliminated (mirrored (A.map value)) n (U.map value))
      ((positions 0 n).foldlM (step positivity) m) := by
  refine Ends.foldlM_positions (I := fun k (m : DenseMatrix ρ) =>
    ∃ U : Matrix (Fin n) (Fin n) ρ, m.Stores U ∧
      Eliminated (mirrored (A.map value)) k (U.map value)) (Nat.zero_le n) ?_ ?_
  · refine ⟨U₀, hU₀, Eliminated.start (mirrored_isSymm _) fun i j => ?_⟩
    rw [hentries, Matrix.of_apply]
    by_cases hji : j < i
    · rw [if_pos hji, if_pos hji]
    · rw [if_neg hji, if_neg hji, mirrored_of_le _ (not_lt.1 hji)]
      rfl
  · intro k m' _ hkn hm'
    obtain ⟨U, hU, hI⟩ := hm'
    have hstep := ends_step hU ⟨k, hkn⟩ hpositivity
    refine (hstep.weaken ?_).imp ?_
    · intro e he
      refine ⟨he.1, fun hzero => hI.not_posDef (k := ⟨k, hkn⟩) (not_lt.2 ?_)⟩
      exact he.2.trans hzero.le
    · intro m'' hm''
      obtain ⟨V, hV, hpos, hrow⟩ := hm''
      exact ⟨V, hV, hI.step hpos hrow⟩

/-- A symmetric matrix is factored, or refused because it is not definite. -/
theorem ends_ofThresholds (ha : a.Shows A) (hA : (A.map value).IsSymm)
    (hsymmetry : 0 ≤ value symmetry) (hpositivity : value positivity = 0) :
    Ends (fun e => e = .notPositiveDefinite ∧ ¬ (A.map value).PosDef)
      (fun c => ∃ U : Matrix (Fin n) (Fin n) ρ, c.upper.Stores U ∧
        Eliminated (A.map value) n (U.map value))
      (ofThresholds symmetry positivity a) := by
  unfold ofThresholds
  rw [if_neg ha.square]
  refine ha.ofView.bind ?_
  intro m hm
  refine (ends_symmetryTest hm hA hsymmetry).bind ?_
  intro found hfound
  subst hfound
  refine (ends_upperTriangle hm).bind ?_
  intro m₀ hm₀
  obtain ⟨U₀, hU₀, hentries⟩ := hm₀
  have hsteps := ends_steps hU₀ hentries hpositivity.ge
  rw [mirrored_eq hA] at hsteps
  rw [hm.nrows]
  exact (hsteps.weaken fun e he => ⟨he.1, he.2 hpositivity⟩).bind fun upper hupper => hupper

/-- Over exact real numbers, a symmetric matrix is decomposed if and only if it is positive
definite, and otherwise refused as not positive definite. The lower factor of a
decomposition is lower triangular with a positive diagonal, the upper one is its transpose,
and their product is the matrix. -/
theorem ofThresholds_decides_posDef (ha : a.Shows A) (hA : (A.map value).IsSymm)
    (hsymmetry : 0 ≤ value symmetry) (hpositivity : value positivity = 0) :
    ((∃ c, ofThresholds symmetry positivity a = .ok c) ↔ (A.map value).PosDef) ∧
      (¬ (A.map value).PosDef →
        ofThresholds symmetry positivity a = .error .notPositiveDefinite) ∧
      ∀ c, ofThresholds symmetry positivity a = .ok c →
        ∃ (l : DenseMatrix ρ) (L U : Matrix (Fin n) (Fin n) ρ),
          (c.lower = .ok l ∧ l.Stores L) ∧ c.upper.Stores U ∧ U = Lᵀ ∧
          (L.map value).IsLowerTriangular ∧ (∀ i, 0 < value (L i i)) ∧
          L.map value * U.map value = A.map value := by
  have hends := ends_ofThresholds ha hA hsymmetry hpositivity
  have hposDef {c : Cholesky ρ} (hc : ofThresholds symmetry positivity a = .ok c) :
      (A.map value).PosDef := by
    obtain ⟨U, _, hU⟩ := hends.of_ok hc
    exact hU.posDef
  cases hresult : ofThresholds symmetry positivity a with
  | error e =>
      obtain ⟨rfl, hnot⟩ := hends.of_error hresult
      refine ⟨⟨fun h => ?_, fun h => absurd h hnot⟩, fun _ => rfl, fun c hc => ?_⟩
      · obtain ⟨c, hc⟩ := h
        cases hc
      · cases hc
  | ok c =>
      have hdefinite := hposDef hresult
      refine ⟨⟨fun _ => hdefinite, fun _ => ⟨c, rfl⟩⟩, fun h => absurd hdefinite h, ?_⟩
      intro c' hc'
      obtain rfl := Except.ok.inj hc'
      obtain ⟨U, hU, hI⟩ := hends.of_ok hresult
      obtain ⟨l, hl, hL⟩ := Ends.never_iff.1 hU.transpose
      refine ⟨l, Uᵀ, U, ⟨hl, hL⟩, hU, (Matrix.transpose_transpose U).symm, ?_, ?_, ?_⟩
      · intro i j hij
        exact hI.upper j i hij
      · intro i
        exact hI.factor.pivot i i.isLt
      · have hproduct := hI.factor.mul_transpose
        rwa [Matrix.transpose_transpose] at hproduct

end Run

/-- A definite matrix over the real numbers themselves, and its factor. -/
theorem ofThresholds_decides_posDef_two :
    letI := exactReal 1 1
    letI := exactReal.exact 1 1
    let A : Matrix (Fin 2) (Fin 2) ℝ := !![4, 2; 2, 3]
    ∃ (c : Cholesky ℝ) (l : DenseMatrix ℝ) (L : Matrix (Fin 2) (Fin 2) ℝ),
      ofThresholds 0 0 (.ofMatrix A) = .ok c ∧ (c.lower = .ok l ∧ l.Stores L) ∧
        L.IsLowerTriangular ∧ (∀ i, 0 < L i i) ∧ L * Lᵀ = A := by
  let := exactReal 1 1
  let := exactReal.exact 1 1
  intro A
  have hsymm : A.IsSymm := by
    ext i j
    fin_cases i <;> fin_cases j <;> rfl
  have hdefinite : A.PosDef := by
    have hhermitian : A.IsHermitian := hsymm
    rw [Matrix.posDef_iff_dotProduct_mulVec]
    refine ⟨hhermitian, fun x hx => ?_⟩
    have hform : star x ⬝ᵥ A *ᵥ x = 2 * (x 0 + x 1) ^ 2 + (2 * x 0 ^ 2 + x 1 ^ 2) := by
      simp [A, dotProduct, Matrix.mulVec, Fin.sum_univ_two]
      ring
    rw [hform]
    by_cases hfirst : x 0 = 0
    · have hlast : x 1 ≠ 0 := fun hzero => hx (by ext i; fin_cases i <;> assumption)
      positivity
    · positivity
  have hsymmetry : 0 ≤ value (0 : ℝ) := le_rfl
  have hpositivity : value (0 : ℝ) = 0 := rfl
  obtain ⟨hiff, -, hfactor⟩ := ofThresholds_decides_posDef (MatrixView.ofMatrix_shows A) hsymm
    hsymmetry hpositivity
  obtain ⟨c, hc⟩ := hiff.2 hdefinite
  obtain ⟨l, L, U, hl, -, rfl, hlower, hpositive, hproduct⟩ := hfactor c hc
  exact ⟨c, l, L, hc, hl, hlower, hpositive, hproduct⟩

end

end DenseFactor.Cholesky
