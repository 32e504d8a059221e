import Mathlib
import DenseFactor.Proofs.Shape
import DenseFactor.Proofs.Solver.Basic

/-!
# DenseFactor.Proofs.Cholesky.Shape

The Cholesky decomposition stays **inside its matrices**, whatever the arithmetic answers:
it refuses a matrix, or it has a square factor whose solver never refuses.
-/

namespace DenseFactor.Cholesky

variable {ρ : Type} [RealScalar ρ] {E : Failure → Prop} {n c : ℕ}

/-! ### Factoring -/

theorem failsOnly_asymmetry {m : DenseMatrix ρ} (hm : m.HasShape n n) (threshold : ρ) :
    FailsOnly E <| firstAsymmetry? m threshold := by
  unfold firstAsymmetry?
  rw [hm.nrows]
  refine FailsOnly.findSomeM? ?_
  intro i hi
  have hi : i < n := (mem_positions.1 hi).2
  refine Ends.bind (FailsOnly.findM? ?_) fun _ _ => trivial
  intro j hj
  have hj : j < n := (mem_positions.1 hj).2
  refine (hm.failsOnly_entry hi hj).bind fun _ _ => ?_
  exact (hm.failsOnly_entry hj hi).bind fun _ _ => trivial

theorem ends_subtractOuter_shape {m : DenseMatrix ρ} (hm : m.HasShape n n) {i : ℕ} (hi : i < n) :
    Ends E (·.HasShape n n) (subtractOuter m i) := by
  refine hm.mapEntries ?_
  intro q p x hq hp
  by_cases hbelow : i < q ∧ q ≤ p
  · rw [if_pos hbelow]
    refine (hm.failsOnly_entry hi hq).bind fun _ _ => ?_
    exact (hm.failsOnly_entry hi hp).bind fun _ _ => trivial
  · rw [if_neg hbelow]
    exact trivial

theorem ends_step_shape {m : DenseMatrix ρ} (hm : m.HasShape n n) {i : ℕ} (hi : i < n)
    (positivity : ρ) :
    Ends (· = .notPositiveDefinite) (·.HasShape n n) (step positivity m i) := by
  unfold step
  refine (hm.failsOnly_entry hi hi).bind fun pivot _ => ?_
  by_cases hpositive : positivity < pivot
  · rw [if_pos hpositive]
    refine Ends.bind (hm.mapEntries fun _ _ _ _ _ => trivial) fun scaled hscaled => ?_
    exact ends_subtractOuter_shape hscaled hi
  · rw [if_neg hpositive]
    rfl

/-- Once the matrix counts as symmetric, only a pivot can be refused. -/
theorem ends_steps_shape {m : DenseMatrix ρ} (hm : m.HasShape n n) (positivity : ρ) :
    Ends (· = .notPositiveDefinite) (·.HasShape n n)
      ((positions 0 n).foldlM (step positivity) m) :=
  Ends.foldlM_mem hm fun _ hi _ hm => ends_step_shape hm (mem_positions.1 hi).2 positivity

/-- A matrix is refused, or it is square and has a factor of its shape. -/
theorem ends_ofThresholds_shape {a : MatrixView ρ} (ha : a.Readable) (symmetry positivity : ρ) :
    Ends Refusal (fun ch => a.ncols = a.nrows ∧ ch.upper.HasShape a.nrows a.nrows)
      (ofThresholds symmetry positivity a) := by
  unfold ofThresholds
  by_cases hsquare : a.nrows = a.ncols
  · rw [if_neg (not_not.2 hsquare)]
    refine (DenseMatrix.ends_ofView_shape ha).bind fun m hm => ?_
    rw [← hsquare] at hm
    refine (failsOnly_asymmetry hm symmetry).bind fun found _ => ?_
    cases found with
    | some position => rfl
    | none =>
        rw [hm.nrows]
        refine Ends.bind (hm.mapEntries fun _ _ _ _ _ => trivial) fun upper hupper => ?_
        have hsteps := ends_steps_shape hupper positivity
        refine (hsteps.weaken fun e he => ?_).bind fun m hm => ⟨hsquare.symm, hm⟩
        exact congrArg Failure.isRefusal he
  · rw [if_pos hsquare]
    rfl

/-- Only a readable matrix has a decomposition. -/
theorem ends_ofThresholds_readable {a : MatrixView ρ} (symmetry positivity : ρ) :
    Ends Always (fun _ => a.Readable) (ofThresholds symmetry positivity a) := by
  unfold ofThresholds
  by_cases hsquare : a.nrows = a.ncols
  · rw [if_neg (not_not.2 hsquare)]
    exact DenseMatrix.ends_ofView_readable.bind fun _ h => Ends.always.imp fun _ _ => h
  · rw [if_pos hsquare]
    exact trivial

/-! ### Determinant -/

theorem failsOnly_det {ch : Cholesky ρ} (hupper : ch.upper.HasShape n n) :
    FailsOnly E ch.det := by
  unfold det
  rw [hupper.nrows]
  refine Ends.bind (FailsOnly.foldPositions fun i product _ hi => ?_) fun _ _ => trivial
  exact (hupper.failsOnly_entry hi hi).bind fun _ _ => trivial

theorem failsOnly_logDet {ch : Cholesky ρ} (hupper : ch.upper.HasShape n n) :
    FailsOnly E ch.logDet := by
  unfold logDet
  rw [hupper.nrows]
  refine Ends.bind (FailsOnly.foldPositions fun i sum _ hi => ?_) fun _ _ => trivial
  exact (hupper.failsOnly_entry hi hi).bind fun _ _ => trivial

/-! ### Solving -/

variable {upper x : DenseMatrix ρ}

theorem ends_divideRow_shape (hupper : upper.HasShape n n) (hx : x.HasShape n c) {j : ℕ}
    (hj : j < n) : Ends E (·.HasShape n c) (divideRow upper x j) :=
  (hupper.failsOnly_entry hj hj).bind fun _ _ => hx.mapEntries fun _ _ _ _ _ => trivial

theorem ends_forwardStep_shape (hupper : upper.HasShape n n) (hx : x.HasShape n c) {j : ℕ}
    (hj : j < n) : Ends E (·.HasShape n c) (forwardStep upper x j) := by
  unfold forwardStep
  refine (ends_divideRow_shape hupper hx hj).bind fun x hx => hx.mapEntries ?_
  intro i k old hi hk
  by_cases hlater : j < i
  · rw [if_pos hlater]
    refine (hx.failsOnly_entry hj hk).bind fun _ _ => ?_
    exact (hupper.failsOnly_entry hj hi).bind fun _ _ => trivial
  · rw [if_neg hlater]
    exact trivial

theorem ends_backwardStep_shape (hupper : upper.HasShape n n) (hx : x.HasShape n c) {j : ℕ}
    (hj : j < n) : Ends E (·.HasShape n c) (backwardStep upper x j) := by
  unfold backwardStep
  refine (ends_divideRow_shape hupper hx hj).bind fun x hx => hx.mapEntries ?_
  intro i k old hi hk
  by_cases hearlier : i < j
  · rw [if_pos hearlier]
    refine (hx.failsOnly_entry hj hk).bind fun _ _ => ?_
    exact (hupper.failsOnly_entry hi hj).bind fun _ _ => trivial
  · rw [if_neg hearlier]
    exact trivial

/-- Every right-hand side of the right height has an answer. -/
theorem Solver.ends_solveMatrix_shape {s : Solver ρ} (hupper : s.upper.HasShape n n)
    {b : MatrixView ρ} (hb : b.Readable) (hrows : b.nrows = n) :
    Ends E (·.HasShape n b.ncols) (s.solveMatrix b) := by
  rw [s.solveMatrix_eq b, hupper.nrows, if_pos hrows]
  refine (DenseMatrix.ends_ofView_shape hb).bind fun x hx => ?_
  rw [hrows] at hx
  refine Ends.bind (P := (·.HasShape n b.ncols)) (Ends.foldlM_mem hx ?_) ?_
  · intro j hj x hx
    exact ends_forwardStep_shape hupper hx (mem_positions.1 hj).2
  · intro y hy
    refine Ends.foldlM_mem hy ?_
    intro j hj x hx
    exact ends_backwardStep_shape hupper hx (mem_positions.1 (List.mem_reverse.1 hj)).2

end DenseFactor.Cholesky
