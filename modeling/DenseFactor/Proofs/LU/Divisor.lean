import Mathlib
import DenseFactor.Proofs.Bounds
import DenseFactor.Proofs.Scalar.Division

/-!
# DenseFactor.Proofs.LU.Divisor

An LU decomposition **divides by nothing that is zero**, and neither does its solver.

Design points:

* A pivot that a rule accepts is not zero: a field rule asks this, and a modulus that is not
  below a positive threshold is not that of a zero. `AcceptsNonzero` is all that is used of a
  rule.
* The pivot is exchanged onto the diagonal before anything is divided by it, and stays there:
  later exchanges and reductions touch later rows only (`PivotsNonzero.step`). So the solver
  divides by it again.
* That nothing else divides is said with another division that agrees off zero. Elimination and
  solver give the same outcomes with it, failures included.
-/

namespace DenseFactor.LU

variable {α : Type} {n : ℕ}

/-! ### Pivots -/

section Pivots

variable [Scalar α]

/-- The pivots that a rule accepts are not zero. -/
abbrev AcceptsNonzero (rule : PivotRule α) : Prop :=
  rule.Selects fun W col row => ∀ r ∈ row, Scalar.isZero (W r col) = false

/-- The pivots of the first `k` columns are not zero. -/
def PivotsNonzero (k : ℕ) (W : Matrix (Fin n) (Fin n) α) : Prop :=
  ∀ i : Fin n, (i : ℕ) < k → Scalar.isZero (W i i) = false

/-- A step accepts one more pivot and leaves the others where they are. -/
theorem PivotsNonzero.step {col row : Fin n} {W W' : Matrix (Fin n) (Fin n) α}
    (h : PivotsNonzero col W) (hrow : col ≤ row) (hpivot : Scalar.isZero (W row col) = false)
    (hreduced : ReducesColumn col (W.submatrix (Equiv.swap col row) id) W') :
    PivotsNonzero (col + 1) W' := by
  intro i hi
  rw [hreduced.kept i i (.inl (Nat.lt_succ_iff.1 hi)), Matrix.submatrix_apply, id_eq]
  rcases Nat.lt_succ_iff_lt_or_eq.1 hi with hi | hi
  · rw [swap_of_lt le_rfl hrow hi]
    exact h i hi
  · obtain rfl := Fin.ext hi
    rw [Equiv.swap_apply_left]
    exact hpivot

/-- A decomposition that is not singular has no zero on the diagonal. -/
theorem ends_ofRule_pivots {rule : PivotRule α} (hrule : AcceptsNonzero rule) {a : MatrixView α}
    {A : Matrix (Fin n) (Fin n) α} (ha : a.Shows A) (threshold : Option Float) :
    Ends Always (fun lu => ∃ σ W, lu.elimination.Holds (n := n) σ W ∧
      (lu.isSingular = false → ∀ i, Scalar.isZero (W i i) = false))
      (ofRule rule threshold a) := by
  refine (ends_ofRule failsBy_always hrule (fun _ _ _ _ => trivial) ha
    (I := fun k _ W => PivotsNonzero k W) (fun i hi => absurd hi (Nat.not_lt_zero _)) ?_
    threshold).imp ?_
  · intro col row σ W W' hrow hpivot hI hreduced
    exact hI.step hrow (hpivot row rfl) hreduced
  · rintro lu ⟨σ, W, hfinished⟩
    exact ⟨σ, W, hfinished.holds, fun hsingular i => hfinished.complete hsingular i i.isLt⟩

end Pivots

/-! ### Elimination with another division -/

section Elimination

variable [Scalar α] {div : α → α → Except Failure α} {rule : PivotRule α}

theorem divideColumn_withDiv (hdiv : Scalar.AgreesOffZero div) {m : DenseMatrix α}
    {W : Matrix (Fin n) (Fin n) α} (hm : m.Stores W) (col : Fin n)
    (hpivot : Scalar.isZero (W col col) = false) :
    @divideColumn α (Scalar.withDiv div) col m = divideColumn (col : ℕ) m := by
  unfold divideColumn
  rw [hm.entry col col]
  have hentries (x : α) : div x (W col col) = Scalar.div x (W col col) := hdiv x _ hpivot
  show m.mapEntries (fun i j x => if (col : ℕ) < i ∧ j = col then div x (W col col) else .ok x) = _
  simp only [hentries]
  rfl

theorem Elimination.Holds.reduce_withDiv (hdiv : Scalar.AgreesOffZero div) {s : Elimination α}
    {σ : Equiv.Perm (Fin n)} {W : Matrix (Fin n) (Fin n) α} (h : s.Holds σ W) (col row : Fin n)
    (hpivot : Scalar.isZero (W row col) = false) :
    @Elimination.reduce α (Scalar.withDiv div) s col row = s.reduce col row := by
  obtain ⟨s', hs', hholds, -⟩ := Ends.never_iff.1 (h.exchange col row)
  have hhead : Scalar.isZero (W.submatrix (Equiv.swap col row) id col col) = false := by
    simpa using hpivot
  unfold Elimination.reduce
  rw [hs']
  show (@divideColumn α (Scalar.withDiv div) col s'.packed >>= _) = _
  rw [divideColumn_withDiv hdiv hholds.packed col hhead]
  rfl

/-- The induction over the columns that are left. -/
theorem Elimination.Holds.run_withDiv (hrule : AcceptsNonzero rule)
    (hdiv : Scalar.AgreesOffZero div) {l : List ℕ} (hl : ∀ col ∈ l, col < n)
    {s : Elimination α} {σ : Equiv.Perm (Fin n)} {W : Matrix (Fin n) (Fin n) α}
    (h : s.Holds σ W) :
    @Elimination.run α (Scalar.withDiv div) rule l s = Elimination.run rule l s := by
  induction l generalizing s σ W with
  | nil => rfl
  | cons col l ih =>
      obtain ⟨hcol, hl⟩ := List.forall_mem_cons.1 hl
      obtain ⟨choice, hchoice, row, rfl, -, hnonzero⟩ :=
        Ends.never_iff.1 (hrule ⟨col, hcol⟩ h.packed)
      cases row with
      | none =>
          rw [@Elimination.run_rejected α (Scalar.withDiv div) _ _ _ hchoice,
            Elimination.run_rejected hchoice]
      | some row =>
          have hreduce := h.reduce_withDiv hdiv ⟨col, hcol⟩ row (hnonzero row rfl)
          have hnext := h.reduce failsBy_always ⟨col, hcol⟩ row (D := fun _ => True) trivial
          rw [@Elimination.run_accepted α (Scalar.withDiv div) _ _ _ _ hchoice,
            Elimination.run_accepted hchoice, hreduce]
          cases hs' : s.reduce col row with
          | error e => rfl
          | ok s' =>
              obtain ⟨W', hholds, -⟩ := hnext.of_ok hs'
              exact ih hl hholds

/-- A decomposition depends on no division by zero. -/
theorem ofRule_withDiv (hrule : AcceptsNonzero rule) (hdiv : Scalar.AgreesOffZero div)
    {a : MatrixView α} {A : Matrix (Fin n) (Fin n) α} (ha : a.Shows A)
    (threshold : Option Float) :
    @ofRule α (Scalar.withDiv div) rule threshold a = ofRule rule threshold a := by
  obtain ⟨m, hm, hstores⟩ := Ends.never_iff.1 ha.ofView
  have hrun := (Elimination.holds_start hstores).run_withDiv hrule hdiv
    fun _ => hstores.lt_of_mem_positions
  rw [@ofRule_eq α n (Scalar.withDiv div) _ _ ha _ hm, ofRule_eq ha hm]
  exact congrArg _ hrun

end Elimination

/-! ### The solver with another division -/

section Solver

variable [Scalar α] {div : α → α → Except Failure α} {packed : DenseMatrix α}
  {W : Matrix (Fin n) (Fin n) α}

theorem dividePivotRow_withDiv (hdiv : Scalar.AgreesOffZero div) (hpacked : packed.Stores W)
    (x : DenseMatrix α) (col : Fin n) (hpivot : Scalar.isZero (W col col) = false) :
    @dividePivotRow α (Scalar.withDiv div) packed x col = dividePivotRow packed x col := by
  unfold dividePivotRow
  rw [hpacked.entry col col]
  have hentries (old : α) : div old (W col col) = Scalar.div old (W col col) := hdiv old _ hpivot
  show x.mapEntries (fun i _ old => if i = col then div old (W col col) else .ok old) = _
  simp only [hentries]
  rfl

theorem substitute_withDiv (hdiv : Scalar.AgreesOffZero div) (hpacked : packed.Stores W)
    (hpivots : ∀ i, Scalar.isZero (W i i) = false) (permuted : DenseMatrix α) :
    @substitute α (Scalar.withDiv div) packed n permuted = substitute packed n permuted := by
  have hrow (x : DenseMatrix α) (col : ℕ) (hcol : col ∈ (positions 0 n).reverse) :
      (do eliminateUp packed (← @dividePivotRow α (Scalar.withDiv div) packed x col) col) =
        (do eliminateUp packed (← dividePivotRow packed x col) col) := by
    have hcol : col < n := (mem_positions.1 (List.mem_reverse.1 hcol)).2
    rw [dividePivotRow_withDiv hdiv hpacked x ⟨col, hcol⟩ (hpivots _)]
  exact bind_congr fun y => foldlM_congr hrow y

/-- The answers of a solver depend on no division by zero. A singular matrix has none. -/
theorem Solver.solveMatrix_withDiv (hdiv : Scalar.AgreesOffZero div) {s : Solver α}
    (hpacked : s.packed.Stores W) (hsize : s.pivot.size = n)
    (hpivots : s.singular = false → ∀ i, Scalar.isZero (W i i) = false) (b : MatrixView α) :
    @Solver.solveMatrix α (Scalar.withDiv div) s b = s.solveMatrix b := by
  rw [@Solver.solveMatrix_eq α (Scalar.withDiv div) s b, s.solveMatrix_eq b, hsize]
  congr 1
  cases hsingular : s.singular with
  | true => rfl
  | false =>
      refine bind_congr fun permuted => ?_
      exact substitute_withDiv hdiv hpacked (hpivots hsingular) permuted

end Solver

/-! ### Decompositions -/

/-- Everything that is computed from a decomposition by dividing is the same with another
division. -/
structure SolvesWithDiv [Scalar α] (div : α → α → Except Failure α) (lu : LU α) : Prop where
  solveMatrix (b : MatrixView α) :
    @Solver.solveMatrix α (Scalar.withDiv div) lu.solver b = lu.solver.solveMatrix b
  inverse :
    @LinearSolver.inverse _ _ (@instLinearSolverSolver α (Scalar.withDiv div)) lu.solver =
      LinearSolver.inverse lu.solver

section Decompositions

variable [Scalar α] {div : α → α → Except Failure α} {rule : PivotRule α} {a : MatrixView α}
  {A : Matrix (Fin n) (Fin n) α} {threshold : Option Float}

/-- The solver of a decomposition divides by its pivots alone. -/
theorem solvesWithDiv_of_ofRule (hrule : AcceptsNonzero rule) (hdiv : Scalar.AgreesOffZero div)
    (ha : a.Shows A) {lu : LU α} (hlu : ofRule rule threshold a = .ok lu) :
    lu.SolvesWithDiv div := by
  obtain ⟨σ, W, hholds, hpivots⟩ := (ends_ofRule_pivots hrule ha threshold).of_ok hlu
  have hanswer (b : MatrixView α) :=
    Solver.solveMatrix_withDiv hdiv (s := lu.solver) hholds.packed hholds.size hpivots b
  -- the inverse is the answer to the identity
  exact ⟨hanswer, bind_congr fun identity : DenseMatrix α => hanswer identity.view⟩

/-- What is asked of a decomposition with another division. -/
theorem SolvesWithDiv.inBounds {lu : LU α} (h : lu.SolvesWithDiv div) {E : Failure → Prop}
    (hbounds : @LU.InBounds α (Scalar.withDiv div) E lu n) : lu.InBounds E n := by
  obtain ⟨hlower, hupper, hpermutation, hpivot, hdet, hsolver⟩ := hbounds
  obtain ⟨hsolveMatrix, hsolve, hinverse⟩ := hsolver
  refine ⟨hlower, hupper, hpermutation, hpivot, hdet, fun b hb => ?_, fun b hb => ?_, ?_⟩
  · have hends := hsolveMatrix b hb
    change Ends _ _ (@Solver.solveMatrix α (Scalar.withDiv div) lu.solver b) at hends
    rwa [h.solveMatrix b] at hends
  · have hends := hsolve b hb
    change Ends _ _ (@Solver.solveMatrix α (Scalar.withDiv div) lu.solver b.view >>= _) at hends
    rwa [h.solveMatrix b.view] at hends
  · exact h.inverse ▸ hinverse

/-- Where the arithmetic fails by `E` unless it divides by zero, everything that can be asked of
a decomposition fails by `E` or is refused. It is asked with the division that does not fail on
zero, and the outcomes are the same. -/
theorem ends_ofRule_inBounds_off_zero {E : Failure → Prop}
    (hE : FailsBy α E fun y => Scalar.isZero y = false) (hfault : ∀ e, E e → Fault e)
    (hrule : AcceptsNonzero rule) (ha : a.Shows A) (threshold : Option Float) :
    Ends E (fun lu => lu.InBounds E n) (ofRule rule threshold a) := by
  have hends := @ends_ofRule_inBounds α E (Scalar.withDiv Scalar.totalDiv) hE.total hfault rule _
    hrule a ha.readable threshold
  have hholds := @ends_ofRule_holds α n E (Scalar.withDiv Scalar.totalDiv) hE.total rule _ hrule a A
    ha threshold
  rw [ofRule_withDiv hrule Scalar.totalDiv_agrees ha threshold] at hends hholds
  rw [ha.nrows] at hends
  refine (hends.failing hholds).self.imp ?_
  rintro lu ⟨hlu, -, hbounds⟩
  exact (solvesWithDiv_of_ofRule hrule Scalar.totalDiv_agrees ha hlu).inBounds hbounds

end Decompositions

/-! ### All rules -/

/-- A zero has a modulus below every positive threshold. -/
theorem acceptsNonzero_largestModulus {ρ : Type} [RealScalar ρ] [EuclideanScalar α ρ]
    [ZeroModulus α] {t : ρ} (ht : 0 < t) : AcceptsNonzero (largestModulus t : PivotRule α) :=
  PivotRule.Selects.imp (selects_largestModulus_size t) fun _ _ _ h r hr =>
    Bool.eq_false_iff.2 fun hzero => h r hr (ZeroModulus.modulus_lt hzero ht)

/-- **Nothing is divided by zero.** Let a square matrix be decomposed with a positive threshold
on the modulus, or over a field with the exact test for zero, by either choice of pivots. With
any other division that agrees where the divisor is not zero, and may fail where it is, the
decomposition is the same, and so are the answers of its solver and the inverse. Ratios
therefore never fail by a division by zero: their decomposition exists unless it overflows, and
whatever is asked of it is refused, fails by an overflow, or is answered. -/
theorem decompositions_divide_off_zero :
    (∀ {α ρ : Type} [RealScalar ρ] [EuclideanScalar α ρ] [ZeroModulus α] {n : ℕ}
      {A : Matrix (Fin n) (Fin n) α} {a : MatrixView α}, a.Shows A → ∀ t : ρ, 0 < t →
      ∀ div : α → α → Except Failure α, Scalar.AgreesOffZero div →
        @ofRule α (Scalar.withDiv div) (largestModulus t) (some (RealScalar.toFloat t)) a =
          ofThreshold t a ∧
        ∀ lu, ofThreshold t a = .ok lu → lu.SolvesWithDiv div) ∧
    (∀ {α : Type} [FieldScalar α] {n : ℕ} {A : Matrix (Fin n) (Fin n) α} {a : MatrixView α},
      a.Shows A → ∀ (numeric : Bool) (div : α → α → Except Failure α), Scalar.AgreesOffZero div →
        @ofPredicate α (FieldScalar.withDiv div) Scalar.isZero numeric a =
          ofPredicate Scalar.isZero numeric a ∧
        ∀ lu, ofPredicate Scalar.isZero numeric a = .ok lu → lu.SolvesWithDiv div) ∧
    ∀ {bits n : ℕ} {A : Matrix (Fin n) (Fin n) (Ratio bits)} {a : MatrixView (Ratio bits)},
      a.Shows A → ∀ numeric : Bool,
        Ends Overflow (fun lu => lu.InBounds Overflow n)
          (ofPredicate Scalar.isZero numeric a) := by
  refine ⟨?threshold, ?field, ?ratio⟩
  case threshold =>
    intro α ρ _ _ _ n A a ha t ht div hdiv
    have hrule : AcceptsNonzero (largestModulus t : PivotRule α) :=
      acceptsNonzero_largestModulus ht
    exact ⟨ofRule_withDiv hrule hdiv ha _, fun lu hlu => solvesWithDiv_of_ofRule hrule hdiv ha hlu⟩
  case field =>
    intro α _ n A a ha numeric div hdiv
    have hrule : AcceptsNonzero
        (if numeric then largestMagnitude Scalar.isZero else firstNonZero (α := α) Scalar.isZero) :=
      selects_field Scalar.isZero numeric
    exact ⟨ofRule_withDiv hrule hdiv ha _, fun lu hlu => solvesWithDiv_of_ofRule hrule hdiv ha hlu⟩
  case ratio =>
    intro bits n A a ha numeric
    have hE : FailsBy (Ratio bits) Overflow fun y => Scalar.isZero y = false := by
      refine Ratio.failsBy_overflow.of_divisor fun y hy hzero => ?_
      rw [(ExactScalar.isZero_iff y).2 hzero] at hy
      cases hy
    exact ends_ofRule_inBounds_off_zero hE (fun _ => Overflow.fault) (selects_field _ numeric) ha
      none

/-- A complex matrix with a NaN, and one of ratios whose first pivot has to be exchanged. -/
theorem decompositions_divide_off_zero_nan_and_exchanging :
    let A : Matrix (Fin 2) (Fin 2) (Cartesian Float32) :=
      !![⟨0, 0⟩, ⟨1, 0⟩; ⟨2, 1⟩, ⟨RealScalar.nan, 0⟩]
    @ofRule _ (Scalar.withDiv Scalar.totalDiv) (largestModulus (1 : Float32))
        (some (RealScalar.toFloat (1 : Float32))) (.ofMatrix A) =
      ofThreshold (1 : Float32) (.ofMatrix A) ∧
    (∃ lu : LU (Ratio 64), ofPredicate Scalar.isZero true (.ofMatrix exchanging) = .ok lu ∧
      lu.isSingular = false ∧ lu.SolvesWithDiv Scalar.totalDiv) ∧
    Ends Overflow (fun lu => lu.InBounds Overflow 3)
      (ofPredicate Scalar.isZero false (.ofMatrix exchanging)) := by
  intro A
  obtain ⟨hthreshold, hfield, hratio⟩ := decompositions_divide_off_zero
  have hone : (0 : Float32) < 1 := by decide +kernel
  have hexchanging := MatrixView.ofMatrix_shows exchanging
  refine ⟨?_, ?_, hratio hexchanging false⟩
  · exact (hthreshold (MatrixView.ofMatrix_shows A) 1 hone _ Scalar.totalDiv_agrees).1
  · obtain ⟨lu, hlu, hsingular, -⟩ := exists_decomposition_exchanging
    have hsolves := (hfield hexchanging true _ Scalar.totalDiv_agrees).2 lu hlu
    exact ⟨lu, hlu, hsingular, hsolves⟩

end DenseFactor.LU
