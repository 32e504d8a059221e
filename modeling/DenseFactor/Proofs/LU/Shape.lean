import Mathlib
import DenseFactor.Proofs.LU.Factorization
import DenseFactor.Proofs.Shape
import DenseFactor.Proofs.Solver.Basic

/-!
# DenseFactor.Proofs.LU.Shape

An LU decomposition and its solver stay **inside their matrices** and answer in their shape,
for every element type. The arithmetic may fail in its own ways and in no other.
-/

namespace DenseFactor.LU

variable {α : Type} [Scalar α] {E : Failure → Prop} {n c : ℕ} {packed x : DenseMatrix α}

/-! ### Decompositions -/

/-- The parts of the decomposition of an `n x n` matrix fit together. -/
structure HasShape (lu : LU α) (n : ℕ) : Prop where
  packed : lu.elimination.packed.HasShape n n
  pivot : ∃ σ : Equiv.Perm (Fin n), Lists lu.pivot σ

/-- A matrix that is not square is refused, and every other one has a decomposition as far as
the arithmetic goes. -/
theorem ends_ofRule_shape (hE : FailsBy α E fun _ => True) {rule : PivotRule α}
    {P : ∀ {n : ℕ}, Matrix (Fin n) (Fin n) α → Fin n → Option (Fin n) → Prop}
    (hrule : rule.Selects P) {a : MatrixView α} (ha : a.Readable) (threshold : Option Float) :
    Ends (RefusalOr E) (fun lu => a.ncols = a.nrows ∧ lu.HasShape a.nrows)
      (ofRule rule threshold a) := by
  by_cases hsquare : a.nrows = a.ncols
  · obtain ⟨A, hA⟩ := ha.exists_shows rfl hsquare.symm
    refine ((ends_ofRule_holds hE hrule hA threshold).weaken fun _ => Or.inr).imp ?_
    rintro lu ⟨σ, W, hholds⟩
    exact ⟨hsquare.symm, hholds.packed.hasShape, σ, hholds.lists⟩
  · unfold ofRule
    rw [if_pos hsquare]
    exact Or.inl rfl

namespace HasShape

variable {lu : LU α}

omit [Scalar α] in
/-- Exactly a decomposition that is not singular has a factor, and it is square. -/
theorem ends_factor? (h : lu.HasShape n) {entry : ℕ → ℕ → Except Failure α}
    (hentry : ∀ i j, i < n → j < n → FailsOnly E (entry i j)) :
    Ends E (fun f => (f.isSome = true ↔ lu.isSingular = false) ∧ ∀ m ∈ f, m.HasShape n n)
      (lu.factor? entry) := by
  have hdim : lu.dim = n := h.packed.nrows
  unfold factor?
  rw [hdim]
  by_cases hsingular : lu.isSingular = true
  · rw [if_pos hsingular]
    simp [hsingular]
  · rw [if_neg hsingular]
    refine (DenseMatrix.ends_tabulate_shape hentry).bind fun m hm => ?_
    simpa [hsingular] using hm

theorem ends_lower? (h : lu.HasShape n) :
    Ends E (fun f => (f.isSome = true ↔ lu.isSingular = false) ∧ ∀ m ∈ f, m.HasShape n n)
      lu.lower? := by
  refine h.ends_factor? fun i j hi hj => ?_
  by_cases hbelow : j < i
  · rw [if_pos hbelow]
    exact h.packed.failsOnly_entry hi hj
  · rw [if_neg hbelow]
    exact trivial

theorem ends_upper? (h : lu.HasShape n) :
    Ends E (fun f => (f.isSome = true ↔ lu.isSingular = false) ∧ ∀ m ∈ f, m.HasShape n n)
      lu.upper? := by
  refine h.ends_factor? fun i j hi hj => ?_
  by_cases habove : i ≤ j
  · rw [if_pos habove]
    exact h.packed.failsOnly_entry hi hj
  · rw [if_neg habove]
    exact trivial

theorem ends_permutation? (h : lu.HasShape n) :
    Ends E (fun f => (f.isSome = true ↔ lu.isSingular = false) ∧ ∀ m ∈ f, m.HasShape n n)
      lu.permutation? := by
  obtain ⟨σ, hσ⟩ := h.pivot
  refine h.ends_factor? fun i j hi _ => ?_
  have hread : Storage.read lu.pivot i = .ok (σ ⟨i, hi⟩ : ℕ) := hσ.read ⟨i, hi⟩
  rw [hread]
  exact trivial

theorem failsOnly_det (hE : FailsBy α E fun _ => True) (h : lu.HasShape n) :
    FailsOnly E lu.det := by
  have hdim : lu.dim = n := h.packed.nrows
  have hsign : FailsOnly E (if lu.elimination.even then pure Scalar.one
      else Scalar.sub Scalar.zero Scalar.one : Except Failure α) := by
    by_cases heven : lu.elimination.even = true
    · rw [if_pos heven]
      exact trivial
    · rw [if_neg heven]
      exact hE.ends_sub _ _
  unfold det
  rw [hdim]
  by_cases hsingular : lu.isSingular = true
  · rw [if_pos hsingular]
    exact trivial
  · rw [if_neg hsingular]
    refine Ends.ite_bind hsign fun sign _ => FailsOnly.foldPositions fun i product _ hi => ?_
    exact (h.packed.failsOnly_entry hi hi).bind fun x _ => hE.ends_mul product x

end HasShape

/-! ### Solving -/

theorem ends_eliminateDown_shape (hE : FailsBy α E fun _ => True) (hpacked : packed.HasShape n n)
    (hx : x.HasShape n c) {col : ℕ} (hcol : col < n) :
    Ends E (·.HasShape n c) (eliminateDown packed x col) := by
  refine hx.mapEntries fun i j old hi hj => ?_
  by_cases hbelow : col < i
  · rw [if_pos hbelow]
    refine (hpacked.failsOnly_entry hi hcol).bind fun factor _ => ?_
    by_cases hzero : Scalar.isZero factor = true
    · rw [if_pos hzero]
      exact trivial
    · rw [if_neg hzero]
      refine (hx.failsOnly_entry hcol hj).bind fun y _ => ?_
      exact (hE.ends_mul y factor).bind fun p _ => hE.ends_sub old p
  · rw [if_neg hbelow]
    exact trivial

theorem ends_dividePivotRow_shape (hE : FailsBy α E fun _ => True)
    (hpacked : packed.HasShape n n) (hx : x.HasShape n c) {col : ℕ} (hcol : col < n) :
    Ends E (·.HasShape n c) (dividePivotRow packed x col) := by
  refine (hpacked.failsOnly_entry hcol hcol).bind fun pivot _ => ?_
  refine hx.mapEntries fun i j old _ _ => ?_
  by_cases hrow : i = col
  · rw [if_pos hrow]
    exact hE.ends_div old pivot trivial
  · rw [if_neg hrow]
    exact trivial

theorem ends_eliminateUp_shape (hE : FailsBy α E fun _ => True) (hpacked : packed.HasShape n n)
    (hx : x.HasShape n c) {col : ℕ} (hcol : col < n) :
    Ends E (·.HasShape n c) (eliminateUp packed x col) := by
  refine hx.mapEntries fun i j old hi hj => ?_
  by_cases habove : i < col
  · rw [if_pos habove]
    refine (hpacked.failsOnly_entry hi hcol).bind fun factor _ => ?_
    refine (hx.failsOnly_entry hcol hj).bind fun y _ => ?_
    exact (hE.ends_mul y factor).bind fun p _ => hE.ends_sub old p
  · rw [if_neg habove]
    exact trivial

theorem ends_substitute_shape (hE : FailsBy α E fun _ => True) (hpacked : packed.HasShape n n)
    (hx : x.HasShape n c) : Ends E (·.HasShape n c) (substitute packed n x) := by
  unfold substitute
  refine Ends.bind (P := (·.HasShape n c)) (Ends.foldlM_mem hx fun col hcol x hx => ?_)
    fun y hy => ?_
  · exact ends_eliminateDown_shape hE hpacked hx (mem_positions.1 hcol).2
  · refine Ends.foldlM_mem hy fun col hcol x hx => ?_
    have hcol : col < n := (mem_positions.1 (List.mem_reverse.1 hcol)).2
    refine (ends_dividePivotRow_shape hE hpacked hx hcol).bind fun x hx => ?_
    exact ends_eliminateUp_shape hE hpacked hx hcol

/-- A matrix that does not count as singular is solved for every right-hand side of the
right height, as far as the arithmetic goes. -/
theorem Solver.ends_solveMatrix_shape (hE : FailsBy α E fun _ => True) {s : Solver α}
    {σ : Equiv.Perm (Fin n)} (hpacked : s.packed.HasShape n n) (hpivot : Lists s.pivot σ)
    (hsingular : s.singular = false) {b : MatrixView α} (hb : b.Readable) (hrows : b.nrows = n) :
    Ends E (·.HasShape n b.ncols) (s.solveMatrix b) := by
  obtain ⟨B, hB⟩ := hb.exists_shows hrows rfl
  rw [s.solveMatrix_eq b, hpivot.size, if_pos hrows, hsingular, if_neg Bool.false_ne_true]
  refine Ends.bind ?_ fun permuted hpermuted => ends_substitute_shape hE hpacked hpermuted
  refine DenseMatrix.ends_tabulate_shape fun i j hi hj => ?_
  have hread : Storage.read s.pivot i = .ok (σ ⟨i, hi⟩ : ℕ) := hpivot.read ⟨i, hi⟩
  have hentry : b.entry (σ ⟨i, hi⟩) j = .ok (B (σ ⟨i, hi⟩) ⟨j, hj⟩) := hB.entry _ ⟨j, hj⟩
  rw [hread]
  show FailsOnly E (b.entry (σ ⟨i, hi⟩) j)
  rw [hentry]
  exact trivial

end DenseFactor.LU
