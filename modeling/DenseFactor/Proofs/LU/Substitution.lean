import Mathlib
import DenseFactor.Proofs.LU.Factorization
import DenseFactor.Proofs.Triangular

/-!
# DenseFactor.Proofs.LU.Substitution

Over an exact field the solver of an LU decomposition **solves**: `A · X = B`.

Design points:

* The two loops keep the images `forwardImage` and `backwardImage` of the right-hand
  sides under the packed factors. Each step is a pass or two over the matrix, and what a
  pass computes is said apart from the algebra of the images.
* A quotient by a pivot that is zero is a fault, so the solver needs no word about
  pivots.
-/

namespace DenseFactor.LU

open ExactScalar (value)

/-! ### The steps of the solver -/

section Steps

variable {α K : Type} [Field K] [Scalar α] {n c : ℕ} {packed x : DenseMatrix α}
  {W : Matrix (Fin n) (Fin n) α} {X : Matrix (Fin n) (Fin c) α}

theorem ends_eliminateDown [ExactScalar α K] (hW : packed.Stores W) (hX : x.Stores X)
    (col : Fin n) :
    Ends Fault (fun x' => ∃ X' : Matrix (Fin n) (Fin c) α, x'.Stores X' ∧
        ∀ i j, value (X' i j) = if col < i then
          value (X i j) - value (X col j) * value (W i col) else value (X i j))
      (eliminateDown packed x col) := by
  unfold eliminateDown
  refine Ends.mapEntries (P := fun i j y => value y = if col < i then
    value (X i j) - value (X col j) * value (W i col) else value (X i j)) hX fun i j => ?_
  by_cases hi : col < i
  · have hi' : (col : ℕ) < i := hi
    rw [if_pos hi', hW.entry i col, Ends.ok_bind_iff]
    simp only [if_pos hi]
    by_cases hzero : Scalar.isZero (W i col) = true
    · simp [hzero, (ExactScalar.isZero_iff _).1 hzero]
    · rw [if_neg hzero, hX.entry col j, Ends.ok_bind_iff]
      refine (ExactScalar.ends_mul _ _).bind fun p hp => ?_
      refine (ExactScalar.ends_sub _ _).imp fun y hy => ?_
      rw [hy, hp]
  · have hi' : ¬ (col : ℕ) < i := hi
    rw [if_neg hi']
    simp [hi]

theorem ends_dividePivotRow [ExactField α K] (hW : packed.Stores W) (hX : x.Stores X)
    (col : Fin n) :
    Ends Fault (fun x' => ∃ X' : Matrix (Fin n) (Fin c) α, x'.Stores X' ∧
        ∀ i j, if i = col then value (W col col) * value (X' i j) = value (X i j)
          else value (X' i j) = value (X i j))
      (dividePivotRow packed x col) := by
  unfold dividePivotRow
  rw [hW.entry col col, Ends.ok_bind_iff]
  refine Ends.mapEntries (P := fun i j y => if i = col then
    value (W col col) * value y = value (X i j) else value y = value (X i j)) hX fun i j => ?_
  by_cases hi : i = col
  · have hi' : (i : ℕ) = col := congrArg Fin.val hi
    rw [if_pos hi']
    simp only [if_pos hi]
    refine (ExactScalar.ends_quotient _ _).imp fun y hy => ?_
    rw [hy.2, mul_div_cancel₀ _ hy.1]
  · have hi' : ¬ (i : ℕ) = col := fun hval => hi (Fin.ext hval)
    rw [if_neg hi']
    simp [hi]

theorem ends_eliminateUp [ExactScalar α K] (hW : packed.Stores W) (hX : x.Stores X)
    (col : Fin n) :
    Ends Fault (fun x' => ∃ X' : Matrix (Fin n) (Fin c) α, x'.Stores X' ∧
        ∀ i j, value (X' i j) = if i < col then
          value (X i j) - value (X col j) * value (W i col) else value (X i j))
      (eliminateUp packed x col) := by
  unfold eliminateUp
  refine Ends.mapEntries (P := fun i j y => value y = if i < col then
    value (X i j) - value (X col j) * value (W i col) else value (X i j)) hX fun i j => ?_
  by_cases hi : i < col
  · have hi' : (i : ℕ) < col := hi
    rw [if_pos hi', hW.entry i col, Ends.ok_bind_iff, hX.entry col j, Ends.ok_bind_iff]
    simp only [if_pos hi]
    refine (ExactScalar.ends_mul _ _).bind fun p hp => ?_
    refine (ExactScalar.ends_sub _ _).imp fun y hy => ?_
    rw [hy, hp]
  · have hi' : ¬ (i : ℕ) < col := hi
    rw [if_neg hi']
    simp [hi]

/-- Downwards, the forward image of the rows stays the right-hand side. -/
theorem ends_forward [ExactScalar α K] (hW : packed.Stores W) (hX : x.Stores X) :
    Ends Fault (fun x' => ∃ X' : Matrix (Fin n) (Fin c) α, x'.Stores X' ∧
        Packed.lowerPart (W.map value) * X'.map value = X.map value)
      ((positions 0 n).foldlM (eliminateDown packed) x) := by
  have hlower := Packed.lowerPart_isLowerTriangular (W.map value)
  refine (Ends.foldlM_positions (I := fun k x' => ∃ X' : Matrix (Fin n) (Fin c) α,
    x'.Stores X' ∧ forwardImage (Packed.lowerPart (W.map value)) k (X'.map value) = X.map value)
    (Nat.zero_le n) ⟨X, hX, forwardImage_zero _ _⟩ ?_).imp ?_
  · intro k x₁ _ hk hx₁
    obtain ⟨X₁, hX₁, hinv⟩ := hx₁
    refine (ends_eliminateDown hW hX₁ ⟨k, hk⟩).imp ?_
    intro x₂ hx₂
    obtain ⟨X₂, hX₂, hrows⟩ := hx₂
    refine ⟨X₂, hX₂, ?_⟩
    rw [← hinv]
    refine forwardImage_succ hlower (Packed.lowerPart_diag _) ⟨k, hk⟩ fun i j => ?_
    simp only [Matrix.map_apply, hrows i j]
    by_cases hi : (⟨k, hk⟩ : Fin n) < i
    · simp [hi, Packed.lowerPart]
    · simp [hi]
  · intro x' hx'
    obtain ⟨X', hX', hinv⟩ := hx'
    rw [forwardImage_all] at hinv
    exact ⟨X', hX', hinv⟩

/-- One step upwards keeps the backward image. -/
theorem ends_backwardStep [ExactField α K] (hW : packed.Stores W) (hX : x.Stores X)
    (col : Fin n) :
    Ends Fault (fun x' => ∃ X' : Matrix (Fin n) (Fin c) α, x'.Stores X' ∧
        backwardImage (Packed.upperPart (W.map value)) col (X'.map value) =
          backwardImage (Packed.upperPart (W.map value)) (col + 1) (X.map value))
      (dividePivotRow packed x col >>= fun x' => eliminateUp packed x' col) := by
  have hupper := Packed.upperPart_isUpperTriangular (W.map value)
  refine (ends_dividePivotRow hW hX col).bind ?_
  intro x₁ hx₁
  obtain ⟨X₁, hX₁, hdivided⟩ := hx₁
  refine (ends_eliminateUp hW hX₁ col).imp ?_
  intro x₂ hx₂
  obtain ⟨X₂, hX₂, hrows⟩ := hx₂
  refine ⟨X₂, hX₂, backwardImage_eq hupper col (fun j => ?_) fun i j hi => ?_⟩
  · have hj := hdivided col j
    rw [if_pos rfl] at hj
    simpa [hrows, Packed.upperPart_diag] using hj
  · have hj := hdivided i j
    rw [if_neg hi] at hj
    simp only [Matrix.map_apply, hrows i j, hj]
    by_cases hlt : i < col
    · simp [hlt, hrows, Packed.upperPart, hlt.le]
    · simp [hlt]

/-- Upwards, the backward image of the rows stays what the loop began with. -/
theorem ends_backward [ExactField α K] (hW : packed.Stores W) (hX : x.Stores X) :
    Ends Fault (fun x' => ∃ X' : Matrix (Fin n) (Fin c) α, x'.Stores X' ∧
        Packed.upperPart (W.map value) * X'.map value = X.map value)
      ((positions 0 n).reverse.foldlM (fun x col => do
        eliminateUp packed (← dividePivotRow packed x col) col) x) := by
  refine (Ends.foldReversed (I := fun k x' => ∃ X' : Matrix (Fin n) (Fin c) α, x'.Stores X' ∧
    backwardImage (Packed.upperPart (W.map value)) k (X'.map value) = X.map value)
    ⟨X, hX, backwardImage_all _ _⟩ ?_).imp ?_
  · intro k x₁ hk hx₁
    obtain ⟨X₁, hX₁, hinv⟩ := hx₁
    refine (ends_backwardStep hW hX₁ ⟨k, hk⟩).imp ?_
    intro x₂ hx₂
    obtain ⟨X₂, hX₂, hkept⟩ := hx₂
    exact ⟨X₂, hX₂, hkept.trans hinv⟩
  · intro x' hx'
    obtain ⟨X', hX', hinv⟩ := hx'
    rw [backwardImage_zero] at hinv
    exact ⟨X', hX', hinv⟩

/-- Both substitutions together. -/
theorem ends_substitute [ExactField α K] (hW : packed.Stores W) (hX : x.Stores X) :
    Ends Fault (fun x' => ∃ X' : Matrix (Fin n) (Fin c) α, x'.Stores X' ∧
        Packed.lowerPart (W.map value) * (Packed.upperPart (W.map value) * X'.map value) =
          X.map value)
      (substitute packed n x) := by
  unfold substitute
  refine (ends_forward hW hX).bind ?_
  intro x₁ hx₁
  obtain ⟨X₁, hX₁, hforward⟩ := hx₁
  refine (ends_backward hW hX₁).imp ?_
  intro x₂ hx₂
  obtain ⟨X₂, hX₂, hbackward⟩ := hx₂
  exact ⟨X₂, hX₂, by rw [hbackward, hforward]⟩

end Steps

/-! ### Solving -/

section Solving

variable {α K : Type} [Field K] [Scalar α] [ExactField α K] {n c : ℕ} {lu : LU α}
  {σ : Equiv.Perm (Fin n)} {A W : Matrix (Fin n) (Fin n) α}

/-- The rows of the right-hand side in their new order, then both substitutions. -/
theorem ends_solveMatrix (h : lu.elimination.Holds σ W) (hrows : RepresentsRows A n σ W)
    (hs : lu.isSingular = false) {b : MatrixView α} {B : Matrix (Fin n) (Fin c) α}
    (hb : b.Shows B) :
    Ends Fault (fun x => ∃ X : Matrix (Fin n) (Fin c) α, x.Stores X ∧
        A.map value * X.map value = B.map value)
      (lu.solver.solveMatrix b) := by
  have hsize : lu.solver.pivot.size = n := h.size
  have hsingular : ¬ lu.solver.singular = true := by
    rw [solver, hs]
    exact Bool.false_ne_true
  unfold Solver.solveMatrix checkRows
  simp only [hsize, hb.nrows, hb.ncols, if_true, Ends.ok_bind_iff, if_neg hsingular]
  refine Ends.bind (Ends.tabulate_of_ok (M := B.submatrix σ id) fun i j => ?_) fun y hy => ?_
  · have hread : Storage.read lu.solver.pivot i = .ok (σ i : ℕ) := h.read_pivot i
    rw [hread]
    exact hb.entry (σ i) j
  · refine (ends_substitute h.packed hy).imp ?_
    intro x hx
    obtain ⟨X, hX, hsolved⟩ := hx
    refine ⟨X, hX, ?_⟩
    unfold RepresentsRows at hrows
    -- both sides are permuted alike, so the rows can go back to their places
    rw [← Matrix.mul_assoc, ← Packed.product_all, hrows, ← Matrix.submatrix_map] at hsolved
    ext i j
    have hij := congrFun (congrFun hsolved (σ.symm i)) j
    simpa [Matrix.mul_apply] using hij

/-- The answer to the identity. -/
theorem ends_inverse (h : lu.elimination.Holds σ W) (hrows : RepresentsRows A n σ W)
    (hs : lu.isSingular = false) :
    Ends Fault (fun m => ∃ M : Matrix (Fin n) (Fin n) α, m.Stores M ∧
        A.map value * M.map value = 1 ∧ M.map value * A.map value = 1)
      (LinearSolver.inverse lu.solver) := by
  have hsize : lu.solver.pivot.size = n := h.size
  change Ends Fault _ (LinearSolver.solveIdentity lu.solver.solveMatrix lu.solver.pivot.size)
  unfold LinearSolver.solveIdentity
  rw [hsize]
  refine (DenseMatrix.ends_identity n).bind ?_
  intro e he
  obtain ⟨I, he, hone⟩ := he
  refine (ends_solveMatrix h hrows hs he.view).imp ?_
  intro m hm
  obtain ⟨M, hM, hmul⟩ := hm
  rw [hone] at hmul
  exact ⟨M, hM, hmul, mul_eq_one_comm.1 hmul⟩

end Solving

/-- Over an exact field, whatever counts as zero and however pivots are chosen, the
solver of a decomposition that is not singular answers any number of right-hand sides
by a solution, and its inverse is the inverse on both sides. Only faults of
arithmetic can keep it from answering. -/
theorem mul_solveMatrix_eq {α K : Type} [Field K] [FieldScalar α] [ExactField α K] {n : ℕ}
    {A : Matrix (Fin n) (Fin n) α} {a : MatrixView α} (ha : a.Shows A) (isZero : α → Bool)
    (numeric : Bool) :
    Ends Fault (fun lu => lu.isSingular = false →
        (∀ (c : ℕ) (B : Matrix (Fin n) (Fin c) α) (b : MatrixView α), b.Shows B →
          Ends Fault (fun x => ∃ X : Matrix (Fin n) (Fin c) α, x.Stores X ∧
              A.map value * X.map value = B.map value)
            (LinearSolver.solveMatrix lu.solver b)) ∧
        Ends Fault (fun m => ∃ M : Matrix (Fin n) (Fin n) α, m.Stores M ∧
            A.map value * M.map value = 1 ∧ M.map value * A.map value = 1)
          (LinearSolver.inverse lu.solver))
      (ofPredicate isZero numeric a) := by
  refine (ends_ofPredicate ha isZero numeric).imp ?_
  intro lu hlu hs
  obtain ⟨σ, W, hholds, hrows⟩ := hlu
  refine ⟨fun c B b hb => ?_, ends_inverse hholds (hrows hs) hs⟩
  exact ends_solveMatrix hholds (hrows hs) hs hb

/-- The inverse of `exchanging`, and the solution for the columns of its transpose. -/
theorem mul_solveMatrix_eq_exchanging :
    ∃ (lu : LU (Ratio 64)) (x m : DenseMatrix (Ratio 64))
        (X M : Matrix (Fin 3) (Fin 3) (Ratio 64)),
      ofPredicate Scalar.isZero true (.ofMatrix exchanging) = .ok lu ∧
        lu.isSingular = false ∧
        (LinearSolver.solveMatrix lu.solver (.ofMatrix exchanging.transpose) = .ok x ∧
          x.Stores X) ∧
        exchanging.map value * X.map value = exchanging.transpose.map value ∧
        (LinearSolver.inverse lu.solver = .ok m ∧ m.Stores M) ∧
        exchanging.map value * M.map value = 1 ∧ M.map value * exchanging.map value = 1 := by
  obtain ⟨lu, hlu, hs, -⟩ := exists_decomposition_exchanging
  obtain ⟨hsolve, hinverse⟩ := (mul_solveMatrix_eq (MatrixView.ofMatrix_shows exchanging)
    Scalar.isZero true).of_ok hlu hs
  have hsolve := hsolve 3 exchanging.transpose (.ofMatrix exchanging.transpose)
    (MatrixView.ofMatrix_shows exchanging.transpose)
  have hrun : (do
      let lu ← ofPredicate Scalar.isZero true (.ofMatrix exchanging)
      let x ← LinearSolver.solveMatrix lu.solver (.ofMatrix exchanging.transpose)
      let m ← LinearSolver.inverse lu.solver
      return (x.nrows, m.nrows)).toOption = some (3, 3) := by decide +kernel
  rw [hlu] at hrun
  change (LinearSolver.solveMatrix lu.solver (.ofMatrix exchanging.transpose) >>= fun x =>
    LinearSolver.inverse lu.solver >>= fun m => pure (x.nrows, m.nrows)).toOption = _ at hrun
  cases hx : LinearSolver.solveMatrix lu.solver (.ofMatrix exchanging.transpose) with
  | error e => simp [hx, bind, Except.bind, Except.toOption] at hrun
  | ok x =>
      cases hm : LinearSolver.inverse lu.solver with
      | error e => simp [hx, hm, bind, Except.bind, Except.toOption] at hrun
      | ok m =>
          obtain ⟨X, hX, hmul⟩ := hsolve.of_ok hx
          obtain ⟨M, hM, hright, hleft⟩ := hinverse.of_ok hm
          exact ⟨lu, x, m, X, M, hlu, hs, ⟨hx, hX⟩, hmul, ⟨hm, hM⟩, hright, hleft⟩

end DenseFactor.LU
