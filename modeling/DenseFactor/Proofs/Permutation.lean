import Mathlib
import DenseFactor.Proofs.Cholesky.PivotedShape
import DenseFactor.Proofs.LU.Order
import DenseFactor.Proofs.QR.Shape
import DenseFactor.Proofs.Scalar.Unit

/-!
# DenseFactor.Proofs.Permutation

The orders that the pivoted decompositions keep are **permutations**, and their matrices are
inverted by their transposes.

Design points:

* All three loops keep their order by exchanges alone. What is exchanged is chosen by
  comparisons that may answer anything, or by a rule of which nothing is known.
* A permutation matrix is stored as zeros and ones. In a product of two of them every sum has
  at most one term, and the terms whose left factor is zero are left out. So the sums are exact
  in any arithmetic that multiplies and adds a one exactly.
-/

namespace DenseFactor

variable {α ρ : Type} {E : Failure → Prop} {n : ℕ}

/-! ### Permutation matrices -/

/-- The matrix with its ones at `(i, σ i)`. -/
def permutationMatrix (α : Type) [Scalar α] (σ : Equiv.Perm (Fin n)) : Matrix (Fin n) (Fin n) α :=
  Matrix.of fun i j => if σ i = j then Scalar.one else Scalar.zero

section Product

variable [Scalar α] [UnitScalar α] {p pt : DenseMatrix α} {σ : Equiv.Perm (Fin n)}

/-- The entry at `(i, j)` of a permutation matrix times its transpose, summed over the positions
before `k`: the only term is at `σ i`, and it is there on the diagonal alone. -/
theorem ends_permutationMatrix_sum (hp : p.Stores (permutationMatrix α σ))
    (hpt : pt.Stores (permutationMatrix α σ).transpose) (i j : Fin n) :
    Ends Never (fun sum => sum = if i = j then Scalar.one else Scalar.zero)
      (foldPositions 0 n Scalar.zero fun sum k => do
        let x ← p.entry i k
        if Scalar.isZero x then return sum
        DenseMatrix.addProduct sum x (← pt.entry k j)) := by
  refine (Ends.foldPositions (I := fun k sum =>
    sum = if (σ i : ℕ) < k ∧ i = j then Scalar.one else Scalar.zero) (Nat.zero_le n) ?_ ?_).imp ?_
  · simp
  · intro k sum _ hkn hsum
    obtain ⟨t, rfl⟩ : ∃ t : Fin n, (t : ℕ) = k := ⟨⟨k, hkn⟩, rfl⟩
    rw [hp.entry i t, Ends.ok_bind_iff]
    by_cases hterm : σ i = t
    · have hone : permutationMatrix α σ i t = Scalar.one := if_pos hterm
      have hstart : sum = Scalar.zero := by simpa [hterm] using hsum
      have hdone : (σ i : ℕ) < t + 1 := hterm ▸ Nat.lt_succ_self _
      rw [hone, UnitScalar.isZero_one, if_neg Bool.false_ne_true, hpt.entry t j,
        Ends.ok_bind_iff, hstart, Matrix.transpose_apply]
      by_cases hij : i = j
      · have hother : permutationMatrix α σ j t = Scalar.one := if_pos (hij ▸ hterm)
        rw [hother, if_pos ⟨hdone, hij⟩]
        exact UnitScalar.ends_addProduct_one
      · have hne : σ j ≠ t := fun heq => hij (σ.injective (hterm.trans heq.symm))
        have hother : permutationMatrix α σ j t = Scalar.zero := if_neg hne
        rw [hother, if_neg fun hand => hij hand.2]
        exact UnitScalar.ends_addProduct_zero
    · have hzero : permutationMatrix α σ i t = Scalar.zero := if_neg hterm
      have hsame : (σ i : ℕ) < t + 1 ↔ (σ i : ℕ) < t := by
        have hne : (σ i : ℕ) ≠ t := fun heq => hterm (Fin.ext heq)
        omega
      rw [hzero, UnitScalar.isZero_zero, if_pos rfl]
      simpa only [hsame, Ends.pure_iff] using hsum
  · intro sum hsum
    simpa using hsum

/-- A permutation matrix times its transpose is the identity, entry for entry. -/
theorem DenseMatrix.Stores.mul_transpose_eq_identity
    (hp : p.Stores (permutationMatrix α σ)) :
    ∃ pt, p.transpose = .ok pt ∧ p.mul pt = DenseMatrix.identity n := by
  obtain ⟨pt, htranspose, hpt⟩ := Ends.never_iff.1 (hp.transpose (E := Never))
  refine ⟨pt, htranspose, ?_⟩
  unfold DenseMatrix.mul DenseMatrix.identity
  rw [hp.nrows, hp.ncols, hpt.nrows, hpt.ncols, if_neg (not_not.2 rfl)]
  refine DenseMatrix.tabulate_congr fun i hi j hj => ?_
  obtain ⟨sum, hsum, hentry⟩ :=
    Ends.never_iff.1 (ends_permutationMatrix_sum hp hpt ⟨i, hi⟩ ⟨j, hj⟩)
  have hij : ((⟨i, hi⟩ : Fin n) = ⟨j, hj⟩) ↔ i = j := Fin.mk_eq_mk
  simp only [hij] at hentry
  rw [← hentry]
  exact hsum

end Product

/-! ### Decompositions -/

/-- The matrix of the pivots of a decomposition that is not singular. -/
theorem LU.exists_permutation?_mul_transpose [Scalar α] [UnitScalar α] {lu : LU α}
    {σ : Equiv.Perm (Fin n)} (h : lu.elimination.Orders σ) (hs : lu.isSingular = false) :
    ∃ p pt, lu.permutation? = .ok (some p) ∧ p.transpose = .ok pt ∧
      p.mul pt = DenseMatrix.identity n := by
  have hentries : Ends Never (fun f => ∃ (m : DenseMatrix α) (M : Matrix (Fin n) (Fin n) α),
      f = some m ∧ m.Stores M ∧ ∀ i j, M i j = permutationMatrix α σ i j) lu.permutation? := by
    refine ends_factor? (P := fun i j x => x = permutationMatrix α σ i j) hs h.packed.nrows
      fun i j => ?_
    rw [pivot, h.lists.read i, Ends.ok_bind_iff, Ends.pure_iff]
    simp only [permutationMatrix, Matrix.of_apply, Fin.ext_iff]
  obtain ⟨_, hp, p, P, rfl, hP, hPσ⟩ := Ends.never_iff.1 hentries
  obtain rfl : P = permutationMatrix α σ := Matrix.ext hPσ
  obtain ⟨pt, htranspose, hproduct⟩ := hP.mul_transpose_eq_identity
  exact ⟨p, pt, hp, htranspose, hproduct⟩

/-- The determinant takes its sign from the parity, which is that of the permutation. -/
theorem LU.Elimination.Orders.det_eq [Scalar α] {lu : LU α} {σ : Equiv.Perm (Fin n)}
    (h : lu.elimination.Orders σ) (hs : lu.isSingular = false) :
    lu.det = ((if Equiv.Perm.sign σ = 1 then .ok Scalar.one
        else Scalar.sub Scalar.zero Scalar.one) >>= fun sign =>
      foldPositions 0 n sign fun product i => do
        Scalar.mul product (← lu.elimination.packed.entry i i)) := by
  have hdim : lu.dim = n := h.packed.nrows
  unfold LU.det
  rw [hs, if_neg Bool.false_ne_true, hdim]
  by_cases heven : lu.elimination.even = true
  · rw [if_pos heven, if_pos (h.even_iff.1 heven)]
    rfl
  · rw [if_neg heven, if_neg fun hsign => heven (h.even_iff.2 hsign)]

/-- The matrix of the order of the columns. -/
theorem RankRevealingQR.exists_p_mul_transpose [RealScalar ρ] [UnitScalar ρ]
    {qr : RankRevealingQR ρ} {σ : Equiv.Perm (Fin n)} (h : Lists qr.permutation σ) :
    ∃ p pt, qr.p = .ok p ∧ p.transpose = .ok pt ∧ p.mul pt = DenseMatrix.identity n := by
  have hp : Ends Never (·.Stores (permutationMatrix ρ σ.symm)) qr.p := by
    unfold RankRevealingQR.p
    rw [h.size]
    refine Ends.tabulate_of_ok fun i j => ?_
    have hij : ((σ j : ℕ) = i) ↔ σ.symm i = j := by
      rw [Equiv.symm_apply_eq, Fin.ext_iff, eq_comm]
    rw [h.read j]
    simp only [permutationMatrix, Matrix.of_apply, ← hij]
    rfl
  obtain ⟨p, hp, hstores⟩ := Ends.never_iff.1 hp
  obtain ⟨pt, htranspose, hproduct⟩ := hstores.mul_transpose_eq_identity
  exact ⟨p, pt, hp, htranspose, hproduct⟩

/-- The elimination of `a` ends in the state `s`, whose root is put in the order of the
matrix. -/
structure PivotedCholesky.ComesFrom [RealScalar ρ] (c : PivotedCholesky ρ) (small : ρ)
    (a : MatrixView ρ) (s : Reduction ρ) : Prop where
  run : ∃ work, DenseMatrix.ofView a = .ok work ∧
    Reduction.run small (positions 0 a.nrows)
      { work, root := .zeros a.nrows a.nrows, order := Array.range a.nrows } = .ok (s, c.rank)
  placed : s.inMatrixOrder c.rank = .ok c.root

/-- The last state of a decomposition lists the rows in some order, and its root has the rows of
the result in this order. -/
theorem PivotedCholesky.ends_ofSmall_order [RealScalar ρ] {a : MatrixView ρ} (ha : a.Readable)
    (small : ρ) :
    Ends Refusal (fun c => ∃ (s : Reduction ρ) (σ : Equiv.Perm (Fin a.nrows)),
        c.ComesFrom small a s ∧ Lists s.order σ ∧
        ∀ (i : Fin a.nrows) (t : ℕ), t < c.rank → c.root.entry (σ i) t = s.root.entry i t)
      (ofSmall small a) := by
  unfold ofSmall
  by_cases hsquare : a.nrows = a.ncols
  · rw [if_neg (not_not.2 hsquare)]
    refine (DenseMatrix.ends_ofView_shape ha).self.bind ?_
    rintro work ⟨hview, hwork⟩
    rw [← hsquare] at hwork
    have hpositions : ∀ r ∈ positions 0 a.nrows, r < a.nrows := fun r hr => (mem_positions.1 hr).2
    refine (Reduction.ends_run_shape small hpositions (.start hwork)).self.bind ?_
    rintro ⟨s, rank⟩ ⟨hrun, hs, hrank⟩
    obtain ⟨σ, W, L, hholds⟩ := hs.exists_holds
    refine (hholds.ends_inMatrixOrder hrank).self.of_never.bind ?_
    rintro root ⟨hplaced, hroot⟩
    refine ⟨s, σ, ⟨⟨work, hview, hrun⟩, hplaced⟩, hholds.order, fun i t ht => ?_⟩
    have hentry : root.entry (σ i) t = .ok (matrixOrder L σ hrank (σ i) ⟨t, ht⟩) :=
      hroot.entry (σ i) ⟨t, ht⟩
    have hrow : s.root.entry i t = .ok (L i (Fin.castLE hrank ⟨t, ht⟩)) :=
      hholds.root.entry i (Fin.castLE hrank ⟨t, ht⟩)
    show root.entry (σ i) t = s.root.entry i t
    rw [hentry, hrow]
    simp [matrixOrder]
  · rw [if_pos hsquare]
    rfl

/-- **Permutations stay permutations.** Whatever a pivot rule answers, the pivots of an LU
decomposition are a permutation of the rows, also where a column was rejected, and the parity
that gives the determinant its sign is that of the permutation. The columns of a rank-revealing
QR decomposition are permuted, whatever the comparisons of norms answer. So are the rows of a
pivoted Cholesky decomposition, and thus each row of the root is written exactly once, with the
row of the elimination that stands for it. Where a one is multiplied and added exactly, as in
both floating-point formats, in complex numbers over them and in ratios, the permutation matrix
of a rank-revealing QR decomposition, and of an LU decomposition that is not singular, exists
and gives the identity when it is multiplied by its transpose. -/
theorem orders_arePermutations :
    (∀ {α : Type} [Scalar α] (rule : LU.PivotRule α) (threshold : Option Float)
      (a : MatrixView α) (lu : LU α), LU.ofRule rule threshold a = .ok lu →
      ∃ σ : Equiv.Perm (Fin a.nrows), Lists lu.pivot σ ∧
        (Equiv.Perm.sign σ = if lu.elimination.even then 1 else -1) ∧
        (lu.isSingular = false → lu.det =
          ((if Equiv.Perm.sign σ = 1 then .ok Scalar.one
            else Scalar.sub Scalar.zero Scalar.one) >>= fun sign =>
          foldPositions 0 a.nrows sign fun product i => do
            Scalar.mul product (← lu.elimination.packed.entry i i))) ∧
        (UnitScalar α → lu.isSingular = false → ∃ p pt, lu.permutation? = .ok (some p) ∧
          p.transpose = .ok pt ∧ p.mul pt = DenseMatrix.identity a.nrows)) ∧
    (∀ {ρ : Type} [RealScalar ρ] (threshold : ρ) (a : MatrixView ρ), a.Readable →
      Ends Never (fun qr => ∃ σ : Equiv.Perm (Fin a.ncols), Lists qr.permutation σ ∧
          (UnitScalar ρ → ∃ p pt, qr.p = .ok p ∧
            p.transpose = .ok pt ∧ p.mul pt = DenseMatrix.identity a.ncols))
        (RankRevealingQR.ofThreshold threshold a)) ∧
    ∀ {ρ : Type} [RealScalar ρ] (small : ρ) (a : MatrixView ρ), a.Readable →
      Ends Refusal (fun c => ∃ (s : PivotedCholesky.Reduction ρ)
          (σ : Equiv.Perm (Fin a.nrows)), c.ComesFrom small a s ∧ Lists s.order σ ∧
          (∀ row : Fin a.nrows, ∃! i : Fin a.nrows, s.order[i]? = some (row : ℕ)) ∧
          ∀ (i : Fin a.nrows) (t : ℕ), t < c.rank → c.root.entry (σ i) t = s.root.entry i t)
        (PivotedCholesky.ofSmall small a) := by
  refine ⟨?lu, ?rrqr, ?pivoted⟩
  case lu =>
    intro α _ rule threshold a lu hlu
    obtain ⟨σ, hσ⟩ := (LU.ends_ofRule_orders rule threshold a).of_ok hlu
    refine ⟨σ, hσ.lists, hσ.sign, hσ.det_eq, fun hunit hs => ?_⟩
    exact LU.exists_permutation?_mul_transpose hσ hs
  case rrqr =>
    intro ρ _ threshold a ha
    refine (RankRevealingQR.ends_ofThreshold_shape ha threshold).imp ?_
    rintro qr ⟨-, σ, hσ⟩
    exact ⟨σ, hσ, fun hunit => RankRevealingQR.exists_p_mul_transpose hσ⟩
  case pivoted =>
    intro ρ _ small a ha
    refine (PivotedCholesky.ends_ofSmall_order ha small).imp ?_
    rintro c ⟨s, σ, hfrom, hσ, hrows⟩
    exact ⟨s, σ, hfrom, hσ, hσ.existsUnique, hrows⟩

/-- The orders of a matrix of ratios, of a row with a NaN, and of a matrix whose larger diagonal
entry comes second. -/
theorem orders_arePermutations_exchanging_and_row :
    let row : DenseMatrix Float32 := ⟨1, 2, #[RealScalar.nan, 1]⟩
    let square : DenseMatrix Float := ⟨2, 2, #[1, 1, 1, 4]⟩
    (∃ (lu : LU (Ratio 64)) (σ : Equiv.Perm (Fin 3)) (p pt : DenseMatrix (Ratio 64)),
      LU.ofPredicate Scalar.isZero true (.ofMatrix LU.exchanging) = .ok lu ∧ Lists lu.pivot σ ∧
        lu.permutation? = .ok (some p) ∧ p.transpose = .ok pt ∧
        p.mul pt = DenseMatrix.identity 3) ∧
    Ends Never (fun qr => ∃ p pt, qr.p = .ok p ∧ p.transpose = .ok pt ∧
        p.mul pt = DenseMatrix.identity 2) (RankRevealingQR.ofThreshold (0 : Float32) row.view) ∧
    Ends Refusal (fun c => ∃ (s : PivotedCholesky.Reduction Float) (σ : Equiv.Perm (Fin 2)),
        c.ComesFrom 0 square.view s ∧ Lists s.order σ)
      (PivotedCholesky.ofSmall 0 square.view) := by
  intro row square
  obtain ⟨hlu, hrrqr, hpivoted⟩ := orders_arePermutations
  have hrow : row.view.Readable := DenseMatrix.WellFormed.view_readable rfl
  have hsquare : square.view.Readable := DenseMatrix.WellFormed.view_readable rfl
  refine ⟨?lu, ?rrqr, ?pivoted⟩
  case lu =>
    obtain ⟨lu, hdecomposed, hs, -⟩ := LU.exists_decomposition_exchanging
    obtain ⟨σ, hσ, -, -, hproduct⟩ := hlu _ none _ lu hdecomposed
    obtain ⟨p, pt, hp⟩ := hproduct inferInstance hs
    exact ⟨lu, σ, p, pt, hdecomposed, hσ, hp⟩
  case rrqr =>
    refine (hrrqr 0 row.view hrow).imp ?_
    rintro qr ⟨σ, -, hproduct⟩
    exact hproduct inferInstance
  case pivoted =>
    refine (hpivoted 0 square.view hsquare).imp ?_
    rintro c ⟨s, σ, hfrom, hσ, -⟩
    exact ⟨s, σ, hfrom, hσ⟩

end DenseFactor
