import Mathlib
import DenseFactor.Proofs.Order
import DenseFactor.Proofs.Shape
import DenseFactor.Proofs.Solver.Basic

/-!
# DenseFactor.Proofs.QR.Shape

Both QR decompositions stay **inside their matrices** and answer in their shape, whatever
the arithmetic answers.

Design points:

* `f.HasShape m n k` says that the factors belong to an `m x n` matrix of which `k` columns
  are reduced. A step is in bounds as long as `k` is below both dimensions.
* The column that is moved into place is chosen by comparisons of norms. Whatever these
  say, it is one of the columns that are left, so the order stays a permutation.
-/

namespace DenseFactor

namespace QR

variable {α ρ : Type} [RealScalar ρ] [EuclideanScalar α ρ] {E : Failure → Prop}
  {m n k : ℕ} {work : DenseMatrix α}

/-! ### Reflections -/

theorem failsOnly_restLength (hwork : work.HasShape n m) {row : ℕ} (hrow : row < n)
    (start : ℕ) : FailsOnly E (restLength work row start) := by
  unfold restLength
  rw [hwork.ncols]
  refine Ends.bind (FailsOnly.foldPositions fun i sum _ hi => ?_) fun _ _ => trivial
  exact (hwork.failsOnly_entry hrow hi).bind fun _ _ => trivial

omit [RealScalar ρ] in
theorem failsOnly_alongVector (hwork : work.HasShape n m) {minor row : ℕ} (hminor : minor < n)
    (hrow : row < n) : FailsOnly E (alongVector work minor row) := by
  unfold alongVector
  rw [hwork.ncols]
  refine FailsOnly.foldPositions fun i sum _ hi => ?_
  refine (hwork.failsOnly_entry hminor hi).bind fun _ _ => ?_
  exact (hwork.failsOnly_entry hrow hi).bind fun _ _ => trivial

omit [RealScalar ρ] in
theorem ends_reflectRows_shape (hwork : work.HasShape n m) {minor : ℕ} (hn : minor < n)
    (hm : minor < m) (entry : α) :
    Ends E (·.HasShape n m) (reflectRows work minor entry) := by
  unfold reflectRows
  refine (hwork.failsOnly_entry hn hm).bind fun head _ => ?_
  have hfactors : Ends E (·.size = n) (Storage.collect work.nrows fun row =>
      if minor < row then do
        return (← alongVector work minor row) / (EuclideanScalar.conj entry * head)
      else .ok 0) := by
    rw [hwork.nrows]
    refine Storage.ends_collect_size fun row hrow => ?_
    by_cases hlater : minor < row
    · rw [if_pos hlater]
      exact (failsOnly_alongVector hwork hn hrow).bind fun _ _ => trivial
    · rw [if_neg hlater]
      exact trivial
  refine hfactors.bind fun factors hsize => hwork.mapEntries fun i j x hi hj => ?_
  by_cases hrest : minor < i ∧ minor ≤ j
  · rw [if_pos hrest]
    refine (Storage.failsOnly_read (hsize ▸ hi)).bind fun _ _ => ?_
    exact (hwork.failsOnly_entry hn hj).bind fun _ _ => trivial
  · rw [if_neg hrest]
    exact trivial

theorem ends_reflect_shape (hwork : work.HasShape n m) {minor : ℕ} (hn : minor < n)
    (hm : minor < m) : Ends E (·.1.HasShape n m) (reflect work minor) := by
  unfold reflect
  refine (failsOnly_restLength hwork hn minor).bind fun length _ => ?_
  refine (hwork.failsOnly_entry hn hm).bind fun head _ => ?_
  dsimp only
  split
  · exact hwork
  · refine Ends.bind (hwork.mapEntries fun _ _ _ _ _ => trivial) fun work' hwork' => ?_
    exact (ends_reflectRows_shape hwork' hn hm _).bind fun _ h => h

/-! ### Factors -/

/-- The factors of an `m x n` matrix with `k` columns reduced. -/
structure Factors.HasShape (f : Factors α) (m n k : ℕ) : Prop where
  work : f.work.HasShape n m
  diagonal : f.diagonal.size = k

theorem Factors.HasShape.step {f : Factors α} (hf : f.HasShape m n k) (hm : k < m)
    (hn : k < n) : Ends E (·.HasShape m n (k + 1)) (f.step k) := by
  unfold Factors.step
  refine (ends_reflect_shape hf.work hn hm).bind fun reflected hreflected => ?_
  refine ⟨hreflected, ?_⟩
  rw [Array.size_push, hf.diagonal]

theorem Factors.ends_transposed_shape {a : MatrixView α} (ha : a.Readable) :
    Ends E (·.HasShape a.ncols a.nrows) (Factors.transposed a) := by
  refine DenseMatrix.ends_tabulate_shape fun i j hi hj => ?_
  obtain ⟨x, hx⟩ := ha j hj i hi
  rw [hx]
  exact trivial

/-- Every matrix of any shape has a QR decomposition. -/
theorem ends_ofThreshold_shape {a : MatrixView α} (ha : a.Readable) (threshold : ρ) :
    Ends E (·.factors.HasShape a.nrows a.ncols (min a.nrows a.ncols))
      (ofThreshold threshold a) := by
  unfold ofThreshold
  refine (Factors.ends_transposed_shape ha).bind fun work hwork => ?_
  refine Ends.bind (Ends.foldlM_positions
    (I := fun k (f : Factors α) => f.HasShape a.nrows a.ncols k) (Nat.zero_le _)
    ⟨hwork, rfl⟩ fun k f _ hk hf => ?_) fun f hf => hf
  exact hf.step (hk.trans_le (min_le_left _ _)) (hk.trans_le (min_le_right _ _))

omit [RealScalar ρ] in
/-- Only a readable matrix has one. -/
theorem Factors.ends_transposed_readable {a : MatrixView α} :
    Ends Always (fun _ => a.Readable) (Factors.transposed a) := by
  refine Ends.always.self.imp ?_
  intro work hwork i hi j hj
  obtain ⟨hn, hm, wf, hentry⟩ := DenseMatrix.tabulate_eq_ok_iff.1 hwork.1
  rw [hentry j hj i hi]
  exact wf.exists_entry (hn ▸ hj) (hm ▸ hi)

theorem ends_ofThreshold_readable {a : MatrixView α} (threshold : ρ) :
    Ends Always (fun _ => a.Readable) (ofThreshold threshold a) :=
  Factors.ends_transposed_readable.bind fun _ h => Ends.always.imp fun _ _ => h

/-- The norm that is kept beside the factors is that of the matrix. -/
theorem ends_ofThreshold_norm (a : MatrixView α) (threshold : ρ) :
    Ends Always (fun qr => qr.threshold = threshold ∧
        ∃ work, Factors.transposed a = .ok work ∧ qr.norm = work.frobeniusNorm)
      (ofThreshold threshold a) := by
  unfold ofThreshold
  refine Ends.always.self.bind ?_
  rintro work ⟨hwork, -⟩
  exact Ends.always.bind fun factors _ => ⟨rfl, work, hwork, rfl⟩

/-! ### Reading the factors -/

section Reading

omit [RealScalar ρ]

variable {f : Factors α}

theorem Factors.HasShape.applyReflection (hf : f.HasShape m n k) (hkm : k ≤ m) (hkn : k ≤ n)
    {q : DenseMatrix α} (hq : q.HasShape m m) {minor : ℕ} (hminor : minor < k) :
    Ends E (·.HasShape m m) (f.applyReflection q minor) := by
  have hnrows : f.nrows = m := hf.work.ncols
  have hn : minor < n := hminor.trans_le hkn
  unfold Factors.applyReflection
  rw [hnrows, hq.nrows]
  refine (hf.work.failsOnly_entry hn (hminor.trans_le hkm)).bind fun head _ => ?_
  dsimp only
  split
  · exact hq
  refine (Storage.failsOnly_read (hf.diagonal ▸ hminor)).bind fun d _ => ?_
  refine Ends.bind (Storage.ends_collect_size fun row hrow => ?_) fun factors hsize => ?_
  · by_cases hlater : minor ≤ row
    · rw [if_pos hlater]
      refine Ends.bind (FailsOnly.foldPositions fun i sum _ hi => ?_) fun _ _ => trivial
      refine (hq.failsOnly_entry hrow hi).bind fun _ _ => ?_
      exact (hf.work.failsOnly_entry hn hi).bind fun _ _ => trivial
    · rw [if_neg hlater]
      exact trivial
  · refine hq.mapEntries fun i j x hi hj => ?_
    by_cases hrest : minor ≤ i ∧ minor ≤ j
    · rw [if_pos hrest]
      refine (Storage.failsOnly_read (hsize ▸ hi)).bind fun _ _ => ?_
      exact (hf.work.failsOnly_entry hn hj).bind fun _ _ => trivial
    · rw [if_neg hrest]
      exact trivial

theorem Factors.HasShape.adjointQ (hf : f.HasShape m n k) (hkm : k ≤ m) (hkn : k ≤ n) :
    Ends E (·.HasShape m m) f.adjointQ := by
  have hnrows : f.nrows = m := hf.work.ncols
  unfold Factors.adjointQ
  rw [hnrows, hf.diagonal]
  refine (DenseMatrix.ends_identity_shape m).bind fun q hq => ?_
  refine Ends.foldlM_mem hq fun minor hminor q hq => ?_
  exact hf.applyReflection hkm hkn hq (mem_positions.1 (List.mem_reverse.1 hminor)).2

theorem Factors.HasShape.upper (hf : f.HasShape m n (min m n)) :
    Ends E (·.HasShape m n) f.upper := by
  have hnrows : f.nrows = m := hf.work.ncols
  have hncols : f.ncols = n := hf.work.nrows
  unfold Factors.upper
  rw [hnrows, hncols]
  refine DenseMatrix.ends_tabulate_shape fun i j hi hj => ?_
  by_cases hdiag : i = j
  · subst hdiag
    rw [if_pos rfl]
    exact Storage.failsOnly_read (hf.diagonal ▸ lt_min hi hj)
  · rw [if_neg hdiag]
    by_cases habove : i < j
    · rw [if_pos habove]
      exact hf.work.failsOnly_entry hj hi
    · rw [if_neg habove]
      exact trivial

theorem Factors.HasShape.vectors (hf : f.HasShape m n (min m n)) :
    Ends E (·.HasShape m n) f.vectors := by
  have hnrows : f.nrows = m := hf.work.ncols
  have hncols : f.ncols = n := hf.work.nrows
  unfold Factors.vectors
  rw [hnrows, hncols]
  refine DenseMatrix.ends_tabulate_shape fun i j hi hj => ?_
  by_cases hbelow : j ≤ i
  · rw [if_pos hbelow]
    refine (hf.work.failsOnly_entry hj hi).bind fun _ _ => ?_
    refine (Storage.failsOnly_read (hf.diagonal ▸ lt_min ?_ hj)).bind fun _ _ => trivial
    exact hbelow.trans_lt hi
  · rw [if_neg hbelow]
    exact trivial

end Reading

/-! ### Solving -/

section Solving

omit [RealScalar ρ]

variable {c : ℕ} {f : Factors α} {y : DenseMatrix α}

theorem ends_reflectColumns_shape (hf : f.HasShape m n k) (hkm : k ≤ m) (hkn : k ≤ n)
    (hy : y.HasShape m c) {minor : ℕ} (hminor : minor < k) :
    Ends E (·.HasShape m c) (reflectColumns f y minor) := by
  have hnrows : f.nrows = m := hf.work.ncols
  have hn : minor < n := hminor.trans_le hkn
  unfold reflectColumns
  rw [hnrows, hy.ncols]
  refine (hf.work.failsOnly_entry hn (hminor.trans_le hkm)).bind fun head _ => ?_
  refine (Storage.failsOnly_read (hf.diagonal ▸ hminor)).bind fun d _ => ?_
  refine Ends.bind (Storage.ends_collect_size fun j hj => ?_) fun sums hsize => ?_
  · refine Ends.bind (FailsOnly.foldPositions fun i sum _ hi => ?_) fun _ _ => trivial
    refine (hf.work.failsOnly_entry hn hi).bind fun _ _ => ?_
    exact (hy.failsOnly_entry hi hj).bind fun _ _ => trivial
  · refine hy.mapEntries fun i j x hi hj => ?_
    by_cases hrest : minor ≤ i
    · rw [if_pos hrest]
      refine (Storage.failsOnly_read (hsize ▸ hj)).bind fun _ _ => ?_
      exact (hf.work.failsOnly_entry hn hi).bind fun _ _ => trivial
    · rw [if_neg hrest]
      exact trivial

theorem ends_divideRow_shape (hf : f.HasShape m n k) (hy : y.HasShape m c) {row : ℕ}
    (hrow : row < k) : Ends E (·.HasShape m c) (divideRow f y row) :=
  (Storage.failsOnly_read (hf.diagonal ▸ hrow)).bind fun _ _ =>
    hy.mapEntries fun _ _ _ _ _ => trivial

theorem ends_eliminateAbove_shape (hf : f.HasShape m n k) (hkm : k ≤ m) (hkn : k ≤ n)
    (hy : y.HasShape m c) {row : ℕ} (hrow : row < k) :
    Ends E (·.HasShape m c) (eliminateAbove f y row) := by
  refine hy.mapEntries fun i j x hi hj => ?_
  by_cases habove : i < row
  · rw [if_pos habove]
    refine (hy.failsOnly_entry (hrow.trans_le hkm) hj).bind fun _ _ => ?_
    exact (hf.work.failsOnly_entry (hrow.trans_le hkn) hi).bind fun _ _ => trivial
  · rw [if_neg habove]
    exact trivial

theorem ends_backSubstitute_shape (hf : f.HasShape m n k) (hkm : k ≤ m) (hkn : k ≤ n)
    (hy : y.HasShape m c) : Ends E (·.HasShape m c) (backSubstitute f y) := by
  unfold backSubstitute
  rw [hf.diagonal]
  refine Ends.foldlM_mem hy fun row hrow y hy => ?_
  have hrow : row < k := (mem_positions.1 (List.mem_reverse.1 hrow)).2
  refine (ends_divideRow_shape hf hy hrow).bind fun y hy => ?_
  exact ends_eliminateAbove_shape hf hkm hkn hy hrow

/-- A matrix that does not count as rank deficient is solved for every right-hand side of
the right height. -/
theorem Solver.ends_solveMatrix_shape {s : Solver α} (hf : s.factors.HasShape m n k)
    (hkm : k ≤ m) (hkn : k ≤ n) (hsingular : s.singular = false) {b : MatrixView α}
    (hb : b.Readable) (hrows : b.nrows = m) :
    Ends E (·.HasShape n b.ncols) (s.solveMatrix b) := by
  have hnrows : s.factors.nrows = m := hf.work.ncols
  have hncols : s.factors.ncols = n := hf.work.nrows
  rw [s.solveMatrix_eq b, hnrows, hncols, if_pos hrows, hsingular, if_neg Bool.false_ne_true,
    hf.diagonal]
  refine (DenseMatrix.ends_ofView_shape hb).bind fun y hy => ?_
  rw [hrows] at hy
  refine Ends.bind (P := (·.HasShape m b.ncols))
    (Ends.foldlM_mem hy fun minor hminor y hy => ?_) fun y hy => ?_
  · exact ends_reflectColumns_shape hf hkm hkn hy (mem_positions.1 hminor).2
  · refine (ends_backSubstitute_shape hf hkm hkn hy).bind fun x hx => ?_
    refine DenseMatrix.ends_tabulate_shape fun i j _ hj => ?_
    by_cases hreduced : i < k
    · rw [if_pos hreduced]
      exact hx.failsOnly_entry (hreduced.trans_le hkm) hj
    · rw [if_neg hreduced]
      exact trivial

end Solving

end QR

/-! ### Rank-revealing QR -/

namespace RankRevealingQR

variable {ρ : Type} [RealScalar ρ] {E : Failure → Prop} {m n k : ℕ}

/-- A row that is left, whatever the comparisons answer. -/
theorem ends_largestRest_range {work : DenseMatrix ρ} (hwork : work.HasShape n m) {minor : ℕ}
    (hminor : minor < n) :
    Ends E (fun best => minor ≤ best ∧ best < n) (largestRest work minor) := by
  unfold largestRest
  rw [hwork.nrows]
  refine Ends.bind (Ends.foldPositions
    (I := fun _ (lead : ℕ × ρ) => minor ≤ lead.1 ∧ lead.1 < n) hminor.le ⟨le_rfl, hminor⟩ ?_)
    fun lead hlead => hlead
  intro row lead hle hrow hlead
  unfold restSquares
  rw [hwork.ncols]
  refine Ends.bind (FailsOnly.foldPositions fun i sum _ hi => ?_) fun squares _ => ?_
  · exact (hwork.failsOnly_entry hrow hi).bind fun _ _ => trivial
  · by_cases hlarger : lead.2 < squares
    · simp only [hlarger, if_true]
      exact ⟨hle, hrow⟩
    · simp only [hlarger, if_false]
      exact hlead

/-- The factors of an `m x n` matrix with `k` columns reduced, and its columns in some
order. -/
structure Reduction.HasShape (s : Reduction ρ) (m n k : ℕ) : Prop where
  factors : s.factors.HasShape m n k
  order : ∃ σ : Equiv.Perm (Fin n), Lists s.order σ

omit [RealScalar ρ] in
theorem Reduction.HasShape.select {s : Reduction ρ} (hs : s.HasShape m n k) {minor best : ℕ}
    (hminor : minor < n) (hbest : best < n) :
    Ends E (·.HasShape m n k) (s.select minor best) := by
  unfold Reduction.select
  by_cases hsame : best = minor
  · rw [if_pos hsame]
    exact hs
  rw [if_neg hsame]
  obtain ⟨σ, hσ⟩ := hs.order
  refine (hs.factors.work.swapRows hminor hbest).bind fun work hwork => ?_
  refine (hσ.exchange ⟨minor, hminor⟩ ⟨best, hbest⟩).bind fun order horder => ?_
  exact ⟨⟨hwork, hs.factors.diagonal⟩, _, horder⟩

theorem Reduction.HasShape.step {s : Reduction ρ} (hs : s.HasShape m n k) (hm : k < m)
    (hn : k < n) : Ends E (·.HasShape m n (k + 1)) (s.step k) := by
  unfold Reduction.step
  refine (ends_largestRest_range hs.factors.work hn).bind fun best hbest => ?_
  refine (hs.select hn hbest.2).bind fun s' hs' => ?_
  exact (hs'.factors.step hm hn).bind fun f hf => ⟨hf, hs'.order⟩

/-- Every matrix of any shape has a rank-revealing QR decomposition. -/
theorem ends_ofThreshold_shape {a : MatrixView ρ} (ha : a.Readable) (threshold : ρ) :
    Ends E (fun qr => qr.factors.HasShape a.nrows a.ncols (min a.nrows a.ncols) ∧
        ∃ σ : Equiv.Perm (Fin a.ncols), Lists qr.permutation σ)
      (ofThreshold threshold a) := by
  unfold ofThreshold
  refine (QR.Factors.ends_transposed_shape ha).bind fun work hwork => ?_
  refine Ends.bind (Ends.foldlM_positions
    (I := fun k (s : Reduction ρ) => s.HasShape a.nrows a.ncols k) (Nat.zero_le _)
    ⟨⟨hwork, rfl⟩, 1, Lists.range _⟩ fun k s _ hk hs => ?_) fun s hs => ⟨hs.factors, hs.order⟩
  exact hs.step (hk.trans_le (min_le_left _ _)) (hk.trans_le (min_le_right _ _))

theorem ends_ofThreshold_readable {a : MatrixView ρ} (threshold : ρ) :
    Ends Always (fun _ => a.Readable) (ofThreshold threshold a) :=
  QR.Factors.ends_transposed_readable.bind fun _ h => Ends.always.imp fun _ _ => h

/-- The norm that is kept beside the factors is that of the matrix. -/
theorem ends_ofThreshold_norm (a : MatrixView ρ) (threshold : ρ) :
    Ends Always (fun qr => qr.threshold = threshold ∧
        ∃ work, QR.Factors.transposed a = .ok work ∧ qr.norm = work.frobeniusNorm)
      (ofThreshold threshold a) := by
  unfold ofThreshold
  refine Ends.always.self.bind ?_
  rintro work ⟨hwork, -⟩
  exact Ends.always.bind fun reduction _ => ⟨rfl, work, hwork, rfl⟩

/-! ### Permutation and rank -/

theorem ends_p_shape {qr : RankRevealingQR ρ} {σ : Equiv.Perm (Fin n)}
    (hσ : Lists qr.permutation σ) : Ends E (·.HasShape n n) qr.p := by
  unfold p
  rw [hσ.size]
  refine DenseMatrix.ends_tabulate_shape fun i j _ hj => ?_
  have hread : Storage.read qr.permutation j = .ok (σ ⟨j, hj⟩ : ℕ) := hσ.read ⟨j, hj⟩
  rw [hread]
  exact trivial

/-- Every trailing block that is looked at is inside the factor. -/
theorem failsOnly_rankFrom {r : DenseMatrix ρ} (hr : r.HasShape m n) (drop norm : ρ) (rank : ℕ)
    (lastNorm : ρ) : FailsOnly E (rankFrom r drop norm rank lastNorm) := by
  induction rank, lastNorm using rankFrom.induct r with
  | case1 rank lastNorm hlt ih =>
      rw [rankFrom, dif_pos hlt]
      rw [hr.nrows, hr.ncols] at hlt ⊢
      obtain ⟨hm, hn⟩ := lt_min_iff.1 hlt
      refine (hr.block (by omega) (by omega) (by omega) (by omega)).bind fun block _ => ?_
      dsimp only
      split
      · exact trivial
      · exact ih block
  | case2 rank lastNorm hend =>
      rw [rankFrom, dif_neg hend]
      exact trivial

theorem failsOnly_rank {qr : RankRevealingQR ρ} (hf : qr.factors.HasShape m n (min m n))
    (drop : ρ) : FailsOnly E (qr.rank drop) :=
  hf.upper.bind fun _ hr => failsOnly_rankFrom hr _ _ _ _

/-! ### Solving -/

theorem ends_scatterRows_shape {permutation : Array ℕ} {σ : Equiv.Perm (Fin n)}
    (hσ : Lists permutation σ) {c : ℕ} {y : DenseMatrix ρ} (hy : y.HasShape n c) :
    Ends E (·.HasShape n c) (scatterRows permutation y) := by
  unfold scatterRows
  rw [hσ.size, hy.nrows, hy.ncols]
  refine Ends.foldlM_mem (DenseMatrix.hasShape_zeros n c) fun i hi x hx => ?_
  have hi : i < n := (mem_positions.1 hi).2
  have hread : Storage.read permutation i = .ok (σ ⟨i, hi⟩ : ℕ) := hσ.read ⟨i, hi⟩
  rw [hread, Ends.ok_bind_iff]
  refine (hy.rowSlice hi).bind fun values hvalues => ?_
  exact hx.writeBlock hvalues (σ ⟨i, hi⟩).isLt (Nat.zero_add c).le

/-- A matrix that does not count as rank deficient is solved for every right-hand side of
the right height. -/
theorem Solver.ends_solveMatrix_shape {s : Solver ρ} (hf : s.inner.factors.HasShape m n k)
    (hkm : k ≤ m) (hkn : k ≤ n) {σ : Equiv.Perm (Fin n)} (hσ : Lists s.permutation σ)
    (hsingular : s.inner.singular = false) {b : MatrixView ρ} (hb : b.Readable)
    (hrows : b.nrows = m) : Ends E (·.HasShape n b.ncols) (s.solveMatrix b) :=
  (s.inner.ends_solveMatrix_shape hf hkm hkn hsingular hb hrows).bind fun _ hx =>
    ends_scatterRows_shape hσ hx

end RankRevealingQR

end DenseFactor
