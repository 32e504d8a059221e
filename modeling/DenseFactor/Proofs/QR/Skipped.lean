import Mathlib
import DenseFactor.Proofs.QR.Head
import DenseFactor.Proofs.QR.Shape
import DenseFactor.Proofs.Scalar.Division

/-!
# DenseFactor.Proofs.QR.Skipped

Which **reflections are skipped** in rounded arithmetic, by the step that would make them and by
the unitary factor that applies them.

Design points:

* The step tests the new diagonal entry, the unitary factor the stored head. What a step leaves
  of both is `Factors.Recorded`, for every element type and whatever the arithmetic answers;
  later steps and exchanges touch later rows only, so each record stays.
* The two tests differ where the squares of a row are all rounded to zero and its first entry is
  not: the step finds a length of zero and leaves the row as it is, entry included
  (`Factors.LosesHead`). In real rows nowhere else, since the head of a reflection that is made
  is not small; of a complex row the product of entry and head may be rounded to zero as well.
* That nothing is divided by zero is said with another division that agrees on the other
  divisors: the unitary factor is the same.
-/

namespace DenseFactor

theorem Storage.read_push_of_lt {α : Type} {xs : Array α} {x : α} {i : ℕ} (h : i < xs.size) :
    read (xs.push x) i = read xs i := by
  rw [read_of_lt h, read, Array.getElem?_push_lt h]

theorem Storage.read_push_size {α : Type} {xs : Array α} {x : α} {i : ℕ} (h : xs.size = i) :
    read (xs.push x) i = .ok x := by
  rw [read, ← h, Array.getElem?_push_size]

namespace QR

open BinaryScalar

/-! ### What a step records -/

section Recorded

variable {α ρ : Type} [RealScalar ρ] [EuclideanScalar α ρ] {E : Failure → Prop} {m n k : ℕ}

/-- What the step at `minor` leaves in its row and on the diagonal, where the row began with
`x` and had this length. -/
structure Factors.Recorded (f : Factors α) (minor : ℕ) (x : α) (length : ρ) : Prop where
  root : ∃ squares, length = RealScalar.sqrt squares
  diagonal : Storage.read f.diagonal minor = .ok (diagonalEntry x length)
  made (h : ¬ Scalar.isZero (diagonalEntry x length) = true) :
    f.work.entry minor minor = .ok (x - diagonalEntry x length)
  skipped (h : Scalar.isZero (diagonalEntry x length) = true) :
    f.work.entry minor minor = .ok x ∧ restLength f.work minor minor = .ok length

/-- The factors of an `m x n` matrix after `k` steps, each of which left its record. -/
structure Factors.Records (f : Factors α) (m n k : ℕ) : Prop extends f.HasShape m n k where
  recorded : ∀ minor < k, ∃ (x : α) (length : ρ), f.Recorded minor x length

theorem restLength_root (work : DenseMatrix α) (row start : ℕ) :
    Ends Always (fun length : ρ => ∃ squares, length = RealScalar.sqrt squares)
      (restLength work row start) :=
  Ends.always.bind fun squares _ => ⟨squares, rfl⟩

/-- A length depends on its row alone. -/
theorem restLength_congr {work work' : DenseMatrix α} {row start : ℕ}
    (hcols : work'.ncols = work.ncols)
    (hrow : ∀ j < work.ncols, work'.entry row j = work.entry row j) :
    (restLength work' row start : Except Failure ρ) = restLength work row start := by
  unfold restLength
  rw [hcols]
  refine congrArg (· >>= _) (foldlM_congr (fun sum j hj => ?_) 0)
  rw [hrow j (mem_positions.1 hj).2]

/-- A record stays where its row and its place on the diagonal stay. -/
theorem Factors.Recorded.kept {f f' : Factors α} {minor : ℕ} {x : α} {length : ρ}
    (h : f.Recorded minor x length) (hminor : minor < f.work.ncols)
    (hcols : f'.work.ncols = f.work.ncols)
    (hrow : ∀ j < f.work.ncols, f'.work.entry minor j = f.work.entry minor j)
    (hdiagonal : Storage.read f'.diagonal minor = Storage.read f.diagonal minor) :
    f'.Recorded minor x length where
  root := h.root
  diagonal := hdiagonal.trans h.diagonal
  made hentry := (hrow minor hminor).trans (h.made hentry)
  skipped hentry :=
    ⟨(hrow minor hminor).trans (h.skipped hentry).1,
      (restLength_congr hcols hrow).trans (h.skipped hentry).2⟩

/-! ### A step -/

omit [RealScalar ρ] in
/-- A reflection changes later rows only. -/
theorem ends_reflectRows_kept {work : DenseMatrix α} {W : Matrix (Fin n) (Fin m) α}
    (hW : work.Stores W) (hn : k < n) (hm : k < m) (entry : α) :
    Ends E (fun work' => ∃ W' : Matrix (Fin n) (Fin m) α, work'.Stores W' ∧
        ∀ (i : Fin n) (j : Fin m), (i : ℕ) ≤ k → W' i j = W i j)
      (reflectRows work k entry) := by
  unfold reflectRows
  refine (hW.hasShape.failsOnly_entry hn hm).bind fun head _ => ?_
  refine Ends.bind (Storage.ends_collect_size fun row hrow => ?_) fun factors hsize => ?_
  · by_cases hlater : k < row
    · rw [if_pos hlater]
      refine Ends.bind (failsOnly_alongVector hW.hasShape hn ?_) fun _ _ => trivial
      exact hW.nrows ▸ hrow
    · rw [if_neg hlater]
      exact trivial
  refine Ends.mapEntries (P := fun (i : Fin n) j y => (i : ℕ) ≤ k → y = W i j) hW fun i j => ?_
  by_cases hrest : k < (i : ℕ) ∧ k ≤ j
  · rw [if_pos hrest]
    refine (Storage.failsOnly_read ?_).bind fun _ _ => ?_
    · rw [hsize, hW.nrows]
      exact i.isLt
    · exact (hW.hasShape.failsOnly_entry hn j.isLt).bind fun _ _ hle => absurd hle hrest.1.not_ge
  · rw [if_neg hrest]
    exact fun _ => rfl

/-- What a reflection leaves in its row and in the rows before, and the new diagonal entry. -/
theorem ends_reflect_recorded {work : DenseMatrix α} {W : Matrix (Fin n) (Fin m) α}
    (hW : work.Stores W) (hn : k < n) (hm : k < m) :
    Ends E (fun reflected => ∃ (W' : Matrix (Fin n) (Fin m) α) (length : ρ),
        reflected.1.Stores W' ∧ (∀ (i : Fin n) (j : Fin m), (i : ℕ) < k → W' i j = W i j) ∧
        restLength work k k = .ok length ∧
        reflected.2 = diagonalEntry (W ⟨k, hn⟩ ⟨k, hm⟩) length ∧
        (¬ Scalar.isZero reflected.2 = true →
          W' ⟨k, hn⟩ ⟨k, hm⟩ = W ⟨k, hn⟩ ⟨k, hm⟩ - reflected.2) ∧
        (Scalar.isZero reflected.2 = true → reflected.1 = work))
      (reflect work k) := by
  have hentry : work.entry k k = .ok (W ⟨k, hn⟩ ⟨k, hm⟩) := hW.entry ⟨k, hn⟩ ⟨k, hm⟩
  unfold reflect
  refine (failsOnly_restLength hW.hasShape hn k).self.bind ?_
  rintro length ⟨hlength, -⟩
  rw [hentry, Ends.ok_bind_iff]
  dsimp only
  split
  · rename_i hzero
    exact ⟨W, length, hW, fun _ _ _ => rfl, hlength, rfl, fun hne => absurd hzero hne, fun _ => rfl⟩
  · rename_i hnonzero
    refine (Ends.mapEntries_of_ok hW (N := Matrix.of fun i j =>
      if (i : ℕ) = k ∧ (j : ℕ) = k then
        W ⟨k, hn⟩ ⟨k, hm⟩ - diagonalEntry (W ⟨k, hn⟩ ⟨k, hm⟩) length
      else W i j) fun i j => rfl).bind fun work₁ hwork₁ => ?_
    refine (ends_reflectRows_kept hwork₁ hn hm _).bind ?_
    rintro work₂ ⟨W', hW', hkept⟩
    refine ⟨W', length, hW', fun i j hi => ?_, hlength, rfl, fun _ => ?_,
      fun hzero => absurd hzero hnonzero⟩
    · rw [hkept i j hi.le, Matrix.of_apply, if_neg fun h => hi.ne h.1]
    · rw [hkept _ _ le_rfl, Matrix.of_apply, if_pos ⟨rfl, rfl⟩]

theorem Factors.Records.step {f : Factors α} (h : f.Records m n k) (hm : k < m) (hn : k < n) :
    Ends E (·.Records m n (k + 1)) (f.step k) := by
  obtain ⟨W, hW⟩ := h.work.exists_stores
  unfold Factors.step
  refine (ends_reflect_recorded hW hn hm).bind ?_
  rintro ⟨work, entry⟩ ⟨W', length, hW', hkept, hlength, rfl, hmade, hskipped⟩
  have hcols : work.ncols = f.work.ncols := hW'.ncols.trans hW.ncols.symm
  refine ⟨⟨hW'.hasShape, by simp [h.diagonal]⟩, fun minor hminor => ?_⟩
  rcases Nat.lt_succ_iff_lt_or_eq.1 hminor with hlt | rfl
  · -- a finished row
    obtain ⟨x, length', hrecorded⟩ := h.recorded minor hlt
    refine ⟨x, length', hrecorded.kept (hW.ncols ▸ hlt.trans hm) hcols (fun j hj => ?_) ?_⟩
    · have hj : j < m := hW.ncols ▸ hj
      have hn : minor < n := hlt.trans hn
      rw [hW'.entry ⟨minor, hn⟩ ⟨j, hj⟩, hW.entry ⟨minor, hn⟩ ⟨j, hj⟩, hkept _ _ hlt]
    · exact Storage.read_push_of_lt (h.diagonal ▸ hlt)
  · -- the row of this step
    refine ⟨W ⟨minor, hn⟩ ⟨minor, hm⟩, length, (restLength_root _ _ _).of_ok hlength, ?_,
      fun hentry => ?_, fun hentry => ?_⟩
    · exact Storage.read_push_size h.diagonal
    · exact (hW'.entry ⟨minor, hn⟩ ⟨minor, hm⟩).trans (congrArg _ (hmade hentry))
    · obtain rfl := hskipped hentry
      exact ⟨hW.entry ⟨minor, hn⟩ ⟨minor, hm⟩, hlength⟩

/-! ### Decompositions -/

/-- The factors of every matrix record each of their steps. -/
theorem ends_ofThreshold_records {a : MatrixView α} (ha : a.Readable) (threshold : ρ) :
    Ends E (·.factors.Records a.nrows a.ncols (min a.nrows a.ncols))
      (ofThreshold threshold a) := by
  unfold ofThreshold
  refine (Factors.ends_transposed_shape ha).bind fun work hwork => ?_
  refine Ends.bind (Ends.foldlM_positions
    (I := fun k (f : Factors α) => f.Records a.nrows a.ncols k) (Nat.zero_le _)
    ⟨⟨hwork, rfl⟩, fun minor hminor => absurd hminor (Nat.not_lt_zero _)⟩
    fun k f _ hk hf => ?_) fun f hf => hf
  exact hf.step (hk.trans_le (min_le_left _ _)) (hk.trans_le (min_le_right _ _))

end Recorded

end QR

/-! ### With pivoting -/

namespace RankRevealingQR

open QR (Factors)

variable {ρ : Type} [RealScalar ρ] {E : Failure → Prop} {m n k : ℕ}

/-- The factors of a reduction record its steps. -/
structure Reduction.Records (s : Reduction ρ) (m n k : ℕ) : Prop extends s.HasShape m n k where
  records : s.factors.Records m n k

/-- Moving a row that is left into place keeps the records of the rows before. -/
theorem Reduction.Records.select {s : Reduction ρ} (h : s.Records m n k) (hm : k ≤ m) {best : ℕ}
    (hk : k < n) (hle : k ≤ best) (hbest : best < n) :
    Ends E (·.Records m n k) (s.select k best) := by
  unfold Reduction.select
  by_cases hsame : best = k
  · rw [if_pos hsame]
    exact h
  rw [if_neg hsame]
  obtain ⟨W, hW⟩ := h.records.work.exists_stores
  obtain ⟨σ, hσ⟩ := h.order
  refine (hW.swapRows ⟨k, hk⟩ ⟨best, hbest⟩).of_never.bind fun work hwork => ?_
  refine (hσ.exchange ⟨k, hk⟩ ⟨best, hbest⟩).bind fun order horder => ?_
  have hshape : Factors.HasShape { s.factors with work } m n k :=
    ⟨hwork.hasShape, h.records.diagonal⟩
  refine ⟨⟨hshape, _, horder⟩, hshape, fun minor hminor => ?_⟩
  obtain ⟨x, length, hrecorded⟩ := h.records.recorded minor hminor
  refine ⟨x, length, hrecorded.kept ?_ (hwork.ncols.trans hW.ncols.symm) (fun j hj => ?_) rfl⟩
  · exact hW.ncols ▸ hminor.trans_le hm
  · have hrow : Equiv.swap (⟨k, hk⟩ : Fin n) ⟨best, hbest⟩ ⟨minor, hminor.trans hk⟩ =
        ⟨minor, hminor.trans hk⟩ :=
      Equiv.swap_apply_of_ne_of_ne (by simp; omega) (by simp; omega)
    have hentry := hwork.entry ⟨minor, hminor.trans hk⟩ ⟨j, hW.ncols ▸ hj⟩
    rw [Matrix.submatrix_apply, hrow, ← hW.entry] at hentry
    exact hentry

theorem Reduction.Records.step {s : Reduction ρ} (h : s.Records m n k) (hm : k < m)
    (hn : k < n) : Ends E (·.Records m n (k + 1)) (s.step k) := by
  unfold Reduction.step
  refine (ends_largestRest_range h.factors.work hn).bind fun best hbest => ?_
  refine (h.select hm.le hn hbest.1 hbest.2).bind fun s' hs' => ?_
  refine (hs'.records.step hm hn).bind fun f hf => ⟨⟨hf.toHasShape, hs'.order⟩, hf⟩

/-- The factors of every matrix record each of their steps. -/
theorem ends_ofThreshold_records {a : MatrixView ρ} (ha : a.Readable) (threshold : ρ) :
    Ends E (·.factors.Records a.nrows a.ncols (min a.nrows a.ncols))
      (ofThreshold threshold a) := by
  unfold ofThreshold
  refine (Factors.ends_transposed_shape ha).bind fun work hwork => ?_
  have hshape : Factors.HasShape { work, diagonal := (#[] : Array ρ) } a.nrows a.ncols 0 :=
    ⟨hwork, rfl⟩
  refine Ends.bind (Ends.foldlM_positions
    (I := fun k (s : Reduction ρ) => s.Records a.nrows a.ncols k) (Nat.zero_le _)
    ⟨⟨hshape, 1, Lists.range _⟩, hshape, fun minor hminor => absurd hminor (Nat.not_lt_zero _)⟩
    fun k s _ hk hs => ?_) fun s hs => hs.records
  exact hs.step (hk.trans_le (min_le_left _ _)) (hk.trans_le (min_le_right _ _))

end RankRevealingQR

namespace QR

open BinaryScalar

/-! ### Heads and diagonal entries -/

section Heads

variable {α ρ : Type} [RealScalar ρ] [EuclideanScalar α ρ]

/-- The diagonal entry and the head that were left at `minor`: the step was skipped if the first
is zero, and the reflection is not applied if the second is. -/
structure Factors.Leaves (f : Factors α) (minor : ℕ) (d head : α) : Prop where
  read_diagonal : Storage.read f.diagonal minor = .ok d
  read_head : f.work.entry minor minor = .ok head

/-- What is left of a step: the row is as it was, or it has the new head. -/
theorem Factors.Recorded.leaves {f : Factors α} {minor : ℕ} {x : α} {length : ρ}
    (h : f.Recorded minor x length) :
    (Scalar.isZero (diagonalEntry x length) = true ∧ f.Leaves minor (diagonalEntry x length) x) ∨
      (¬ Scalar.isZero (diagonalEntry x length) = true ∧
        f.Leaves minor (diagonalEntry x length) (x - diagonalEntry x length)) := by
  by_cases hentry : Scalar.isZero (diagonalEntry x length) = true
  · exact .inl ⟨hentry, h.diagonal, (h.skipped hentry).1⟩
  · exact .inr ⟨hentry, h.diagonal, h.made hentry⟩

theorem Factors.Recorded.length_not_neg [BinaryScalar ρ] [RootScalar ρ] {f : Factors α}
    {minor : ℕ} {x : α} {length : ρ} (h : f.Recorded minor x length) : ¬ length < 0 := by
  obtain ⟨squares, rfl⟩ := h.root
  exact sqrt_not_neg squares

/-- A zero head is left by a skipped step only. -/
theorem Factors.Recorded.isZero_diagonal [BinaryScalar ρ] [RootScalar ρ] [HeadedScalar α]
    {f : Factors α} {minor : ℕ} {x : α} {length : ρ} (h : f.Recorded minor x length) :
    ∃ d head, f.Leaves minor d head ∧ (Scalar.isZero head = true → Scalar.isZero d = true) := by
  rcases h.leaves with ⟨hentry, hleaves⟩ | ⟨-, hleaves⟩
  · exact ⟨_, _, hleaves, fun _ => hentry⟩
  · exact ⟨_, _, hleaves, HeadedScalar.isZero_entry h.length_not_neg⟩

/-- The unitary factor divides by zero where it applies the reflection at `minor`. -/
def Factors.DividesByZero (f : Factors α) (minor : ℕ) : Prop :=
  ∃ d head, f.Leaves minor d head ∧ ¬ Scalar.isZero head = true ∧
    Scalar.isZero (EuclideanScalar.conj d * head) = true

omit [RealScalar ρ] in
theorem Factors.Leaves.dividesByZero_iff {f : Factors α} {minor : ℕ} {d head : α}
    (h : f.Leaves minor d head) : f.DividesByZero minor ↔ ¬ Scalar.isZero head = true ∧
      Scalar.isZero (EuclideanScalar.conj d * head) = true := by
  refine ⟨?_, fun hzero => ⟨d, head, h, hzero⟩⟩
  rintro ⟨d', head', hleaves, hzero⟩
  obtain rfl : d = d' := Except.ok.inj (h.read_diagonal.symm.trans hleaves.read_diagonal)
  obtain rfl : head = head' := Except.ok.inj (h.read_head.symm.trans hleaves.read_head)
  exact hzero

/-- The conjugate transpose of the unitary factor, formed with another division. -/
def Factors.adjointQWith (div : α → α → α) (f : Factors α) : Except Failure (DenseMatrix α) :=
  @Factors.adjointQ α ρ (EuclideanScalar.withDiv div) f

omit [RealScalar ρ] in
theorem Factors.Leaves.applyReflection_withDiv {f : Factors α} {minor : ℕ} {d head : α}
    (h : f.Leaves minor d head) (hnonzero : ¬ f.DividesByZero minor) {div : α → α → α}
    (hdiv : ∀ x y : α, ¬ Scalar.isZero y = true → div x y = x / y) (q : DenseMatrix α) :
    @Factors.applyReflection α ρ (EuclideanScalar.withDiv div) f q minor =
      f.applyReflection q minor := by
  unfold Factors.applyReflection
  rw [h.read_head]
  by_cases hhead : Scalar.isZero head = true
  · exact (if_pos hhead).trans (if_pos hhead).symm
  have hentries (sum : α) : div sum (EuclideanScalar.conj d * head) =
      sum / (EuclideanScalar.conj d * head) :=
    hdiv sum _ fun hzero => hnonzero (h.dividesByZero_iff.2 ⟨hhead, hzero⟩)
  refine (if_neg hhead).trans ?_
  refine Eq.trans ?_ (if_neg hhead).symm
  rw [h.read_diagonal]
  show (Storage.collect q.nrows _ >>= _) = (Storage.collect q.nrows _ >>= _)
  congr 1
  refine Storage.collect_congr fun row _ => ?_
  by_cases hlater : minor ≤ row
  · rw [if_pos hlater, if_pos hlater]
    exact bind_congr fun sum => congrArg Except.ok (hentries sum)
  · rw [if_neg hlater, if_neg hlater]

/-- The factors of a matrix whose unitary factor leaves out skipped reflections only. -/
structure Factors.LeavesOutSkipped (f : Factors α) (size : ℕ) : Prop where
  skipped : ∀ minor < size, ∃ d head, f.Leaves minor d head ∧
    (Scalar.isZero head = true → Scalar.isZero d = true)
  /-- Where no product of a diagonal entry and a head is zero, nothing is divided by zero: any
  division that agrees on the other divisors gives the same unitary factor. -/
  withDiv : (∀ minor < size, ¬ f.DividesByZero minor) → ∀ div : α → α → α,
    (∀ x y : α, ¬ Scalar.isZero y = true → div x y = x / y) → f.adjointQWith div = f.adjointQ

theorem Factors.Records.leavesOutSkipped [BinaryScalar ρ] [RootScalar ρ] [HeadedScalar α]
    {f : Factors α} {m n : ℕ} (h : f.Records m n (min m n)) : f.LeavesOutSkipped (min m n) := by
  have hskipped (minor : ℕ) (hminor : minor < min m n) : ∃ d head, f.Leaves minor d head ∧
      (Scalar.isZero head = true → Scalar.isZero d = true) := by
    obtain ⟨x, length, hrecorded⟩ := h.recorded minor hminor
    exact hrecorded.isZero_diagonal
  refine ⟨hskipped, fun hnonzero div hdiv => ?_⟩
  have hstep (q : DenseMatrix α) (minor : ℕ)
      (hminor : minor ∈ (positions 0 f.diagonal.size).reverse) :
      @Factors.applyReflection α ρ (EuclideanScalar.withDiv div) f q minor =
        f.applyReflection q minor := by
    rw [h.diagonal, List.mem_reverse, mem_positions] at hminor
    obtain ⟨d, head, hleaves, -⟩ := hskipped minor hminor.2
    exact hleaves.applyReflection_withDiv (hnonzero minor hminor.2) hdiv q
  exact bind_congr fun identity : DenseMatrix α => foldlM_congr hstep identity

end Heads

/-! ### Real rows -/

section Real

variable {ρ : Type} [RealScalar ρ] [BinaryScalar ρ] [RootScalar ρ] {m n : ℕ}

/-- The length of a row is zero if all squares are rounded to zero, and only then. -/
theorem ends_restLength_isZero {work : DenseMatrix ρ} (hwork : work.HasShape n m) {row : ℕ}
    (hrow : row < n) {start : ℕ} (hstart : start ≤ m) :
    Ends Never (fun length : ρ => Scalar.isZero length = true ↔
        ∀ j, start ≤ j → j < m → ∀ x, work.entry row j = .ok x → Scalar.isZero (x * x) = true)
      (restLength work row start) := by
  unfold restLength
  rw [hwork.ncols]
  refine Ends.bind (Ends.foldPositions (I := fun k (sum : ρ) => ¬ sum < 0 ∧
    (Scalar.isZero sum = true ↔ ∀ j, start ≤ j → j < k → ∀ x, work.entry row j = .ok x →
      Scalar.isZero (x * x) = true)) hstart ?_ fun k sum hk hkm hsum => ?_) fun sum hsum => ?_
  · refine ⟨not_neg_iff.2 place_zero.ge, iff_of_true ?_ fun j hj hj' => absurd hj hj'.not_ge⟩
    exact isZero_iff.2 ⟨_, unpacked_zero⟩
  · refine (hwork.failsOnly_entry hrow hkm).self.bind ?_
    rintro x ⟨hx, -⟩
    refine ⟨add_not_neg hsum.1 (square_not_neg x), ?_⟩
    have hlast : (∀ y, work.entry row k = .ok y → Scalar.isZero (y * y) = true) ↔
        Scalar.isZero (x * x) = true := by
      rw [hx]
      simp
    have hsplit := isZero_add_iff hsum.1 (square_not_neg x)
    rw [hsum.2, ← hlast] at hsplit
    refine hsplit.trans ⟨fun h j hj hlt => ?_, fun h => ⟨fun j hj hlt => ?_, ?_⟩⟩
    · rcases Nat.lt_succ_iff_lt_or_eq.1 hlt with hlt | rfl
      · exact h.1 j hj hlt
      · exact h.2
    · exact h j hj (hlt.trans (Nat.lt_succ_self k))
    · exact h k hk (Nat.lt_succ_self k)
  · rw [Ends.pure_iff, isZero_sqrt]
    exact hsum.2

/-- The squares of the rest of a row are all rounded to zero. -/
def Factors.Vanishes (f : Factors ρ) (minor : ℕ) : Prop :=
  ∀ j, minor ≤ j → j < f.nrows → ∀ x, f.work.entry minor j = .ok x → Scalar.isZero (x * x) = true

/-- The squares of the rest of a row are all rounded to zero, and its first entry is not zero. -/
def Factors.LosesHead (f : Factors ρ) (minor : ℕ) : Prop :=
  f.Vanishes minor ∧ ∃ head, f.work.entry minor minor = .ok head ∧ ¬ Scalar.isZero head = true

variable [WideScalar ρ] {f : Factors ρ} {minor : ℕ} {x length : ρ}

/-- The new diagonal entry is zero if all squares in the row are rounded to zero, and only
then. -/
theorem Factors.Recorded.isZero_diagonal_iff (h : f.Recorded minor x length)
    (hwork : f.work.HasShape n m) (hn : minor < n) (hm : minor < m) :
    Scalar.isZero (diagonalEntry x length) = true ↔ f.Vanishes minor := by
  have hnrows : f.nrows = m := hwork.ncols
  constructor
  · intro hentry
    have hlength := (ends_restLength_isZero hwork hn hm.le).of_ok (h.skipped hentry).2
    unfold Factors.Vanishes
    rw [hnrows]
    exact hlength.1 (isZero_length h.length_not_neg hentry)
  · intro hvanishes
    by_contra hentry
    obtain ⟨squares, hroot⟩ := h.root
    -- the square of the head of a reflection is not rounded away
    have hsquare := hvanishes minor le_rfl (hnrows ▸ hm) _ (h.made hentry)
    exact (not_isZero_head_products hroot hentry).2 hsquare

/-- How the two tests for a skipped reflection compare. -/
structure Factors.TestsAgree (f : Factors ρ) (minor : ℕ) (d head : ρ) : Prop
    extends f.Leaves minor d head where
  /-- A reflection that is left out was not made. -/
  made : Scalar.isZero head = true → Scalar.isZero d = true
  /-- No reflection is made of squares that are all rounded to zero, and of these alone. -/
  vanishes : Scalar.isZero d = true ↔ f.Vanishes minor
  /-- The tests disagree where a head is lost. -/
  agree : (Scalar.isZero head = true ↔ Scalar.isZero d = true) ↔ ¬ f.LosesHead minor
  /-- The sums along the vector are divided by zero where a head is lost. -/
  divisor : f.DividesByZero minor ↔ f.LosesHead minor

theorem Factors.Recorded.testsAgree (h : f.Recorded minor x length)
    (hwork : f.work.HasShape n m) (hn : minor < n) (hm : minor < m) :
    ∃ d head, f.TestsAgree minor d head := by
  obtain ⟨d, head, hleaves, hmade⟩ := h.isZero_diagonal
  obtain rfl : d = diagonalEntry x length :=
    Except.ok.inj (hleaves.read_diagonal.symm.trans h.diagonal)
  have hnrows : f.nrows = m := hwork.ncols
  have hvanishes := h.isZero_diagonal_iff hwork hn hm
  have hloses : f.LosesHead minor ↔
      Scalar.isZero (diagonalEntry x length) = true ∧ ¬ Scalar.isZero head = true := by
    rw [hvanishes, Factors.LosesHead, hleaves.read_head]
    simp
  have hdivisor (hhead : ¬ Scalar.isZero head = true) :
      Scalar.isZero (diagonalEntry x length * head) = true ↔
        Scalar.isZero (diagonalEntry x length) = true := by
    constructor
    · intro hproduct
      by_contra hentry
      obtain ⟨squares, hroot⟩ := h.root
      obtain rfl : head = x - diagonalEntry x length :=
        Except.ok.inj (hleaves.read_head.symm.trans (h.made hentry))
      exact (not_isZero_head_products hroot hentry).1 hproduct
    · intro hentry
      have hsquare := hvanishes.1 hentry minor le_rfl (hnrows ▸ hm) head hleaves.read_head
      exact isZero_mul hentry (isFinite_of_square hsquare)
  refine ⟨_, head, hleaves, hmade, hvanishes, ?_, ?_⟩
  · rw [hloses]
    tauto
  · rw [hloses, hleaves.dividesByZero_iff]
    constructor
    · rintro ⟨hhead, hproduct⟩
      exact ⟨(hdivisor hhead).1 hproduct, hhead⟩
    · rintro ⟨hentry, hhead⟩
      exact ⟨hhead, (hdivisor hhead).2 hentry⟩

/-- The factors of a real matrix whose unitary factor applies the reflections that were made. -/
structure Factors.AppliesMade (f : Factors ρ) (size : ℕ) : Prop where
  tests : ∀ minor < size, ∃ d head, f.TestsAgree minor d head
  /-- Where no head is lost, nothing is divided by zero: any division that agrees on the other
  divisors gives the same unitary factor. -/
  withDiv : (∀ minor < size, ¬ f.LosesHead minor) → ∀ div : ρ → ρ → ρ,
    (∀ x y : ρ, ¬ Scalar.isZero y = true → div x y = x / y) → f.adjointQWith div = f.adjointQ

theorem Factors.Records.appliesMade (h : f.Records m n (min m n)) : f.AppliesMade (min m n) := by
  have htests (minor : ℕ) (hminor : minor < min m n) : ∃ d head, f.TestsAgree minor d head := by
    obtain ⟨hm, hn⟩ := lt_min_iff.1 hminor
    obtain ⟨x, length, hrecorded⟩ := h.recorded minor hminor
    exact hrecorded.testsAgree h.work hn hm
  refine ⟨htests, fun hkept => h.leavesOutSkipped.withDiv fun minor hminor => ?_⟩
  obtain ⟨d, head, hagree⟩ := htests minor hminor
  exact hagree.divisor.not.2 (hkept minor hminor)

end Real

/-- **The unitary factor leaves out skipped reflections only.** Whatever matrix is decomposed, a
head of zero stands for a step that was skipped, also over complex numbers, and nothing is divided
by zero but where a product of a diagonal entry and a head that is not zero is zero. Over a real
type a step is skipped if the squares of its row are all rounded to zero. If then its first entry
is not zero, and only then, the unitary factor does not leave it out, and divides by zero. With
column pivoting the same holds. -/
theorem adjointQ_applies_made {ρ : Type} [RealScalar ρ] [BinaryScalar ρ] [RootScalar ρ]
    [WideScalar ρ] (threshold : ρ) :
    (∀ {α : Type} [EuclideanScalar α ρ] [HeadedScalar α] {a : MatrixView α}, a.Readable →
      ∃ qr, ofThreshold threshold a = .ok qr ∧
        qr.factors.LeavesOutSkipped (min a.nrows a.ncols)) ∧
    ∀ {a : MatrixView ρ}, a.Readable →
      (∃ qr, ofThreshold threshold a = .ok qr ∧
        qr.factors.AppliesMade (min a.nrows a.ncols)) ∧
      ∃ qr, RankRevealingQR.ofThreshold threshold a = .ok qr ∧
        qr.factors.AppliesMade (min a.nrows a.ncols) := by
  constructor
  · intro α _ _ a ha
    obtain ⟨qr, hqr, hrecords⟩ := Ends.never_iff.1 (ends_ofThreshold_records ha threshold)
    exact ⟨qr, hqr, hrecords.leavesOutSkipped⟩
  · intro a ha
    obtain ⟨qr, hqr, hrecords⟩ := Ends.never_iff.1 (ends_ofThreshold_records ha threshold)
    obtain ⟨rr, hrr, hrecords'⟩ :=
      Ends.never_iff.1 (RankRevealingQR.ends_ofThreshold_records ha threshold)
    exact ⟨⟨qr, hqr, hrecords.appliesMade⟩, rr, hrr, hrecords'.appliesMade⟩

/-- A complex and a real column whose reflection is applied with a division that has no quotients
by zero. -/
theorem adjointQ_applies_made_columns :
    (∃ qr : QR (Cartesian Float32) Float32,
      QR.ofThreshold 0 (.ofMatrix !![(⟨3, 4⟩ : Cartesian Float32); ⟨0, 1⟩]) = .ok qr ∧
        (∃ d head, qr.factors.Leaves 0 d head ∧
          (Scalar.isZero head = true → Scalar.isZero d = true)) ∧
        ¬ qr.factors.DividesByZero 0 ∧
        qr.factors.adjointQWith (fun x y => if Scalar.isZero y then 0 else x / y) =
          qr.factors.adjointQ) ∧
    ∃ qr : QR Float Float, QR.ofThreshold 0 (.ofMatrix !![(3 : Float); 4]) = .ok qr ∧
      (∃ d head, qr.factors.TestsAgree 0 d head) ∧ ¬ qr.factors.LosesHead 0 ∧
      qr.factors.adjointQWith (fun x y => if Scalar.isZero y then RealScalar.nan else x / y) =
        qr.factors.adjointQ := by
  constructor
  · obtain ⟨qr, hqr, hskips⟩ := (adjointQ_applies_made (0 : Float32)).1
      (MatrixView.ofMatrix_shows !![(⟨3, 4⟩ : Cartesian Float32); ⟨0, 1⟩]).readable
    have hproduct : Ends Never (fun qr => Ends Never (fun d => Ends Never (fun head =>
          Scalar.isZero (EuclideanScalar.conj d * head) = false) (qr.factors.work.entry 0 0))
        (Storage.read qr.factors.diagonal 0))
        (QR.ofThreshold (0 : Float32) (.ofMatrix !![(⟨3, 4⟩ : Cartesian Float32); ⟨0, 1⟩])) := by
      decide +kernel
    have hnonzero : ¬ qr.factors.DividesByZero 0 := by
      rintro ⟨d, head, hleaves, -, hzero⟩
      have hkept := ((hproduct.of_ok hqr).of_ok hleaves.read_diagonal).of_ok hleaves.read_head
      simp [hzero] at hkept
    refine ⟨qr, hqr, hskips.skipped 0 (by decide), hnonzero,
      hskips.withDiv (fun minor hminor => ?_) _ fun x y hy => if_neg hy⟩
    obtain rfl : minor = 0 := Nat.lt_one_iff.1 hminor
    exact hnonzero
  · obtain ⟨⟨qr, hqr, happlies⟩, -⟩ := (adjointQ_applies_made (0 : Float)).2
      (MatrixView.ofMatrix_shows !![(3 : Float); 4]).readable
    obtain ⟨d, head, hagree⟩ := happlies.tests 0 (by decide)
    have hmade : Ends Never
        (fun qr => Ends Never (Scalar.isZero · = false) (Storage.read qr.factors.diagonal 0))
        (QR.ofThreshold (0 : Float) (.ofMatrix !![(3 : Float); 4])) := by
      decide +kernel
    have hd : Scalar.isZero d = false := (hmade.of_ok hqr).of_ok hagree.read_diagonal
    have hkept : ¬ qr.factors.LosesHead 0 := fun hloses => by
      simp [hagree.vanishes.2 hloses.1] at hd
    refine ⟨qr, hqr, ⟨d, head, hagree⟩, hkept, happlies.withDiv (fun minor hminor => ?_) _
      fun x y hy => if_neg hy⟩
    obtain rfl : minor = 0 := Nat.lt_one_iff.1 hminor
    exact hkept

/-- The number is so small that its square is rounded to zero. -/
theorem adjointQ_divides_by_zero :
    let tiny : DenseMatrix Float := ⟨1, 1, #[Float.ofBits 0x16687e92154ef7ac]⟩
    Ends Never (fun qr => Ends Never (fun d => Ends Never (fun head =>
        Scalar.isZero d = true ∧ Scalar.isZero head = false ∧ Scalar.isZero (d * head) = true)
        (qr.factors.work.entry 0 0)) (Storage.read qr.factors.diagonal 0) ∧
      Ends Never (fun q => Ends Never (RealScalar.isFinite · = false) (q.entry 0 0)) qr.qAdjoint)
      (QR.of (ρ := Float) tiny.view) := by
  decide +kernel

end QR

end DenseFactor
