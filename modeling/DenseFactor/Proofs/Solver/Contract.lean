import Mathlib
import DenseFactor.Proofs.Cholesky.Shape
import DenseFactor.Proofs.LU.Shape
import DenseFactor.Proofs.QR.Shape
import DenseFactor.Proofs.SVD.Shape
import DenseFactor.Proofs.Scalar.Identity

/-!
# DenseFactor.Proofs.Solver.Contract

What **all solvers have in common**: when they refuse, in which order, and the shape of what
they answer.

Design points:

* `Answers E refuses s m n` is the contract of `solveMatrix` for an `m x n` matrix. A
  right-hand side of the wrong height is reported first, even by a solver that `refuses`
  everything else. What is left ends in a matrix, up to failures `E` of the arithmetic.
* `Inverts agree s m n` compares `inverse` with the answer to the identity. Four solvers
  define the one by the other. The solver of a singular value decomposition returns its
  pseudo-inverse instead, and multiplies it by the identity when asked for the answer.
* In rounded arithmetic this product is the pseudo-inverse again: its sums have one term
  that is not a zero. A product of zero and infinity is a NaN, so this needs finite entries.
-/

namespace DenseFactor

namespace LinearSolver

variable {σ α : Type} [LinearSolver σ α] {E : Failure → Prop} {refuses : Prop} {s : σ} {m n : ℕ}

/-- The solver of an `m x n` matrix, which `refuses` right-hand sides of the right height or
answers them all. -/
structure Answers (E : Failure → Prop) (refuses : Prop) (s : σ) (m n : ℕ) : Prop where
  nrows : LinearSolver.nrows s = m
  ncols : LinearSolver.ncols s = n
  /-- The height is reported if and only if it is wrong. -/
  rowCount (b : MatrixView α) (hb : b.Readable) :
    solveMatrix s b = .error (.rowCount m b.nrows) ↔ b.nrows ≠ m
  /-- Singularity is reported if and only if the height is right and the solver refuses. -/
  singular (b : MatrixView α) (hb : b.Readable) :
    solveMatrix s b = .error .singular ↔ b.nrows = m ∧ refuses
  /-- Everything else has an answer with a column for every column. -/
  answer (b : MatrixView α) (hb : b.Readable) (hrows : b.nrows = m) (h : ¬ refuses) :
    Ends E (·.HasShape n b.ncols) (solveMatrix s b)

/-- The inverse and the answer to the identity. -/
structure Inverts [Scalar α] (agree : DenseMatrix α → DenseMatrix α → Prop) (s : σ) (m n : ℕ) :
    Prop where
  isOk : (∃ y, inverse s = .ok y) ↔ ∃ x, solveIdentity (solveMatrix s) m = .ok x
  shape (y : DenseMatrix α) (hy : inverse s = .ok y) : y.HasShape n m
  agrees (y x : DenseMatrix α) (hy : inverse s = .ok y)
    (hx : solveIdentity (solveMatrix s) m = .ok x) : agree y x

/-- The contract of a solver that compares the rows, then asks whether the matrix is
`singular`, and only then computes. -/
theorem answers_of_tests {singular : Bool}
    {compute : MatrixView α → Except Failure (DenseMatrix α)} (hfault : ∀ e, E e → Fault e)
    (hrefuses : refuses ↔ singular = true) (hnrows : LinearSolver.nrows s = m)
    (hncols : LinearSolver.ncols s = n)
    (htests : ∀ b : MatrixView α, solveMatrix s b =
      if b.nrows = LinearSolver.nrows s then if singular then .error .singular else compute b
      else .error (.rowCount (LinearSolver.nrows s) b.nrows))
    (hanswer : ∀ b : MatrixView α, b.Readable → b.nrows = m → singular = false →
      Ends E (·.HasShape n b.ncols) (solveMatrix s b)) : Answers E refuses s m n := by
  have hwrong (b : MatrixView α) (hrows : b.nrows ≠ m) :
      solveMatrix s b = .error (.rowCount m b.nrows) := by
    rw [htests b, hnrows, if_neg hrows]
  have hrefused (b : MatrixView α) (hrows : b.nrows = m) (h : refuses) :
      solveMatrix s b = .error .singular := by
    rw [htests b, hnrows, if_pos hrows, if_pos (hrefuses.1 h)]
  have hanswered (b : MatrixView α) (hb : b.Readable) (hrows : b.nrows = m) (h : ¬ refuses) :
      Ends E (·.HasShape n b.ncols) (solveMatrix s b) :=
    hanswer b hb hrows (Bool.eq_false_iff.2 fun hs => h (hrefuses.2 hs))
  refine ⟨hnrows, hncols, ?rowCount, ?singular, hanswered⟩
  case rowCount =>
    intro b hb
    refine ⟨?_, hwrong b⟩
    intro h hrows
    by_cases hsingular : refuses
    · rw [hrefused b hrows hsingular] at h
      cases h
    · -- a fault of arithmetic is not about rows
      have hnot := hfault _ ((hanswered b hb hrows hsingular).of_error h)
      cases hnot
  case singular =>
    intro b hb
    refine ⟨?_, fun h => hrefused b h.1 h.2⟩
    intro h
    by_cases hrows : b.nrows = m
    · refine ⟨hrows, ?_⟩
      by_contra hsingular
      have hnot := hfault _ ((hanswered b hb hrows hsingular).of_error h)
      cases hnot
    · rw [hwrong b hrows] at h
      cases h

/-- The identity has an answer of the shape of an inverse, if it has one. -/
theorem Answers.solveIdentity_shape [Scalar α] (h : Answers E refuses s m n) {x : DenseMatrix α}
    (hx : solveIdentity (solveMatrix s) m = .ok x) : x.HasShape n m := by
  obtain ⟨identity, hidentity, hshape⟩ :=
    Ends.never_iff.1 (DenseMatrix.ends_identity_shape (α := α) m)
  have hanswer : solveMatrix s identity.view = .ok x := by
    rw [solveIdentity, hidentity] at hx
    exact hx
  by_cases hrefuses : refuses
  · rw [(h.singular _ hshape.readable).2 ⟨hshape.nrows, hrefuses⟩] at hanswer
    cases hanswer
  · have hx := (h.answer _ hshape.readable hshape.nrows hrefuses).of_ok hanswer
    exact hshape.ncols ▸ hx

/-- A solver whose inverse is its answer to the identity. -/
theorem Answers.inverts [Scalar α] (h : Answers E refuses s m n)
    (hinverse : inverse s = solveIdentity (solveMatrix s) (LinearSolver.nrows s)) :
    Inverts Eq s m n := by
  rw [h.nrows] at hinverse
  refine ⟨by rw [hinverse], ?shape, ?agrees⟩
  case shape =>
    intro y hy
    exact h.solveIdentity_shape (hinverse ▸ hy)
  case agrees =>
    intro y x hy hx
    rw [hinverse, hx] at hy
    exact (Except.ok.inj hy).symm

end LinearSolver

open LinearSolver

variable {α ρ : Type} {E : Failure → Prop} {m n : ℕ}

/-! ### Triangular solvers -/

/-- The LU solver refuses a singular matrix. -/
theorem LU.solver_answers [Scalar α] (hE : FailsBy α E fun _ => True)
    (hfault : ∀ e, E e → Fault e) {rule : PivotRule α}
    {P : ∀ {n : ℕ}, Matrix (Fin n) (Fin n) α → Fin n → Option (Fin n) → Prop}
    (hrule : rule.Selects P) {a : MatrixView α} {threshold : Option Float} {lu : LU α}
    (hlu : ofRule rule threshold a = .ok lu) :
    Answers E (isNonSingular lu.solver = false) lu.solver a.nrows a.ncols ∧
      Inverts Eq lu.solver a.nrows a.ncols := by
  obtain ⟨hncols, σ, W, hholds⟩ := exists_holds_of_ofRule hrule hlu rfl
  have hpivot : Lists lu.solver.pivot σ := hholds.lists
  have hsize : lu.solver.pivot.size = a.nrows := hpivot.size
  have hpacked : lu.solver.packed.HasShape a.nrows a.nrows := hholds.packed.hasShape
  rw [hncols]
  have hrefuses : isNonSingular lu.solver = false ↔ lu.solver.singular = true := by
    simp [isNonSingular]
  have hanswers : Answers E (isNonSingular lu.solver = false) lu.solver a.nrows a.nrows := by
    refine answers_of_tests hfault hrefuses hsize hsize lu.solver.solveMatrix_eq ?_
    intro b hb hrows hsingular
    exact Solver.ends_solveMatrix_shape hE hpacked hpivot hsingular hb hrows
  exact ⟨hanswers, hanswers.inverts rfl⟩

/-- The Cholesky solver never refuses. -/
theorem Cholesky.solver_answers [RealScalar ρ] {symmetry positivity : ρ} {a : MatrixView ρ}
    {ch : Cholesky ρ} (hch : ofThresholds symmetry positivity a = .ok ch) :
    Answers Never False ch.solver a.nrows a.ncols ∧ Inverts Eq ch.solver a.nrows a.ncols := by
  have ha : a.Readable := (ends_ofThresholds_readable symmetry positivity).of_ok hch
  obtain ⟨hncols, hupper⟩ := (ends_ofThresholds_shape ha symmetry positivity).of_ok hch
  have hsize : ch.solver.upper.nrows = a.nrows := hupper.nrows
  rw [hncols]
  have hanswers : Answers Never False ch.solver a.nrows a.nrows := by
    refine answers_of_tests (fun _ => False.elim) ⟨False.elim, Bool.false_ne_true⟩ hsize hsize
      ch.solver.solveMatrix_eq ?_
    intro b hb hrows _
    exact Solver.ends_solveMatrix_shape hupper hb hrows
  exact ⟨hanswers, hanswers.inverts rfl⟩

/-! ### Solvers by reflections -/

/-- The QR solver refuses a rank-deficient matrix. -/
theorem QR.solver_answers [RealScalar ρ] [EuclideanScalar α ρ] {threshold : ρ}
    {a : MatrixView α} {qr : QR α ρ} (hqr : ofThreshold threshold a = .ok qr) :
    Answers Never (isNonSingular qr.solver = false) qr.solver a.nrows a.ncols ∧
      Inverts Eq qr.solver a.nrows a.ncols := by
  have ha : a.Readable := (ends_ofThreshold_readable threshold).of_ok hqr
  have hf : qr.solver.factors.HasShape a.nrows a.ncols (min a.nrows a.ncols) :=
    (ends_ofThreshold_shape (E := Never) ha threshold).of_ok hqr
  have hnrows : qr.solver.factors.nrows = a.nrows := hf.work.ncols
  have hncols : qr.solver.factors.ncols = a.ncols := hf.work.nrows
  have hrefuses : isNonSingular qr.solver = false ↔ qr.solver.singular = true := by
    simp [isNonSingular]
  have hanswers : Answers Never (isNonSingular qr.solver = false) qr.solver a.nrows a.ncols := by
    refine answers_of_tests (fun _ => False.elim) hrefuses hnrows hncols
      qr.solver.solveMatrix_eq ?_
    intro b hb hrows hsingular
    exact Solver.ends_solveMatrix_shape hf (min_le_left _ _) (min_le_right _ _) hsingular hb
      hrows
  exact ⟨hanswers, hanswers.inverts rfl⟩

/-- The rank-revealing solver refuses as the QR solver inside it does. -/
theorem RankRevealingQR.solver_answers [RealScalar ρ] {threshold : ρ} {a : MatrixView ρ}
    {qr : RankRevealingQR ρ} (hqr : ofThreshold threshold a = .ok qr) :
    Answers Never (isNonSingular qr.solver = false) qr.solver a.nrows a.ncols ∧
      Inverts Eq qr.solver a.nrows a.ncols := by
  have ha : a.Readable := (ends_ofThreshold_readable threshold).of_ok hqr
  obtain ⟨hf, σ, hσ⟩ := (ends_ofThreshold_shape (E := Never) ha threshold).of_ok hqr
  have hf : qr.solver.inner.factors.HasShape a.nrows a.ncols (min a.nrows a.ncols) := hf
  have hnrows : qr.solver.inner.factors.nrows = a.nrows := hf.work.ncols
  have hncols : qr.solver.inner.factors.ncols = a.ncols := hf.work.nrows
  have hrefuses : isNonSingular qr.solver = false ↔ qr.solver.inner.singular = true := by
    simp [isNonSingular]
  have hanswers : Answers Never (isNonSingular qr.solver = false) qr.solver a.nrows a.ncols := by
    refine answers_of_tests (fun _ => False.elim) hrefuses hnrows hncols
      qr.solver.solveMatrix_eq ?_
    intro b hb hrows hsingular
    exact Solver.ends_solveMatrix_shape hf (min_le_left _ _) (min_le_right _ _) hσ hsingular
      hb hrows
  exact ⟨hanswers, hanswers.inverts rfl⟩

/-! ### Products with the identity -/

/-- Every stored element is finite. -/
def DenseMatrix.IsFinite [RealScalar ρ] (m : DenseMatrix ρ) : Prop :=
  ∀ x ∈ m.data, RealScalar.isFinite x = true

/-- Equal up to the signs of zeros, if one of the two is finite. -/
def DenseMatrix.EqualIfFinite [RealScalar ρ] (m m' : DenseMatrix ρ) : Prop :=
  m.IsFinite ∨ m'.IsFinite → m.beq m' = true

section Identity

variable [RealScalar ρ] [BinaryScalar ρ] {p : Fin m → ρ} {j : Fin m}

/-- The sum of the products of a row `p` and column `j` of the identity, over the positions
before `k`. It is a zero until position `j` and the entry there afterwards. -/
structure UnitSum (p : Fin m → ρ) (j : Fin m) (k : ℕ) (sum : ρ) : Prop where
  isZero (hp : ∀ t, RealScalar.isFinite (p t) = true)
    (h : (j : ℕ) < k → Scalar.isZero (p j) = true) : Scalar.isZero sum = true
  unpacked (hp : ∀ t, RealScalar.isFinite (p t) = true) (hk : (j : ℕ) < k)
    (h : ¬ Scalar.isZero (p j) = true) : BinaryScalar.unpacked sum = BinaryScalar.unpacked (p j)
  isFinite (hk : (j : ℕ) < k) (h : RealScalar.isFinite sum = true) :
    RealScalar.isFinite (p j) = true

namespace UnitSum

open BinaryScalar (isFinite_of_add isFinite_of_isZero isZero_add isZero_mul_zero
  unpacked_add_of_isZero_left unpacked_add_of_isZero_right unpacked_mul_one)

variable {sum : ρ}

theorem start (p : Fin m → ρ) (j : Fin m) : UnitSum p j 0 (0 : ρ) where
  isZero _ _ := BinaryScalar.isZero_iff.2 ⟨_, BinaryScalar.unpacked_zero⟩
  unpacked _ hk := absurd hk (Nat.not_lt_zero _)
  isFinite hk := absurd hk (Nat.not_lt_zero _)

/-- A zero of the row is left out. -/
theorem skip {k : Fin m} (h : UnitSum p j k sum) (hzero : Scalar.isZero (p k) = true) :
    UnitSum p j (k + 1) sum where
  isZero hp hj := h.isZero hp fun hk => hj (Nat.lt_succ_of_lt hk)
  unpacked hp hk hj := by
    have hne : k ≠ j := fun heq => hj (heq ▸ hzero)
    have hlt : (j : ℕ) < k := by omega
    exact h.unpacked hp hlt hj
  isFinite hk hsum := by
    by_cases heq : k = j
    · exact heq ▸ isFinite_of_isZero hzero
    · have hlt : (j : ℕ) < k := by omega
      exact h.isFinite hlt hsum

/-- The entry at position `j` is added to a zero. -/
theorem unit (h : UnitSum p j j sum) (hj : ¬ Scalar.isZero (p j) = true) :
    UnitSum p j (j + 1) (sum + p j * 1) where
  isZero _ hzero := absurd (hzero (Nat.lt_succ_self _)) hj
  unpacked hp _ _ := by
    have hsum := h.isZero hp fun hlt => absurd hlt (lt_irrefl _)
    have hproduct : ¬ Scalar.isZero (p j * 1) = true := by
      rwa [BinaryScalar.isZero_iff, unpacked_mul_one, ← BinaryScalar.isZero_iff]
    rw [unpacked_add_of_isZero_left hsum hproduct, unpacked_mul_one]
  isFinite _ hsum := by
    have hproduct := (isFinite_of_add hsum).2
    rwa [BinaryScalar.isFinite_eq, unpacked_mul_one, ← BinaryScalar.isFinite_eq] at hproduct

/-- Every other entry adds a zero. -/
theorem other {k : Fin m} (h : UnitSum p j k sum) (hne : k ≠ j) :
    UnitSum p j (k + 1) (sum + p k * 0) where
  isZero hp hj := by
    refine isZero_add (h.isZero hp fun hk => hj (Nat.lt_succ_of_lt hk)) ?_
    exact isZero_mul_zero (hp k)
  unpacked hp hk hj := by
    have hlt : (j : ℕ) < k := by omega
    have hsame := h.unpacked hp hlt hj
    have hsum : ¬ Scalar.isZero sum = true := by
      rwa [BinaryScalar.isZero_iff, hsame, ← BinaryScalar.isZero_iff]
    rw [unpacked_add_of_isZero_right (isZero_mul_zero (hp k)) hsum, hsame]
  isFinite hk hsum := by
    have hlt : (j : ℕ) < k := by omega
    exact h.isFinite hlt (isFinite_of_add hsum).1

/-- The sum over all positions equals the entry, if the row is finite. -/
theorem beq (h : UnitSum p j m sum) (hp : ∀ t, RealScalar.isFinite (p t) = true) :
    Scalar.beq (p j) sum = true := by
  by_cases hzero : Scalar.isZero (p j) = true
  · exact BinaryScalar.beq_of_isZero hzero (h.isZero hp fun _ => hzero)
  · refine BinaryScalar.beq_of_unpacked_eq (BinaryScalar.isNaN_of_isFinite (hp j)) ?_
    exact (h.unpacked hp j.isLt hzero).symm

end UnitSum

/-- A product with the identity, up to the signs of zeros. -/
theorem DenseMatrix.Stores.mul_identity {a e : DenseMatrix ρ} {A : Matrix (Fin n) (Fin m) ρ}
    (ha : a.Stores A) (he : e.Stores (Matrix.of fun i j : Fin m => if i = j then (1 : ρ) else 0)) :
    Ends E (fun x => x.HasShape n m ∧ a.EqualIfFinite x) (a.mul e) := by
  have hproduct : Ends E (fun x => ∃ X : Matrix (Fin n) (Fin m) ρ, x.Stores X ∧
      ∀ i j, UnitSum (A i) j m (X i j)) (a.mul e) := by
    unfold DenseMatrix.mul
    rw [ha.nrows, ha.ncols, he.nrows, he.ncols, if_neg (not_not.2 rfl)]
    refine Ends.tabulate ?_
    intro i j
    refine Ends.foldPositions (I := UnitSum (A i) j) (Nat.zero_le m) (UnitSum.start (A i) j) ?_
    intro k sum _ hk hsum
    have hleft : a.entry i k = .ok (A i ⟨k, hk⟩) := ha.entry i ⟨k, hk⟩
    have hright := he.entry ⟨k, hk⟩ j
    rw [hleft, Ends.ok_bind_iff]
    by_cases hzero : Scalar.isZero (A i ⟨k, hk⟩) = true
    · rw [if_pos hzero]
      exact hsum.skip (k := ⟨k, hk⟩) hzero
    rw [if_neg hzero, hright]
    by_cases hkj : (⟨k, hk⟩ : Fin m) = j
    · subst hkj
      rw [Matrix.of_apply, if_pos rfl]
      exact hsum.unit hzero
    · rw [Matrix.of_apply, if_neg hkj]
      exact hsum.other hkj
  refine hproduct.imp ?_
  rintro x ⟨X, hX, hsum⟩
  refine ⟨hX.hasShape, ?_⟩
  intro hfinite
  have hA (i : Fin n) (j : Fin m) : RealScalar.isFinite (A i j) = true := by
    cases hfinite with
    | inl ha' => exact ha' _ (ha.mem i j)
    | inr hx => exact (hsum i j).isFinite j.isLt (hx _ (hX.mem i j))
  exact ha.beq hX fun i j => (hsum i j).beq (hA i)

end Identity

/-! ### The solver by singular values -/

/-- The solver of a singular value decomposition multiplies by the pseudo-inverse and never
refuses. -/
theorem SVD.solver_answers [RealScalar ρ] {a : MatrixView ρ} {tolerance? : Option ρ} {s : SVD ρ}
    (hs : ofTolerance? tolerance? a = .ok s) :
    ∃ t, s.solver = .ok t ∧ t.pseudoInverse.HasShape a.ncols a.nrows ∧
      Answers Never False t a.nrows a.ncols := by
  have ha : a.Readable := (ends_ofTolerance?_readable tolerance?).of_ok hs
  have hshape := (ends_ofTolerance?_shape ha tolerance?).of_ok hs
  obtain ⟨inverse, hinverse, hsize⟩ := Ends.never_iff.1 hshape.pseudoInverse
  let t : Solver ρ := { pseudoInverse := inverse, nonSingular := s.isFullRank }
  have ht : s.solver = .ok t := by
    rw [SVD.solver, hinverse]
    rfl
  have hsize : t.pseudoInverse.HasShape a.ncols a.nrows := hsize
  refine ⟨t, ht, hsize, ?_⟩
  refine answers_of_tests (fun _ => False.elim) ⟨False.elim, Bool.false_ne_true⟩ hsize.ncols
    hsize.nrows t.solveMatrix_eq ?_
  · intro b hb hrows _
    show Ends Never _ (t.solveMatrix b)
    rw [Solver.solveMatrix_eq, hsize.ncols, if_pos hrows]
    refine (DenseMatrix.ends_ofView_shape hb).bind fun x hx => ?_
    rw [hrows] at hx
    exact hsize.mul failsBy_total hx

/-- In rounded arithmetic the pseudo-inverse is the answer to the identity. -/
theorem SVD.Solver.inverts [RealScalar ρ] [BinaryScalar ρ] {t : Solver ρ}
    (ht : t.pseudoInverse.HasShape n m) : Inverts DenseMatrix.EqualIfFinite t m n := by
  obtain ⟨A, hA⟩ := ht.exists_stores
  obtain ⟨e, he, hstored⟩ : ∃ e, DenseMatrix.identity (α := ρ) m = .ok e ∧
      e.Stores (Matrix.of fun i j : Fin m => if i = j then (1 : ρ) else 0) := by
    refine Ends.never_iff.1 (Ends.tabulate_of_ok ?_)
    intro i j
    simp only [Fin.ext_iff, Matrix.of_apply]
    rfl
  have hanswer : solveIdentity (solveMatrix t) m = t.pseudoInverse.mul e := by
    have hrows : e.view.nrows = m := hstored.nrows
    rw [solveIdentity, he]
    show t.solveMatrix e.view = _
    rw [t.solveMatrix_eq, ht.ncols, if_pos hrows, hstored.wellFormed.ofView_view]
    rfl
  obtain ⟨x, hx, hshape, hequal⟩ := Ends.never_iff.1 (hA.mul_identity hstored)
  rw [← hanswer] at hx
  refine ⟨⟨fun _ => ⟨x, hx⟩, fun _ => ⟨_, rfl⟩⟩, ?_, ?_⟩
  · intro y hy
    obtain rfl := Except.ok.inj hy
    exact ht
  · intro y x' hy hx'
    obtain rfl := Except.ok.inj hy
    obtain rfl := Except.ok.inj (hx.symm.trans hx')
    exact hequal

/-! ### All solvers -/

/-- **The contract of all solvers.** Let a solver come from a decomposition of an `m x n`
matrix. It reports the height of a right-hand side if and only if it is wrong, whether or not
the matrix is singular. Of the others, LU, QR and rank-revealing QR refuse all as singular if
the matrix does not count as invertible, while Cholesky and singular values refuse none; what
is not refused has an answer with `n` rows and a column for each column. Only arithmetic that
can fail keeps it from being computed. The inverse exists exactly if the answer to the identity
does, it has `n` rows and `m` columns, and it is that answer; for singular values, up to the
signs of zeros and where one of the two is finite. -/
theorem solvers_meet_contract :
    (∀ {α ρ : Type} [RealScalar ρ] [EuclideanScalar α ρ] (threshold : ρ) (a : MatrixView α)
      (lu : LU α), LU.ofThreshold threshold a = .ok lu →
      Answers Never (isNonSingular lu.solver = false) lu.solver a.nrows a.ncols ∧
        Inverts Eq lu.solver a.nrows a.ncols) ∧
    (∀ {α : Type} [FieldScalar α] {E : Failure → Prop}, FailsBy α E (fun _ => True) →
      (∀ e, E e → Fault e) → ∀ (isZero : α → Bool) (numeric : Bool) (a : MatrixView α)
      (lu : LU α), LU.ofPredicate isZero numeric a = .ok lu →
      Answers E (isNonSingular lu.solver = false) lu.solver a.nrows a.ncols ∧
        Inverts Eq lu.solver a.nrows a.ncols) ∧
    (∀ {α ρ : Type} [RealScalar ρ] [EuclideanScalar α ρ] (threshold : ρ) (a : MatrixView α)
      (qr : QR α ρ), QR.ofThreshold threshold a = .ok qr →
      Answers Never (isNonSingular qr.solver = false) qr.solver a.nrows a.ncols ∧
        Inverts Eq qr.solver a.nrows a.ncols) ∧
    (∀ {ρ : Type} [RealScalar ρ] (threshold : ρ) (a : MatrixView ρ) (qr : RankRevealingQR ρ),
      RankRevealingQR.ofThreshold threshold a = .ok qr →
      Answers Never (isNonSingular qr.solver = false) qr.solver a.nrows a.ncols ∧
        Inverts Eq qr.solver a.nrows a.ncols) ∧
    (∀ {ρ : Type} [RealScalar ρ] (symmetry positivity : ρ) (a : MatrixView ρ) (ch : Cholesky ρ),
      Cholesky.ofThresholds symmetry positivity a = .ok ch →
      Answers Never False ch.solver a.nrows a.ncols ∧ Inverts Eq ch.solver a.nrows a.ncols) ∧
    ∀ {ρ : Type} [RealScalar ρ] [BinaryScalar ρ] (tolerance? : Option ρ) (a : MatrixView ρ)
      (s : SVD ρ), SVD.ofTolerance? tolerance? a = .ok s →
      ∃ t, s.solver = .ok t ∧ Answers Never False t a.nrows a.ncols ∧
        Inverts DenseMatrix.EqualIfFinite t a.nrows a.ncols := by
  refine ⟨?lu_threshold, ?lu_predicate, ?qr, ?rrqr, ?cholesky, ?svd⟩
  case lu_threshold =>
    intro α ρ _ _ threshold a lu hlu
    exact LU.solver_answers failsBy_total (fun _ => False.elim)
      (LU.selects_largestModulus threshold) hlu
  case lu_predicate =>
    intro α _ E hE hfault isZero numeric a lu hlu
    exact LU.solver_answers hE hfault (LU.selects_field isZero numeric) hlu
  case qr =>
    intro α ρ _ _ threshold a qr hqr
    exact QR.solver_answers hqr
  case rrqr =>
    intro ρ _ threshold a qr hqr
    exact RankRevealingQR.solver_answers hqr
  case cholesky =>
    intro ρ _ symmetry positivity a ch hch
    exact Cholesky.solver_answers hch
  case svd =>
    intro ρ _ _ tolerance? a s hs
    obtain ⟨t, ht, hshape, hanswers⟩ := SVD.solver_answers hs
    exact ⟨t, ht, hanswers, SVD.Solver.inverts hshape⟩

/-- The contract of a solver over ratios and of one whose matrix holds a NaN. -/
theorem solvers_meet_contract_exchanging_and_row :
    let row : DenseMatrix Float32 := ⟨1, 2, #[RealScalar.nan, 1]⟩
    (∃ lu : LU (Ratio 64), LU.ofPredicate Scalar.isZero true (.ofMatrix LU.exchanging) = .ok lu ∧
      Answers Fault (isNonSingular lu.solver = false) lu.solver 3 3 ∧ Inverts Eq lu.solver 3 3) ∧
    ∃ (s : SVD Float32) (t : SVD.Solver Float32), SVD.of row.view = .ok s ∧ s.solver = .ok t ∧
      Answers Never False t 1 2 ∧ Inverts DenseMatrix.EqualIfFinite t 1 2 := by
  intro row
  obtain ⟨hpredicate, -, -, -, hsvd⟩ := solvers_meet_contract.2
  constructor
  · obtain ⟨lu, hlu, -, -⟩ := LU.exists_decomposition_exchanging
    have hfault : FailsBy (Ratio 64) Fault fun _ => True := ExactScalar.failsBy_fault
    exact ⟨lu, hlu, hpredicate hfault (fun _ he => he) _ true _ lu hlu⟩
  · have hrow : Ends Never (fun _ => True) (SVD.of row.view) := by decide +kernel
    obtain ⟨s, hs, -⟩ := Ends.never_iff.1 hrow
    obtain ⟨t, ht, hcontract⟩ := hsvd none row.view s hs
    exact ⟨s, t, hs, ht, hcontract⟩

end DenseFactor
