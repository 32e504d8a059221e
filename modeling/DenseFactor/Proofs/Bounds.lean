import Mathlib
import DenseFactor.Matrix.Equation
import DenseFactor.Method
import DenseFactor.Proofs.Cholesky.PivotedShape
import DenseFactor.Proofs.SVD.Memo
import DenseFactor.Proofs.Solver.Contract

/-!
# DenseFactor.Proofs.Bounds

No decomposition reads or writes **outside its matrices**, whatever the arithmetic and the
comparisons of the elements answer.

Design points:

* There is one structure `InBounds` for each decomposition and one for its solver. Its fields
  go through all that can be asked of it. A position outside a matrix and a test of operands
  that does not hold are failures like others, so the failures that a field allows say that
  there are none of these.
* Decompositions in total arithmetic fail by an ordinary answer or not at all. Over elements
  whose operations fail by `E`, these failures are allowed besides.
* The right-hand side is any matrix that can be read inside its shape. Nothing is asked of its
  height, and a vector is one of these matrices.
-/

namespace DenseFactor

open LinearSolver

variable {σ α ρ : Type} {E F : Failure → Prop} {m n : ℕ}

/-! ### Solvers -/

/-- Everything that can be asked of the solver of an `m x n` matrix. -/
structure LinearSolver.InBounds [LinearSolver σ α] (F : Failure → Prop) (s : σ) (m n : ℕ) :
    Prop where
  solveMatrix (b : MatrixView α) (hb : b.Readable) :
    Ends F (·.HasShape n b.ncols) (solveMatrix s b)
  solve (b : ColumnVector α) (hb : b.WellFormed) : Ends F (·.HasLength n) (solve s b)
  inverse : Ends F (·.HasShape n m) (inverse s)

namespace LinearSolver.Answers

variable [LinearSolver σ α] {refuses : Prop} {s : σ}

/-- A solver that keeps its contract refuses a right-hand side, or it answers. -/
theorem ends_solveMatrix (h : Answers E refuses s m n) (hF : ∀ e, RefusalOr E e → F e)
    {b : MatrixView α} (hb : b.Readable) : Ends F (·.HasShape n b.ncols) (solveMatrix s b) := by
  by_cases hrows : b.nrows = m
  · by_cases hrefuses : refuses
    · rw [(h.singular b hb).2 ⟨hrows, hrefuses⟩]
      exact hF _ (Or.inl rfl)
    · exact (h.answer b hb hrows hrefuses).weaken fun e he => hF e (Or.inr he)
  · rw [(h.rowCount b hb).2 hrows]
    exact hF _ (Or.inl rfl)

theorem inBounds (h : Answers E refuses s m n) (hF : ∀ e, RefusalOr E e → F e)
    (hinverse : Ends F (·.HasShape n m) (inverse s)) : InBounds F s m n where
  solveMatrix _ hb := h.ends_solveMatrix hF hb
  solve b hb := by
    refine (h.ends_solveMatrix hF hb.view_readable).bind fun x hx => ?_
    have hcols : x.view.ncols = 1 := hx.ncols
    have hcolumn : 0 < x.view.ncols := hcols ▸ Nat.one_pos
    have hlength := ColumnVector.ends_ofColumn_length (E := F) hx.readable hcolumn
    exact hx.nrows ▸ hlength
  inverse := hinverse

/-- A solver whose inverse is its answer to the identity. -/
theorem inBounds_of_identity [Scalar α] (h : Answers E refuses s m n)
    (hF : ∀ e, RefusalOr E e → F e)
    (hinverse : inverse s = solveIdentity (LinearSolver.solveMatrix s) (LinearSolver.nrows s)) :
    InBounds F s m n := by
  refine h.inBounds hF ?_
  rw [hinverse, h.nrows]
  refine (DenseMatrix.ends_identity_shape m).bind fun identity hidentity => ?_
  have hcols : identity.view.ncols = m := hidentity.ncols
  have hanswer := h.ends_solveMatrix hF hidentity.readable
  rwa [hcols] at hanswer

end LinearSolver.Answers

theorem RefusalOr.refusal {e : Failure} (h : RefusalOr Never e) : Refusal e :=
  h.resolve_right False.elim

theorem refusalOr_never : RefusalOr Never = Refusal :=
  funext fun _ => propext ⟨RefusalOr.refusal, Or.inl⟩

/-! ### LU -/

/-- Everything that can be asked of the LU decomposition of an `n x n` matrix. The factors are
there exactly if it is not singular. -/
structure LU.InBounds [Scalar α] (E : Failure → Prop) (lu : LU α) (n : ℕ) : Prop where
  lower : Ends Never
    (fun f => (f.isSome = true ↔ lu.isSingular = false) ∧ ∀ l ∈ f, l.HasShape n n) lu.lower?
  upper : Ends Never
    (fun f => (f.isSome = true ↔ lu.isSingular = false) ∧ ∀ u ∈ f, u.HasShape n n) lu.upper?
  permutation : Ends Never
    (fun f => (f.isSome = true ↔ lu.isSingular = false) ∧ ∀ p ∈ f, p.HasShape n n) lu.permutation?
  pivot : lu.pivot.size = n
  det : FailsOnly E lu.det
  solver : LinearSolver.InBounds (RefusalOr E) lu.solver n n

/-- A matrix that is not square is refused, and every other one has a decomposition as far as
the arithmetic goes. -/
theorem LU.ends_ofRule_inBounds [Scalar α] (hE : FailsBy α E fun _ => True)
    (hfault : ∀ e, E e → Fault e) {rule : PivotRule α}
    {P : ∀ {n : ℕ}, Matrix (Fin n) (Fin n) α → Fin n → Option (Fin n) → Prop}
    (hrule : rule.Selects P) {a : MatrixView α} (ha : a.Readable) (threshold : Option Float) :
    Ends (RefusalOr E) (fun lu => a.ncols = a.nrows ∧ lu.InBounds E a.nrows)
      (ofRule rule threshold a) := by
  refine (ends_ofRule_shape hE hrule ha threshold).self.imp ?_
  rintro lu ⟨hlu, hsquare, hshape⟩
  have hanswers := (solver_answers hE hfault hrule hlu).1
  rw [hsquare] at hanswers
  obtain ⟨σ, hσ⟩ := hshape.pivot
  exact ⟨hsquare, hshape.ends_lower?, hshape.ends_upper?, hshape.ends_permutation?, hσ.size,
    hshape.failsOnly_det hE, hanswers.inBounds_of_identity (fun _ he => he) rfl⟩

/-! ### QR -/

/-- Everything that can be asked of the QR decomposition of an `m x n` matrix. -/
structure QR.InBounds [RealScalar ρ] [EuclideanScalar α ρ] (qr : QR α ρ) (m n : ℕ) : Prop where
  q : Ends Never (·.HasShape m m) qr.q
  qAdjoint : Ends Never (·.HasShape m m) qr.qAdjoint
  r : Ends Never (·.HasShape m n) qr.r
  h : Ends Never (·.HasShape m n) qr.h
  solver : LinearSolver.InBounds Refusal qr.solver m n

/-- Every matrix of any shape has a QR decomposition. -/
theorem QR.ends_ofThreshold_inBounds [RealScalar ρ] [EuclideanScalar α ρ] {a : MatrixView α}
    (ha : a.Readable) (threshold : ρ) :
    Ends Never (·.InBounds a.nrows a.ncols) (ofThreshold threshold a) := by
  refine (ends_ofThreshold_shape ha threshold).self.imp ?_
  rintro qr ⟨hqr, hf⟩
  have hadjoint := hf.adjointQ (E := Never) (min_le_left _ _) (min_le_right _ _)
  exact ⟨hadjoint.bind fun _ hq => hq.adjoint, hadjoint, hf.upper, hf.vectors,
    (solver_answers hqr).1.inBounds_of_identity (fun _ => RefusalOr.refusal) rfl⟩

/-- Everything that can be asked of the rank-revealing QR decomposition of an `m x n`
matrix. -/
structure RankRevealingQR.InBounds [RealScalar ρ] (qr : RankRevealingQR ρ) (m n : ℕ) :
    Prop where
  p : Ends Never (·.HasShape n n) qr.p
  q : Ends Never (·.HasShape m m) qr.q
  qTranspose : Ends Never (·.HasShape m m) qr.qTranspose
  r : Ends Never (·.HasShape m n) qr.r
  h : Ends Never (·.HasShape m n) qr.h
  permutation : qr.permutation.size = n
  rank (drop : ρ) : FailsOnly Never (qr.rank drop)
  solver : LinearSolver.InBounds Refusal qr.solver m n

/-- Every matrix of any shape has a rank-revealing QR decomposition. -/
theorem RankRevealingQR.ends_ofThreshold_inBounds [RealScalar ρ] {a : MatrixView ρ}
    (ha : a.Readable) (threshold : ρ) :
    Ends Never (·.InBounds a.nrows a.ncols) (ofThreshold threshold a) := by
  refine (ends_ofThreshold_shape ha threshold).self.imp ?_
  rintro qr ⟨hqr, hf, σ, hσ⟩
  have hadjoint := hf.adjointQ (E := Never) (min_le_left _ _) (min_le_right _ _)
  exact ⟨ends_p_shape hσ, hadjoint.bind fun _ hq => hq.transpose, hadjoint, hf.upper, hf.vectors,
    hσ.size, failsOnly_rank hf,
    (solver_answers hqr).1.inBounds_of_identity (fun _ => RefusalOr.refusal) rfl⟩

/-! ### Cholesky -/

/-- Everything that can be asked of the Cholesky decomposition of an `n x n` matrix. -/
structure Cholesky.InBounds [RealScalar ρ] (ch : Cholesky ρ) (n : ℕ) : Prop where
  upper : ch.upper.HasShape n n
  lower : Ends Never (·.HasShape n n) ch.lower
  det : FailsOnly Never ch.det
  logDet : FailsOnly Never ch.logDet
  solver : LinearSolver.InBounds Refusal ch.solver n n

/-- A matrix is refused, or it is square and has a Cholesky decomposition. -/
theorem Cholesky.ends_ofThresholds_inBounds [RealScalar ρ] {a : MatrixView ρ} (ha : a.Readable)
    (symmetry positivity : ρ) :
    Ends Refusal (fun ch => a.ncols = a.nrows ∧ ch.InBounds a.nrows)
      (ofThresholds symmetry positivity a) := by
  refine (ends_ofThresholds_shape ha symmetry positivity).self.imp ?_
  rintro ch ⟨hch, hsquare, hupper⟩
  have hanswers := (solver_answers hch).1
  rw [hsquare] at hanswers
  exact ⟨hsquare, hupper, hupper.transpose, failsOnly_det hupper, failsOnly_logDet hupper,
    hanswers.inBounds_of_identity (fun _ => RefusalOr.refusal) rfl⟩

/-- Everything that can be asked of the pivoted Cholesky decomposition of an `n x n`
matrix. -/
structure PivotedCholesky.InBounds (c : PivotedCholesky ρ) (n : ℕ) : Prop where
  root : c.root.HasShape n c.rank
  rank : c.rank ≤ n

/-! ### Singular values -/

/-- Everything that can be asked of the singular value decomposition of an `m x n` matrix with
`p` singular values: its factors, what is derived from them, and what is kept of that after any
requests. -/
structure SVD.InBounds [RealScalar ρ] (s : SVD ρ) (m n p : ℕ) : Prop where
  factors : s.HasShape m n p
  uTranspose : Ends Never (·.HasShape p m) s.uTranspose
  vTranspose : Ends Never (·.HasShape p n) s.vTranspose
  diagonal : Ends Never (·.HasShape p p) s.diagonal
  pseudoInverse : Ends Never (·.HasShape n m) s.pseudoInverse
  covariance (cutoff : ρ) : Ends Refusal (·.HasShape n n) (s.covariance cutoff)
  solver : Ends Never (LinearSolver.InBounds Refusal · m n) s.solver
  kept (requests : List Memo.Request) (d : Derived) :
    FailsOnly Never ((requests.foldl Memo.after (Memo.fresh s)).matrix d)
  keptSolver (requests : List Memo.Request) :
    Ends Never (fun t => LinearSolver.InBounds Refusal t.1 m n)
      (requests.foldl Memo.after (Memo.fresh s)).solver
  intoSolver (requests : List Memo.Request) :
    Ends Never (LinearSolver.InBounds Refusal · m n)
      (requests.foldl Memo.after (Memo.fresh s)).intoSolver

theorem SVD.HasShape.failsOnly_derive [RealScalar ρ] {s : SVD ρ} {p : ℕ} (hs : s.HasShape m n p)
    (d : Derived) : FailsOnly E (s.derive d) := by
  cases d with
  | uTranspose => exact hs.uTranspose.imp fun _ _ => trivial
  | vTranspose => exact hs.vTranspose.imp fun _ _ => trivial
  | diagonal => exact hs.diagonal.imp fun _ _ => trivial
  | pseudoInverse => exact hs.pseudoInverse.imp fun _ _ => trivial

/-- Every matrix of any shape has a singular value decomposition, or its iteration does not
converge. -/
theorem SVD.ends_ofTolerance?_inBounds [RealScalar ρ] {a : MatrixView ρ} (ha : a.Readable)
    (tolerance? : Option ρ) :
    Ends (· = .noConvergence) (·.InBounds a.nrows a.ncols (min a.nrows a.ncols))
      (ofTolerance? tolerance? a) := by
  refine (ends_ofTolerance?_shape ha tolerance?).self.imp ?_
  rintro s ⟨hs, hshape⟩
  have hsolver : Ends Never (LinearSolver.InBounds Refusal · a.nrows a.ncols) s.solver := by
    obtain ⟨t, ht, hinverse, hanswers⟩ := solver_answers hs
    rw [ht]
    exact hanswers.inBounds (fun _ => RefusalOr.refusal) hinverse
  have hfaithful (requests : List Memo.Request) :
      Memo.Faithful s (requests.foldl Memo.after (Memo.fresh s)) :=
    (Memo.fresh_faithful s).run requests
  refine ⟨hshape, hshape.uTranspose, hshape.vTranspose, hshape.diagonal, hshape.pseudoInverse,
    hshape.covariance, hsolver, ?kept, ?keptSolver, ?intoSolver⟩
  case kept =>
    intro requests d
    have hderive : FailsOnly Never (s.derive d) := hshape.failsOnly_derive d
    rw [← ((hfaithful requests).matrix d).1] at hderive
    exact Ends.map_iff.1 hderive
  case keptSolver =>
    intro requests
    rw [← (hfaithful requests).solver.1] at hsolver
    exact Ends.map_iff.1 hsolver
  case intoSolver =>
    intro requests
    rw [(hfaithful requests).intoSolver]
    exact hsolver

/-! ### All decompositions -/

/-- **No position outside a matrix.** Let `a` be a matrix of any shape that can be read, over
any element type. Each construction of a decomposition refuses it by an ordinary answer, or
gives a decomposition of which everything can be asked: its factors and the numbers read off
them, and its solver with any right-hand side. All of it ends in a result of the stated shape
or in an ordinary answer, never by a position outside the stored elements or a condition on
operands that does not hold. Where the operations of the elements fail by faults `E` of
arithmetic, these are the only other failures. -/
theorem decompositions_inBounds :
    (∀ {α ρ : Type} [RealScalar ρ] [EuclideanScalar α ρ] (threshold : ρ) (a : MatrixView α),
      a.Readable → Ends Refusal (fun lu => a.ncols = a.nrows ∧ lu.InBounds Never a.nrows)
        (LU.ofThreshold threshold a)) ∧
    (∀ {α : Type} [FieldScalar α] {E : Failure → Prop}, FailsBy α E (fun _ => True) →
      (∀ e, E e → Fault e) → ∀ (isZero : α → Bool) (numeric : Bool) (a : MatrixView α),
      a.Readable → Ends (RefusalOr E) (fun lu => a.ncols = a.nrows ∧ lu.InBounds E a.nrows)
        (LU.ofPredicate isZero numeric a)) ∧
    (∀ {α ρ : Type} [RealScalar ρ] [EuclideanScalar α ρ] (threshold : ρ) (a : MatrixView α),
      a.Readable → Ends Never (·.InBounds a.nrows a.ncols) (QR.ofThreshold threshold a)) ∧
    (∀ {ρ : Type} [RealScalar ρ] (threshold : ρ) (a : MatrixView ρ),
      a.Readable → Ends Never (·.InBounds a.nrows a.ncols)
        (RankRevealingQR.ofThreshold threshold a)) ∧
    (∀ {ρ : Type} [RealScalar ρ] (symmetry positivity : ρ) (a : MatrixView ρ),
      a.Readable → Ends Refusal (fun ch => a.ncols = a.nrows ∧ ch.InBounds a.nrows)
        (Cholesky.ofThresholds symmetry positivity a)) ∧
    (∀ {ρ : Type} [RealScalar ρ] (small : ρ) (a : MatrixView ρ),
      a.Readable → Ends Refusal (fun c => a.ncols = a.nrows ∧ c.InBounds a.nrows)
        (PivotedCholesky.ofSmall small a)) ∧
    ∀ {ρ : Type} [RealScalar ρ] (tolerance? : Option ρ) (a : MatrixView ρ),
      a.Readable → Ends (· = .noConvergence)
        (·.InBounds a.nrows a.ncols (min a.nrows a.ncols)) (SVD.ofTolerance? tolerance? a) := by
  refine ⟨?lu_threshold, ?lu_predicate, ?qr, ?rrqr, ?cholesky, ?pivoted, ?svd⟩
  case lu_threshold =>
    intro α ρ _ _ threshold a ha
    rw [← refusalOr_never]
    exact LU.ends_ofRule_inBounds failsBy_total (fun _ => False.elim)
      (LU.selects_largestModulus threshold) ha _
  case lu_predicate =>
    intro α _ E hE hfault isZero numeric a ha
    exact LU.ends_ofRule_inBounds hE hfault (LU.selects_field isZero numeric) ha none
  case qr =>
    intro α ρ _ _ threshold a ha
    exact QR.ends_ofThreshold_inBounds ha threshold
  case rrqr =>
    intro ρ _ threshold a ha
    exact RankRevealingQR.ends_ofThreshold_inBounds ha threshold
  case cholesky =>
    intro ρ _ symmetry positivity a ha
    exact Cholesky.ends_ofThresholds_inBounds ha symmetry positivity
  case pivoted =>
    intro ρ _ small a ha
    refine (PivotedCholesky.ends_ofSmall_shape ha small).imp ?_
    rintro c ⟨hsquare, hroot, hrank⟩
    exact ⟨hsquare, hroot, hrank⟩
  case svd =>
    intro ρ _ tolerance? a ha
    exact SVD.ends_ofTolerance?_inBounds ha tolerance?

/-- A matrix of ratios, a row with a NaN, and a matrix without rows. -/
theorem decompositions_inBounds_exchanging_and_row :
    let row : DenseMatrix Float32 := ⟨1, 2, #[RealScalar.nan, 1]⟩
    let empty : DenseMatrix Float := ⟨0, 2, #[]⟩
    Ends (RefusalOr Fault) (fun lu : LU (Ratio 64) => lu.InBounds Fault 3)
        (LU.ofPredicate Scalar.isZero true (.ofMatrix LU.exchanging)) ∧
      Ends Never (·.InBounds 1 2) (RankRevealingQR.ofThreshold (0 : Float32) row.view) ∧
      Ends (· = .noConvergence) (·.InBounds 0 2 0) (SVD.ofTolerance? none empty.view) := by
  intro row empty
  obtain ⟨-, hpredicate, -, hrrqr, -, -, hsvd⟩ := decompositions_inBounds
  have hexchanging : (MatrixView.ofMatrix LU.exchanging).Readable := fun i hi j hj =>
    ⟨_, (MatrixView.ofMatrix_shows LU.exchanging).entry ⟨i, hi⟩ ⟨j, hj⟩⟩
  have hrow : row.view.Readable := DenseMatrix.WellFormed.view_readable rfl
  have hempty : empty.view.Readable := DenseMatrix.WellFormed.view_readable rfl
  have hfault : FailsBy (Ratio 64) Fault fun _ => True := ExactScalar.failsBy_fault
  refine ⟨?_, hrrqr 0 row.view hrow, hsvd none empty.view hempty⟩
  exact (hpredicate hfault (fun _ he => he) Scalar.isZero true _ hexchanging).imp fun _ h => h.2

/-! ### Shortcuts -/

/-- The shortcut through LU: a matrix that is not square is refused. -/
theorem LU.ends_of_inBounds [RealScalar ρ] [EuclideanScalar α ρ] {a : MatrixView α}
    (ha : a.Readable) (threshold : ρ) :
    Ends Refusal (fun lu => lu.InBounds Never a.nrows ∧
        LinearSolver.InBounds Refusal lu.solver a.nrows a.ncols) (ofThreshold threshold a) := by
  rw [← refusalOr_never]
  refine (ends_ofRule_inBounds failsBy_total (fun _ => False.elim)
    (selects_largestModulus threshold) ha _).imp ?_
  rintro lu ⟨hsquare, hlu⟩
  rw [hsquare]
  exact ⟨hlu, hlu.solver⟩

/-- The questions that are asked of a matrix directly. -/
theorem DenseMatrix.equations_inBounds [RealScalar ρ] [EuclideanScalar α ρ] {a : DenseMatrix α}
    (ha : a.WellFormed) :
    (∀ b : ColumnVector α, b.WellFormed → Ends Refusal (·.HasLength a.ncols) (a.solve b)) ∧
      Ends Refusal (·.HasShape a.ncols a.nrows) a.inverse ∧ FailsOnly Refusal a.det := by
  have hlu := LU.ends_of_inBounds ha.view_readable (RealScalar.ofFloat LU.defaultThreshold : ρ)
  refine ⟨fun b hb => hlu.bind fun lu h => h.2.solve b hb, hlu.bind fun lu h => h.2.inverse, ?_⟩
  exact hlu.bind fun lu h => h.1.det.of_never

/-- A method makes a solver of which everything can be asked, or refuses the matrix. -/
theorem methods_inBounds [RealScalar ρ] [EuclideanScalar α ρ] :
    (∀ (method : LU.Method) (a : MatrixView α), a.Readable →
      Ends Refusal (LinearSolver.InBounds Refusal · a.nrows a.ncols)
        (SolverMethod.solverOf method a)) ∧
    (∀ (method : QR.Method) (a : MatrixView α), a.Readable →
      Ends Refusal (LinearSolver.InBounds Refusal · a.nrows a.ncols)
        (SolverMethod.solverOf method a)) ∧
    (∀ (method : RankRevealingQR.Method) (a : MatrixView ρ), a.Readable →
      Ends Refusal (LinearSolver.InBounds Refusal · a.nrows a.ncols)
        (SolverMethod.solverOf method a)) ∧
    (∀ (method : Cholesky.Method) (a : MatrixView ρ), a.Readable →
      Ends Refusal (LinearSolver.InBounds Refusal · a.nrows a.ncols)
        (SolverMethod.solverOf method a)) ∧
    ∀ (method : SVD.Method) (a : MatrixView ρ), a.Readable →
      Ends Refusal (LinearSolver.InBounds Refusal · a.nrows a.ncols)
        (SolverMethod.solverOf method a) := by
  refine ⟨?lu, ?qr, ?rrqr, ?cholesky, ?svd⟩
  case lu =>
    intro method a ha
    exact (LU.ends_of_inBounds ha _).bind fun lu hlu => hlu.2
  case qr =>
    intro method a ha
    exact (QR.ends_ofThreshold_inBounds ha _).of_never.bind fun _ hqr => hqr.solver
  case rrqr =>
    intro method a ha
    exact (RankRevealingQR.ends_ofThreshold_inBounds ha _).of_never.bind fun _ hqr => hqr.solver
  case cholesky =>
    intro method a ha
    refine (Cholesky.ends_ofThresholds_inBounds ha _ _).bind ?_
    rintro ch ⟨hsquare, hch⟩
    rw [hsquare]
    exact hch.solver
  case svd =>
    intro method a ha
    refine ((SVD.ends_ofTolerance?_inBounds ha _).weaken ?_).bind fun s hs => hs.solver.of_never
    rintro e rfl
    rfl

end DenseFactor
