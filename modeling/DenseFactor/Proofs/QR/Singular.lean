import Mathlib
import DenseFactor.Proofs.QR.Skipped
import DenseFactor.Proofs.Solver.Basic

/-!
# DenseFactor.Proofs.QR.Singular

What the **test for singularity** of the QR solvers says in rounded arithmetic, with the default
threshold of zero, and what the solvers divide by.

Design points:

* The limit of the test is zero times a norm. Of a finite norm this is zero, and the test finds
  the zeros on the diagonal; of an infinite one it is a NaN, and the test finds nothing.
* A solver applies every reflection, those that were skipped included, and divides by each
  diagonal entry. If no diagonal entry is zero, all steps were made, and no product of an entry
  and a head is rounded to zero.
* So with a finite norm a solver divides by no zero, whatever it answers. As elsewhere this is
  said with another division that agrees on the other divisors.
-/

namespace DenseFactor

/-- Two ways of running a solver give the same answers. -/
structure LinearSolver.SameAnswers {σ α : Type} (one other : LinearSolver σ α) (s : σ) : Prop where
  solveMatrix (b : MatrixView α) : one.solveMatrix s b = other.solveMatrix s b
  inverse : one.inverse s = other.inverse s

namespace QR

open BinaryScalar
open Float.Model Float.Model.UnpackedFloat

variable {ρ : Type} [RealScalar ρ] {m n : ℕ}

/-- Real types whose default threshold is a zero. -/
class ZeroThreshold (ρ : Type) [RealScalar ρ] : Prop where
  isZero_default : Scalar.isZero (RealScalar.ofFloat defaultThreshold : ρ) = true

instance : ZeroThreshold Float := ⟨by decide +kernel⟩

instance : ZeroThreshold Float32 := ⟨by decide +kernel⟩

/-! ### The test -/

section Test

variable [BinaryScalar ρ] {x t norm : ρ}

/-- A modulus is at most zero times a size if it is zero and the size is finite, and only
then. -/
theorem abs_le_zero_mul_iff (ht : Scalar.isZero t = true) :
    RealScalar.abs x ≤ t * norm ↔ RealScalar.isFinite norm = true ∧ Scalar.isZero x = true := by
  by_cases hfinite : RealScalar.isFinite norm = true
  · obtain ⟨hnumber, hplace⟩ := isZero_iff_place.1 (isZero_mul ht hfinite)
    rw [le_iff_place, isNaN_abs, place_abs, hnumber, hplace, isZero_iff_place, abs_nonpos_iff]
    simp [hfinite]
  · have hnan := isNaN_mul ht hfinite
    rw [le_iff_place, hnan]
    simp [hfinite]

/-- The diagonal has no zero. -/
def NonzeroDiagonal (r : DenseMatrix ρ) (size : ℕ) : Prop :=
  ∀ k < size, ∃ d, r.entry k k = .ok d ∧ ¬ Scalar.isZero d = true

/-- The test with a threshold of zero finds the zeros on the diagonal, unless the norm is not
finite. -/
theorem Factors.isRankDeficient_zero_iff {f : Factors ρ} (ht : Scalar.isZero t = true) :
    f.isRankDeficient (t * norm) = true ↔ RealScalar.isFinite norm = true ∧
      ∃ k d, Storage.read f.diagonal k = .ok d ∧ Scalar.isZero d = true := by
  unfold Factors.isRankDeficient
  rw [Array.any_eq_true]
  constructor
  · rintro ⟨k, hk, htest⟩
    obtain ⟨hfinite, hzero⟩ := (abs_le_zero_mul_iff ht).1 (of_decide_eq_true htest)
    exact ⟨hfinite, k, _, Storage.read_of_lt hk, hzero⟩
  · rintro ⟨hfinite, k, d, hread, hzero⟩
    obtain ⟨hk, rfl⟩ := Array.getElem?_eq_some_iff.1 (Storage.ends_read.of_ok hread)
    exact ⟨k, hk, decide_eq_true ((abs_le_zero_mul_iff ht).2 ⟨hfinite, hzero⟩)⟩

omit [BinaryScalar ρ] in
/-- The diagonal of the triangular factor is the one that is tested. -/
theorem Factors.HasShape.ends_upper_diagonal {f : Factors ρ} (hf : f.HasShape m n (min m n)) :
    Ends Never (fun r => ∀ k < min m n, r.entry k k = Storage.read f.diagonal k) f.upper := by
  refine (hf.upper (E := Never)).self.imp ?_
  rintro r ⟨hr, -⟩ k hk
  obtain ⟨hm, hn⟩ := lt_min_iff.1 hk
  obtain ⟨-, -, -, hentry⟩ := DenseMatrix.tabulate_eq_ok_iff.1 hr
  have hnrows : f.nrows = m := hf.work.ncols
  have hncols : f.ncols = n := hf.work.nrows
  have hdiagonal := hentry k (hnrows ▸ hm) k (hncols ▸ hn)
  rw [if_pos rfl] at hdiagonal
  exact hdiagonal.symm

/-- A solver is not singular if the norm is not finite or the diagonal has no zero. -/
theorem Factors.HasShape.not_isRankDeficient_iff {f : Factors ρ}
    (hf : f.HasShape m n (min m n)) (ht : Scalar.isZero t = true) {r : DenseMatrix ρ}
    (hr : ∀ k < min m n, r.entry k k = Storage.read f.diagonal k) :
    f.isRankDeficient (t * norm) = false ↔
      RealScalar.isFinite norm = false ∨ NonzeroDiagonal r (min m n) := by
  rw [← Bool.not_eq_true, Factors.isRankDeficient_zero_iff ht, not_and_or, Bool.not_eq_true]
  refine or_congr_right ⟨fun h k hk => ?_, fun h => ?_⟩
  · obtain ⟨d, hd⟩ : ∃ d, Storage.read f.diagonal k = .ok d :=
      ⟨_, Storage.read_of_lt (hf.diagonal ▸ hk)⟩
    exact ⟨d, (hr k hk).trans hd, fun hzero => h ⟨k, d, hd, hzero⟩⟩
  · rintro ⟨k, d, hread, hzero⟩
    obtain ⟨hlt, -⟩ := Array.getElem?_eq_some_iff.1 (Storage.ends_read.of_ok hread)
    have hk : k < min m n := hf.diagonal ▸ hlt
    obtain ⟨d', hd', hnonzero⟩ := h k hk
    obtain rfl : d = d' := Except.ok.inj (hread.symm.trans ((hr k hk).symm.trans hd'))
    exact hnonzero hzero

end Test

/-! ### Solving with another division -/

section Division

variable {f : Factors ρ} {div : ρ → ρ → ρ} {minor : ℕ} {d head : ρ}

/-- No solver step divides by zero. -/
def Factors.DivisorsNonzero (f : Factors ρ) (size : ℕ) : Prop :=
  ∀ minor < size, ∃ d head, f.Leaves minor d head ∧ ¬ Scalar.isZero d = true ∧
    ¬ Scalar.isZero (EuclideanScalar.conj d * head) = true

/-- Where the diagonal has no zero, all reflections were made. -/
theorem Factors.AppliesMade.divisorsNonzero [BinaryScalar ρ] [RootScalar ρ] [WideScalar ρ]
    {size : ℕ} (h : f.AppliesMade size) {r : DenseMatrix ρ}
    (hr : ∀ k < size, r.entry k k = Storage.read f.diagonal k) (hnonzero : NonzeroDiagonal r size) :
    f.DivisorsNonzero size := by
  intro minor hminor
  obtain ⟨d, head, hagree⟩ := h.tests minor hminor
  obtain ⟨d', hd', hd⟩ := hnonzero minor hminor
  obtain rfl : d = d' :=
    Except.ok.inj (hagree.read_diagonal.symm.trans ((hr minor hminor).symm.trans hd'))
  refine ⟨d, head, hagree.toLeaves, hd, fun hproduct => ?_⟩
  have hhead : ¬ Scalar.isZero head = true := fun hzero => hd (hagree.made hzero)
  exact hd (hagree.vanishes.2 (hagree.divisor.1 (hagree.dividesByZero_iff.2 ⟨hhead, hproduct⟩)).1)

theorem reflectColumns_withDiv (h : f.Leaves minor d head)
    (hproduct : ¬ Scalar.isZero (EuclideanScalar.conj d * head) = true)
    (hdiv : ∀ x y : ρ, ¬ Scalar.isZero y = true → div x y = x / y) (y : DenseMatrix ρ) :
    @reflectColumns ρ ρ (@RealScalar.toEuclidean ρ (RealScalar.withDiv div)) f y minor =
      reflectColumns f y minor := by
  have hfactor : div 1 (EuclideanScalar.conj d * head) = 1 / (EuclideanScalar.conj d * head) :=
    hdiv _ _ hproduct
  unfold reflectColumns
  rw [h.read_head, h.read_diagonal]
  show (Storage.collect y.ncols _ >>= _) = (Storage.collect y.ncols _ >>= _)
  congr 1
  refine Storage.collect_congr fun j _ => bind_congr fun sum => ?_
  exact congrArg (fun factor => Except.ok (sum * factor)) hfactor

theorem divideRow_withDiv (h : f.Leaves minor d head) (hd : ¬ Scalar.isZero d = true)
    (hdiv : ∀ x y : ρ, ¬ Scalar.isZero y = true → div x y = x / y) (y : DenseMatrix ρ) :
    @divideRow ρ ρ (@RealScalar.toEuclidean ρ (RealScalar.withDiv div)) f y minor =
      divideRow f y minor := by
  have hentries (x : ρ) : div x d = x / d := hdiv x d hd
  unfold divideRow
  rw [h.read_diagonal]
  show y.mapEntries (fun i _ x => .ok (if i = minor then div x d else x)) = _
  simp only [hentries]
  rfl

/-- A solver answers the same with any division that agrees off zero. -/
theorem Solver.solveMatrix_withDiv {s : Solver ρ}
    (h : s.singular = false → s.factors.DivisorsNonzero s.factors.diagonal.size)
    (hdiv : ∀ x y : ρ, ¬ Scalar.isZero y = true → div x y = x / y) (b : MatrixView ρ) :
    @Solver.solveMatrix ρ ρ (@RealScalar.toEuclidean ρ (RealScalar.withDiv div)) s b =
      s.solveMatrix b := by
  rw [@Solver.solveMatrix_eq ρ ρ (@RealScalar.toEuclidean ρ (RealScalar.withDiv div)) s b,
    s.solveMatrix_eq b]
  congr 1
  cases hsingular : s.singular with
  | true => rfl
  | false =>
      have hreflect (y : DenseMatrix ρ) (minor : ℕ)
          (hminor : minor ∈ positions 0 s.factors.diagonal.size) :
          @reflectColumns ρ ρ (@RealScalar.toEuclidean ρ (RealScalar.withDiv div)) s.factors y
            minor = reflectColumns s.factors y minor := by
        obtain ⟨d, head, hleaves, -, hproduct⟩ := h hsingular minor (mem_positions.1 hminor).2
        exact reflectColumns_withDiv hleaves hproduct hdiv y
      have hdivide (y : DenseMatrix ρ) (row : ℕ)
          (hrow : row ∈ (positions 0 s.factors.diagonal.size).reverse) :
          (do eliminateAbove s.factors (← @divideRow ρ ρ
            (@RealScalar.toEuclidean ρ (RealScalar.withDiv div)) s.factors y row) row) =
            (do eliminateAbove s.factors (← divideRow s.factors y row) row) := by
        obtain ⟨d, head, hleaves, hd, -⟩ :=
          h hsingular row (mem_positions.1 (List.mem_reverse.1 hrow)).2
        rw [divideRow_withDiv hleaves hd hdiv y]
      have hback (y : DenseMatrix ρ) :
          @backSubstitute ρ ρ (@RealScalar.toEuclidean ρ (RealScalar.withDiv div)) s.factors y =
            backSubstitute s.factors y := foldlM_congr hdivide y
      refine bind_congr fun y => ?_
      rw [foldlM_congr hreflect]
      refine bind_congr fun y => ?_
      rw [hback]

end Division

/-! ### Decompositions -/

/-- How a solver with a threshold of zero is tested for singularity, and what it divides by; a
solver is run by `other` with another division. -/
structure TestsDiagonal {σ : Type} [LinearSolver σ ρ] (other : (ρ → ρ → ρ) → LinearSolver σ ρ)
    (s : σ) (norm : ρ) (r : DenseMatrix ρ) (size : ℕ) : Prop where
  isNonSingular : LinearSolver.isNonSingular s = true ↔
    RealScalar.isFinite norm = false ∨ NonzeroDiagonal r size
  /-- With a finite norm or no zero on the diagonal nothing is divided by zero. -/
  sameAnswers : RealScalar.isFinite norm = true ∨ NonzeroDiagonal r size →
    ∀ div : ρ → ρ → ρ, (∀ x y : ρ, ¬ Scalar.isZero y = true → div x y = x / y) →
      LinearSolver.SameAnswers (other div) inferInstance s

/-- The solver with another division. -/
@[reducible]
def solverWithDiv (div : ρ → ρ → ρ) : LinearSolver (Solver ρ) ρ :=
  @instLinearSolverSolver ρ ρ (@RealScalar.toEuclidean ρ (RealScalar.withDiv div))

section Decompositions

variable [BinaryScalar ρ] [RootScalar ρ] [WideScalar ρ] {a : MatrixView ρ} {f : Factors ρ}
  {t : ρ} {r : DenseMatrix ρ}

/-- The solver of some factors that record their steps. -/
theorem Factors.Records.testsDiagonal (h : f.Records m n (min m n)) (ht : Scalar.isZero t = true)
    (hr : ∀ k < min m n, r.entry k k = Storage.read f.diagonal k) (norm : ρ) :
    TestsDiagonal solverWithDiv (Solver.of f (t * norm)) norm r (min m n) := by
  have htest : (Solver.of f (t * norm)).singular = false ↔
      RealScalar.isFinite norm = false ∨ NonzeroDiagonal r (min m n) :=
    h.not_isRankDeficient_iff ht hr
  refine ⟨?_, fun hcondition div hdiv => ?_⟩
  · rw [← htest]
    exact iff_of_eq (Bool.not_eq_true' _)
  · have hdivisors (hsingular : (Solver.of f (t * norm)).singular = false) :
        f.DivisorsNonzero f.diagonal.size := by
      rw [h.diagonal]
      refine h.appliesMade.divisorsNonzero hr ?_
      rcases hcondition with hfinite | hnonzero
      · exact (htest.1 hsingular).resolve_left (by simp [hfinite])
      · exact hnonzero
    have hanswer (b : MatrixView ρ) :=
      Solver.solveMatrix_withDiv (s := Solver.of f (t * norm)) hdivisors hdiv b
    exact ⟨hanswer, bind_congr fun identity : DenseMatrix ρ => hanswer identity.view⟩

end Decompositions

end QR

namespace RankRevealingQR

open QR (Factors TestsDiagonal)

variable {ρ : Type} [RealScalar ρ]

/-- The solver with another division. -/
@[reducible]
def solverWithDiv (div : ρ → ρ → ρ) : LinearSolver (Solver ρ) ρ :=
  @instLinearSolverSolver ρ (RealScalar.withDiv div)

/-- Permuting the unknowns changes neither the test nor the divisions. -/
theorem testsDiagonal {s : Solver ρ} {norm : ρ} {r : DenseMatrix ρ} {size : ℕ}
    (h : TestsDiagonal QR.solverWithDiv s.inner norm r size) :
    TestsDiagonal solverWithDiv s norm r size := by
  refine ⟨h.isNonSingular, fun hcondition div hdiv => ?_⟩
  have hinner := (h.sameAnswers hcondition div hdiv).solveMatrix
  have hanswer (b : MatrixView ρ) :
      @Solver.solveMatrix ρ (RealScalar.withDiv div) s b = s.solveMatrix b :=
    congrArg (fun x : Except Failure (DenseMatrix ρ) => x >>= scatterRows s.permutation) (hinner b)
  exact ⟨hanswer, bind_congr fun identity : DenseMatrix ρ => hanswer identity.view⟩

end RankRevealingQR

namespace QR

/-- **When a QR solver calls a matrix non-singular.** With the default threshold, whatever matrix
is decomposed and with column pivoting or without, the solver is not singular exactly if the
Frobenius norm of the matrix is not finite or no diagonal entry of R is zero. With a finite norm,
and also if no diagonal entry is zero, solving and inverting divide by no zero: with any other
division that agrees on the other divisors, the answers are the same. -/
theorem isNonSingular_iff_diagonal {ρ : Type} [RealScalar ρ] [BinaryScalar ρ] [RootScalar ρ]
    [WideScalar ρ] [ZeroThreshold ρ] {a : MatrixView ρ} (ha : a.Readable) :
    ∃ work, Factors.transposed a = .ok work ∧
      (∃ qr r, of a = .ok qr ∧ qr.r = .ok r ∧ qr.norm = work.frobeniusNorm ∧
        TestsDiagonal solverWithDiv qr.solver qr.norm r (min a.nrows a.ncols)) ∧
      ∃ qr r, RankRevealingQR.of a = .ok qr ∧ qr.r = .ok r ∧ qr.norm = work.frobeniusNorm ∧
        TestsDiagonal RankRevealingQR.solverWithDiv qr.solver qr.norm r (min a.nrows a.ncols) := by
  let default : ρ := RealScalar.ofFloat defaultThreshold
  have ht : Scalar.isZero default = true := ZeroThreshold.isZero_default
  obtain ⟨work, hwork, -⟩ :=
    Ends.never_iff.1 (Factors.ends_transposed_shape (E := Never) ha)
  refine ⟨work, hwork, ?plain, ?pivoted⟩
  case plain =>
    obtain ⟨qr, hqr, hrecords⟩ := Ends.never_iff.1 (ends_ofThreshold_records ha default)
    obtain ⟨r, hr, hdiagonal⟩ := Ends.never_iff.1 hrecords.ends_upper_diagonal
    obtain ⟨hthreshold, work', hwork', hnorm⟩ := (ends_ofThreshold_norm a default).of_ok hqr
    obtain rfl : work = work' := Except.ok.inj (hwork.symm.trans hwork')
    have htests := hrecords.testsDiagonal ht hdiagonal qr.norm
    rw [← hthreshold] at htests
    exact ⟨qr, r, hqr, hr, hnorm, htests⟩
  case pivoted =>
    obtain ⟨qr, hqr, hrecords⟩ :=
      Ends.never_iff.1 (RankRevealingQR.ends_ofThreshold_records ha default)
    obtain ⟨r, hr, hdiagonal⟩ := Ends.never_iff.1 hrecords.ends_upper_diagonal
    obtain ⟨hthreshold, work', hwork', hnorm⟩ :=
      (RankRevealingQR.ends_ofThreshold_norm a default).of_ok hqr
    obtain rfl : work = work' := Except.ok.inj (hwork.symm.trans hwork')
    have htests := hrecords.testsDiagonal ht hdiagonal qr.norm
    rw [← hthreshold] at htests
    exact ⟨qr, r, hqr, hr, hnorm, RankRevealingQR.testsDiagonal htests⟩

/-- A matrix of full rank and one with a column of zeros, the second with column pivoting. -/
theorem isNonSingular_iff_diagonal_two :
    (∃ (qr : QR Float32 Float32) (r : DenseMatrix Float32),
      of (.ofMatrix !![(3 : Float32), 1; 4, 2]) = .ok qr ∧ qr.r = .ok r ∧
        TestsDiagonal solverWithDiv qr.solver qr.norm r 2) ∧
    ∃ (qr : RankRevealingQR Float) (r : DenseMatrix Float),
      RankRevealingQR.of (.ofMatrix !![(3 : Float), 0; 4, 0]) = .ok qr ∧ qr.r = .ok r ∧
        TestsDiagonal RankRevealingQR.solverWithDiv qr.solver qr.norm r 2 := by
  constructor
  · obtain ⟨-, -, ⟨qr, r, hqr, hr, -, htests⟩, -⟩ := isNonSingular_iff_diagonal
      (MatrixView.ofMatrix_shows !![(3 : Float32), 1; 4, 2]).readable
    exact ⟨qr, r, hqr, hr, htests⟩
  · obtain ⟨-, -, -, qr, r, hqr, hr, -, htests⟩ := isNonSingular_iff_diagonal
      (MatrixView.ofMatrix_shows !![(3 : Float), 0; 4, 0]).readable
    exact ⟨qr, r, hqr, hr, htests⟩

/-- The square of the one entry that is not zero is infinite. -/
theorem isNonSingular_overflow :
    let m : DenseMatrix Float := ⟨2, 2, #[0, Float.ofBits 0x6974e718d7d7625a, 0, 0]⟩
    Ends Never (fun qr => LinearSolver.isNonSingular qr.solver = true ∧
      Ends Never (fun r => Ends Never (Scalar.isZero · = true) (r.entry 0 0)) qr.r ∧
      Ends Never (fun x => Ends Never (RealScalar.isNaN · = true) (x.entry 0 0))
        (LinearSolver.inverse qr.solver))
      (of (ρ := Float) m.view) := by
  decide +kernel

end QR

end DenseFactor
