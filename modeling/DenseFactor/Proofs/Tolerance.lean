import Mathlib
import DenseFactor.Cholesky.Basic
import DenseFactor.LU.Basic
import DenseFactor.Proofs.Outcome
import DenseFactor.Proofs.QR.Shape
import DenseFactor.Proofs.Scalar.Sign
import DenseFactor.SVD.Basic

/-!
# DenseFactor.Proofs.Tolerance

Tolerances decide **what is accepted**, and never what is computed.

Design points:

* No state records a tolerance. It enters through a comparison that stops the computation or
  lets it go on, so a run that was not stopped is the same run under a weaker limit.
* QR and singular value decompositions do not use theirs while they run. There the tolerance is
  one more field of the result, and the question is only how its tests depend on it.
* A limit that is a multiple of a norm need not grow with its factor if the norm is infinite,
  or be a number. The two lemmas about such limits are in `DenseFactor.Proofs.Scalar.Sign`.
-/

namespace DenseFactor

variable {α ρ : Type} [RealScalar ρ]

/-! ### LU -/

namespace LU

/-- A pivot that reaches a threshold reaches every lower one. -/
theorem keeps_largestModulus [BinaryScalar ρ] [EuclideanScalar α ρ] {t t' : ρ} (hle : t ≤ t')
    (m : DenseMatrix α) (col : ℕ) :
    Keeps (·.isSome = true) (largestModulus t' m col) (largestModulus t m col) := by
  refine Keeps.bind_same fun x => Keeps.bind_same ?_
  rintro ⟨row, size⟩ choice hchoice hsome
  dsimp only at hchoice ⊢
  by_cases hsmall : size < t'
  · rw [if_pos hsmall] at hchoice
    cases hchoice
    exact absurd hsome Bool.false_ne_true
  · have hlarge : ¬ size < t := fun hlt => hsmall (BinaryScalar.lt_of_lt_of_le hlt hle)
    rw [if_neg hlarge]
    rwa [if_neg hsmall] at hchoice

/-- **One step, then all.** A run that no column stops is the same for any rule that chooses the
same rows. -/
theorem Elimination.keeps_run [Scalar α] {rule rule' : PivotRule α}
    (hrule : ∀ m col, Keeps (·.isSome = true) (rule' m col) (rule m col)) (l : List ℕ)
    (s : Elimination α) : Keeps (·.singular = false) (run rule' l s) (run rule l s) := by
  induction l generalizing s with
  | nil => exact .refl _ _
  | cons col l ih =>
      rw [run, run]
      refine (hrule s.packed col).bind ?_ ?_
      · intro choice hsome
        obtain ⟨row, rfl⟩ := Option.isSome_iff_exists.1 hsome
        exact .bind_same ih
      · -- a rejected column marks the result, which then need not be kept
        intro choice s' hnone hs' hregular
        rw [Option.not_isSome_iff_eq_none] at hnone
        subst hnone
        cases hs'
        exact Bool.false_ne_true hregular.symm

theorem keeps_ofRule [Scalar α] {rule rule' : PivotRule α}
    (hrule : ∀ m col, Keeps (·.isSome = true) (rule' m col) (rule m col))
    (threshold : Option Float) (a : MatrixView α) :
    Keeps (·.isSingular = false) (ofRule rule' threshold a) (ofRule rule threshold a) := by
  unfold ofRule
  by_cases hsquare : a.nrows = a.ncols
  · rw [if_neg (not_not.2 hsquare), if_neg (not_not.2 hsquare)]
    refine .bind_same fun m => ?_
    refine (Elimination.keeps_run hrule _ _).bind (fun _ _ => .refl _ _) ?_
    rintro s lu hsingular ⟨⟩
    exact hsingular
  · rw [if_pos hsquare, if_pos hsquare]
    exact .refl _ _

/-- The recorded threshold takes no part in the elimination. -/
theorem ofRule_eq_map [Scalar α] (rule : PivotRule α) (threshold threshold' : Option Float)
    (a : MatrixView α) :
    ofRule rule threshold a =
      (fun lu => { lu with threshold }) <$> ofRule rule threshold' a := by
  unfold ofRule
  by_cases hsquare : a.nrows = a.ncols
  · rw [if_neg (not_not.2 hsquare), if_neg (not_not.2 hsquare)]
    simp only [map_bind, map_pure]
  · rw [if_pos hsquare, if_pos hsquare]
    rfl

/-- A matrix that is not singular has the same decomposition under a lower threshold. -/
theorem ofThreshold_of_le [BinaryScalar ρ] [EuclideanScalar α ρ] {t t' : ρ} (hle : t ≤ t')
    {a : MatrixView α} {lu : LU α} (hlu : ofThreshold t' a = .ok lu)
    (hregular : lu.isSingular = false) :
    ofThreshold t a = .ok { lu with threshold := some (RealScalar.toFloat t) } := by
  have hsame := keeps_ofRule (keeps_largestModulus hle) _ a lu hlu hregular
  rw [ofThreshold, ofRule_eq_map _ _ (some (RealScalar.toFloat t')), hsame]
  rfl

end LU

/-! ### QR -/

namespace QR

/-- What is not deficient by a tolerance is not by a smaller one. -/
theorem Factors.isRankDeficient_of_le [BinaryScalar ρ] [EuclideanScalar α ρ] [SizedScalar α]
    {f : Factors α} {t t' norm : ρ} (hfinite : RealScalar.isFinite t = true)
    (hfinite' : RealScalar.isFinite t' = true) (hle : t ≤ t') (hnorm : ¬ norm < 0)
    (h : f.isRankDeficient (t' * norm) = false) : f.isRankDeficient (t * norm) = false := by
  unfold isRankDeficient at h ⊢
  rw [Array.any_eq_false] at h ⊢
  intro i hi hwithin
  refine h i hi ?_
  rw [decide_eq_true_iff] at hwithin ⊢
  exact BinaryScalar.le_mul_of_factor_le hfinite hfinite' hle hnorm
    (SizedScalar.modulus_not_neg _) hwithin

theorem Solver.of_eq_of_le [BinaryScalar ρ] [EuclideanScalar α ρ] [SizedScalar α]
    {f : Factors α} {t t' norm : ρ} (hfinite : RealScalar.isFinite t = true)
    (hfinite' : RealScalar.isFinite t' = true) (hle : t ≤ t') (hnorm : ¬ norm < 0)
    (h : (of f (t' * norm)).singular = false) : of f (t * norm) = of f (t' * norm) := by
  have hregular : f.isRankDeficient (t' * norm) = false := h
  rw [of, of, hregular, Factors.isRankDeficient_of_le hfinite hfinite' hle hnorm hregular]

variable [EuclideanScalar α ρ]

/-- The tolerance takes no part in the reduction. -/
theorem ofThreshold_eq_map (t t' : ρ) (a : MatrixView α) :
    ofThreshold t a = (fun qr => { qr with threshold := t }) <$> ofThreshold t' a := by
  simp only [ofThreshold, map_bind, map_pure]

/-- A solver that does not refuse is the same under a smaller tolerance. -/
theorem solver_of_le [BinaryScalar ρ] [RootScalar ρ] [SizedScalar α] {t t' : ρ}
    (hfinite : RealScalar.isFinite t = true) (hfinite' : RealScalar.isFinite t' = true)
    (hle : t ≤ t') {a : MatrixView α} {qr : QR α ρ} (hqr : ofThreshold t' a = .ok qr)
    (hregular : qr.solver.singular = false) :
    ofThreshold t a = .ok { qr with threshold := t } ∧
      solver { qr with threshold := t } = qr.solver := by
  obtain ⟨hthreshold, work, -, hwork⟩ := (ends_ofThreshold_norm a t').of_ok hqr
  have hnorm : ¬ qr.norm < 0 := hwork ▸ BinaryScalar.sqrt_not_neg _
  have hregular' : (Solver.of qr.factors (t' * qr.norm)).singular = false :=
    hthreshold ▸ hregular
  constructor
  · rw [ofThreshold_eq_map t t', hqr]
    rfl
  · rw [solver, solver, hthreshold]
    exact Solver.of_eq_of_le hfinite hfinite' hle hnorm hregular'

end QR

/-! ### Rank-revealing QR -/

namespace RankRevealingQR

theorem ofThreshold_eq_map (t t' : ρ) (a : MatrixView ρ) :
    ofThreshold t a = (fun qr => { qr with threshold := t }) <$> ofThreshold t' a := by
  simp only [ofThreshold, map_bind, map_pure]

/-- A solver that does not refuse is the same under a smaller tolerance. -/
theorem solver_of_le [BinaryScalar ρ] [RootScalar ρ] {t t' : ρ}
    (hfinite : RealScalar.isFinite t = true) (hfinite' : RealScalar.isFinite t' = true)
    (hle : t ≤ t') {a : MatrixView ρ} {qr : RankRevealingQR ρ} (hqr : ofThreshold t' a = .ok qr)
    (hregular : qr.solver.inner.singular = false) :
    ofThreshold t a = .ok { qr with threshold := t } ∧
      solver { qr with threshold := t } = qr.solver := by
  obtain ⟨hthreshold, work, -, hwork⟩ := (ends_ofThreshold_norm a t').of_ok hqr
  have hnorm : ¬ qr.norm < 0 := hwork ▸ BinaryScalar.sqrt_not_neg _
  have hregular' : (QR.Solver.of qr.factors (t' * qr.norm)).singular = false :=
    hthreshold ▸ hregular
  constructor
  · rw [ofThreshold_eq_map t t', hqr]
    rfl
  · rw [solver, solver, hthreshold, QR.Solver.of_eq_of_le hfinite hfinite' hle hnorm hregular']

/-- The candidate is the least rank there can be. -/
theorem ends_rankFrom_ge (r : DenseMatrix ρ) (drop norm : ρ) (rank : ℕ) (last : ρ) :
    Ends Always (rank ≤ ·) (rankFrom r drop norm rank last) := by
  induction rank, last using rankFrom.induct r with
  | case1 rank last hlt ih =>
      rw [rankFrom, dif_pos hlt]
      refine Ends.always.bind fun block _ => ?_
      dsimp only
      split_ifs
      · exact le_rfl
      · exact (ih block).imp fun k hk => (Nat.le_succ rank).trans hk
  | case2 rank last hlt =>
      rw [rankFrom, dif_neg hlt]
      exact le_rfl

/-- A norm that drops below a threshold drops below every larger one. -/
theorem rankFrom_antitone [BinaryScalar ρ] {drop drop' : ρ} (hle : drop ≤ drop')
    {r : DenseMatrix ρ} {norm : ρ} {rank : ℕ} {last : ρ} {k k' : ℕ}
    (hk : rankFrom r drop norm rank last = .ok k)
    (hk' : rankFrom r drop' norm rank last = .ok k') : k' ≤ k := by
  induction rank, last using rankFrom.induct r with
  | case1 rank last hlt ih =>
      have hleast := (ends_rankFrom_ge r drop norm rank last).of_ok hk
      rw [rankFrom, dif_pos hlt] at hk hk'
      cases hblock : r.block rank (r.nrows - 1) rank (r.ncols - 1) with
      | error e =>
          rw [hblock] at hk
          cases hk
      | ok block =>
          rw [hblock] at hk hk'
          simp only [bind, Except.bind, Bool.or_eq_true, decide_eq_true_iff] at hk hk'
          by_cases hstop' : (block.frobeniusNorm == 0) = true ∨
              block.frobeniusNorm / last * norm < drop'
          · -- the count with the larger threshold ends here, the other one not earlier
            rw [if_pos hstop'] at hk'
            cases hk'
            exact hleast
          · have hstop : ¬ ((block.frobeniusNorm == 0) = true ∨
                block.frobeniusNorm / last * norm < drop) := by
              rintro (hzero | hdrops)
              · exact hstop' (.inl hzero)
              · exact hstop' (.inr (BinaryScalar.lt_of_lt_of_le hdrops hle))
            rw [if_neg hstop] at hk
            rw [if_neg hstop'] at hk'
            exact ih block hk hk'
  | case2 rank last hlt =>
      rw [rankFrom, dif_neg hlt] at hk hk'
      cases hk
      cases hk'
      exact le_rfl

/-- Both ranks of a decomposition exist, and the one with the larger threshold is not larger. -/
theorem rank_antitone [BinaryScalar ρ] {drop drop' : ρ} (hle : drop ≤ drop') {t : ρ}
    {a : MatrixView ρ} {qr : RankRevealingQR ρ} (hqr : ofThreshold t a = .ok qr) :
    ∃ k k', qr.rank drop = .ok k ∧ qr.rank drop' = .ok k' ∧ k' ≤ k := by
  have ha : a.Readable := (ends_ofThreshold_readable t).of_ok hqr
  obtain ⟨hshape, -⟩ := (ends_ofThreshold_shape (E := Never) ha t).of_ok hqr
  obtain ⟨k, hk, -⟩ := Ends.never_iff.1 (failsOnly_rank hshape drop)
  obtain ⟨k', hk', -⟩ := Ends.never_iff.1 (failsOnly_rank hshape drop')
  refine ⟨k, k', hk, hk', ?_⟩
  unfold rank at hk hk'
  cases hr : qr.r with
  | error e =>
      rw [hr] at hk
      cases hk
  | ok r =>
      rw [hr] at hk hk'
      exact rankFrom_antitone hle hk hk'

end RankRevealingQR

/-! ### Cholesky -/

namespace Cholesky

/-- A pair that differs too much differs too much for every smaller tolerance. -/
theorem isAsymmetric_of_le [BinaryScalar ρ] {s s' : ρ} (hfinite : RealScalar.isFinite s = true)
    (hfinite' : RealScalar.isFinite s' = true) (hle : s ≤ s') {x y : ρ}
    (h : isAsymmetric s x y = false) : isAsymmetric s' x y = false := by
  unfold isAsymmetric at h ⊢
  rw [decide_eq_false_iff_not] at h ⊢
  have hsize := RealScalar.maximum_not_neg (BinaryScalar.abs_not_neg x)
    (BinaryScalar.abs_not_neg y)
  exact fun hlt => h (BinaryScalar.mul_lt_of_factor_le hfinite hfinite' hle hsize hlt)

theorem symmetric_of_le [BinaryScalar ρ] {s s' : ρ} (hfinite : RealScalar.isFinite s = true)
    (hfinite' : RealScalar.isFinite s' = true) (hle : s ≤ s') {m : DenseMatrix ρ}
    (h : firstAsymmetry? m s = .ok none) : firstAsymmetry? m s' = .ok none := by
  refine Keeps.findSomeM? (fun i => ?_) _ none h rfl
  refine Keeps.bind (.findM? (fun j => ?_) _) (fun _ _ => .refl _ _) ?_
  · refine Keeps.bind_same fun x => Keeps.bind_same fun y b hb hfalse => ?_
    cases hb
    exact congrArg Except.ok ((isAsymmetric_of_le hfinite hfinite' hle hfalse).trans hfalse.symm)
  · intro col found hcol hfound hnone
    cases hfound
    exact hcol (Option.map_eq_none_iff.1 hnone)

/-- A pivot that exceeds a threshold exceeds every lower one. -/
theorem keeps_step [BinaryScalar ρ] {p p' : ρ} (hle : p ≤ p') (m : DenseMatrix ρ) (i : ℕ) :
    Keeps (fun _ => True) (step p' m i) (step p m i) := by
  refine Keeps.bind_same fun pivot => ?_
  by_cases hpivot : p' < pivot
  · rw [if_pos hpivot, if_pos (BinaryScalar.lt_of_le_of_lt hle hpivot)]
    exact .refl _ _
  · rw [if_neg hpivot]
    rintro m' ⟨⟩

/-- What is accepted is accepted by weaker tests, with the same factor. -/
theorem keeps_ofThresholds [BinaryScalar ρ] {s s' p p' : ρ}
    (hfinite : RealScalar.isFinite s = true) (hfinite' : RealScalar.isFinite s' = true)
    (hs : s ≤ s') (hp : p ≤ p') (a : MatrixView ρ) :
    Keeps (fun _ => True) (ofThresholds s p' a) (ofThresholds s' p a) := by
  unfold ofThresholds
  by_cases hsquare : a.nrows = a.ncols
  · rw [if_neg (not_not.2 hsquare), if_neg (not_not.2 hsquare)]
    refine .bind_same fun m => Keeps.bind (P := (· = none)) ?_ ?_ ?_
    · rintro _ hsymmetric rfl
      exact symmetric_of_le hfinite hfinite' hs hsymmetric
    · rintro _ rfl
      refine .bind_same fun upper => ?_
      exact (Keeps.foldlM (keeps_step hp) _ _).bind_all fun _ => .refl _ _
    · rintro (_ | ⟨row, col⟩) c hfound hc
      · exact absurd rfl hfound
      · cases hc
  · rw [if_pos hsquare, if_pos hsquare]
    exact .refl _ _

end Cholesky

/-! ### Singular values -/

namespace SVD

theorem ofTolerance_eq_map (t t' : ρ) (a : MatrixView ρ) :
    ofTolerance t a = (fun s => { s with tolerance := t }) <$> ofTolerance t' a := by
  simp only [ofTolerance, ofTolerance?, map_bind, map_pure, Option.getD_some]

/-- Fewer of the same singular values are above a larger tolerance. -/
theorem rank_antitone [BinaryScalar ρ] {t t' : ρ} (hle : t ≤ t') {a : MatrixView ρ} {s : SVD ρ}
    (hs : ofTolerance t a = .ok s) :
    ∃ s', ofTolerance t' a = .ok s' ∧ s'.u = s.u ∧ s'.values = s.values ∧ s'.v = s.v ∧
      s'.rank ≤ s.rank := by
  have htolerance : s.tolerance = t := by
    have hself := ofTolerance_eq_map t t a
    rw [hs] at hself
    exact congrArg tolerance (Except.ok.inj hself)
  refine ⟨{ s with tolerance := t' }, ?_, rfl, rfl, rfl, ?_⟩
  · rw [ofTolerance_eq_map t' t, hs]
    rfl
  · refine Array.countP_mono_left fun x _ hx => ?_
    rw [decide_eq_true_iff] at hx ⊢
    exact htolerance ▸ BinaryScalar.lt_of_le_of_lt hle hx

end SVD

/-! ### All decompositions -/

/-- **Tolerances decide acceptance and never the factors.** An LU decomposition that is not
singular by a threshold is not by a lower one, with the same pivots, factors and determinant. A
QR solver, with or without column pivoting, that does not refuse by a tolerance does not by a
smaller one, with the same factors; it is the same solver and gives the same solutions. A
Cholesky decomposition under stricter tests is the one under weaker tests. The factors of a
singular value decomposition do not depend on the tolerance, and its rank does not grow with it,
nor does that of a rank-revealing QR decomposition with its threshold. No entry of the matrix
has to be a number, and a norm may be infinite or a NaN. -/
theorem tolerances_decideAcceptance [BinaryScalar ρ] [RootScalar ρ] :
    (∀ {α : Type} [EuclideanScalar α ρ] {t t' : ρ}, t ≤ t' → ∀ (a : MatrixView α) (lu' : LU α),
      LU.ofThreshold t' a = .ok lu' → lu'.isSingular = false →
      ∃ lu, LU.ofThreshold t a = .ok lu ∧ lu.isSingular = false ∧ lu.pivot = lu'.pivot ∧
        lu.lower? = lu'.lower? ∧ lu.upper? = lu'.upper? ∧ lu.det = lu'.det) ∧
    (∀ {α : Type} [EuclideanScalar α ρ] [SizedScalar α] {t t' : ρ},
      RealScalar.isFinite t = true → RealScalar.isFinite t' = true → t ≤ t' →
      ∀ (a : MatrixView α) (qr' : QR α ρ),
      QR.ofThreshold t' a = .ok qr' → LinearSolver.isNonSingular qr'.solver = true →
      ∃ qr, QR.ofThreshold t a = .ok qr ∧ LinearSolver.isNonSingular qr.solver = true ∧
        qr.q = qr'.q ∧ qr.r = qr'.r ∧ qr.h = qr'.h ∧ qr.solver = qr'.solver) ∧
    (∀ {t t' : ρ},
      RealScalar.isFinite t = true → RealScalar.isFinite t' = true → t ≤ t' →
      ∀ (a : MatrixView ρ) (qr' : RankRevealingQR ρ),
      RankRevealingQR.ofThreshold t' a = .ok qr' → LinearSolver.isNonSingular qr'.solver = true →
      ∃ qr, RankRevealingQR.ofThreshold t a = .ok qr ∧
        LinearSolver.isNonSingular qr.solver = true ∧ qr.permutation = qr'.permutation ∧
        qr.q = qr'.q ∧ qr.r = qr'.r ∧ qr.h = qr'.h ∧ qr.solver = qr'.solver) ∧
    (∀ {s s' p p' : ρ}, RealScalar.isFinite s = true → RealScalar.isFinite s' = true →
      s ≤ s' → p ≤ p' → ∀ (a : MatrixView ρ) (ch : Cholesky ρ),
      Cholesky.ofThresholds s p' a = .ok ch → Cholesky.ofThresholds s' p a = .ok ch) ∧
    (∀ {t t' : ρ}, t ≤ t' → ∀ (a : MatrixView ρ) (svd : SVD ρ), SVD.ofTolerance t a = .ok svd →
      ∃ svd', SVD.ofTolerance t' a = .ok svd' ∧ svd'.u = svd.u ∧ svd'.values = svd.values ∧
        svd'.v = svd.v ∧ svd'.rank ≤ svd.rank) ∧
    ∀ {drop drop' : ρ}, drop ≤ drop' → ∀ (t : ρ) (a : MatrixView ρ) (qr : RankRevealingQR ρ),
      RankRevealingQR.ofThreshold t a = .ok qr →
      ∃ k k', qr.rank drop = .ok k ∧ qr.rank drop' = .ok k' ∧ k' ≤ k := by
  refine ⟨?lu, ?qr, ?rrqr, ?cholesky, ?svd, ?rank⟩
  case lu =>
    intro α _ t t' hle a lu' hlu' hregular
    exact ⟨_, LU.ofThreshold_of_le hle hlu' hregular, hregular, rfl, rfl, rfl, rfl⟩
  case qr =>
    intro α _ _ t t' hfinite hfinite' hle a qr' hqr' hregular
    have hsingular : qr'.solver.singular = false := by
      simpa [LinearSolver.isNonSingular] using hregular
    obtain ⟨hqr, hsolver⟩ := QR.solver_of_le hfinite hfinite' hle hqr' hsingular
    exact ⟨_, hqr, hsolver ▸ hregular, rfl, rfl, rfl, hsolver⟩
  case rrqr =>
    intro t t' hfinite hfinite' hle a qr' hqr' hregular
    have hsingular : qr'.solver.inner.singular = false := by
      simpa [LinearSolver.isNonSingular] using hregular
    obtain ⟨hqr, hsolver⟩ := RankRevealingQR.solver_of_le hfinite hfinite' hle hqr' hsingular
    exact ⟨_, hqr, hsolver ▸ hregular, rfl, rfl, rfl, rfl, hsolver⟩
  case cholesky =>
    intro s s' p p' hfinite hfinite' hs hp a ch hch
    exact Cholesky.keeps_ofThresholds hfinite hfinite' hs hp a ch hch trivial
  case svd =>
    intro t t' hle a svd hsvd
    exact SVD.rank_antitone hle hsvd
  case rank =>
    intro drop drop' hle t a qr hqr
    exact RankRevealingQR.rank_antitone hle hqr

/-- Both tolerances for a complex matrix, a positive definite one and a row with a NaN. -/
theorem tolerances_decideAcceptance_square_and_row :
    let complex : DenseMatrix (Cartesian Float32) := ⟨2, 2, #[⟨3, 4⟩, 1, 1, ⟨0, 2⟩]⟩
    let square : DenseMatrix Float := ⟨2, 2, #[4, 1, 1, 3]⟩
    let row : DenseMatrix Float := ⟨1, 2, #[RealScalar.nan, 1]⟩
    Ends Never (fun lu' => ∃ lu, LU.ofThreshold (0 : Float32) complex.view = .ok lu ∧
        lu.pivot = lu'.pivot ∧ lu.upper? = lu'.upper? ∧ lu.det = lu'.det)
      (LU.ofThreshold (1 : Float32) complex.view) ∧
    Ends Never (fun qr' => ∃ qr, QR.ofThreshold (0 : Float32) complex.view = .ok qr ∧
        qr.r = qr'.r ∧ qr.solver = qr'.solver)
      (QR.ofThreshold (1 / 4 : Float32) complex.view) ∧
    Ends Never (fun qr' => ∃ qr, RankRevealingQR.ofThreshold (0 : Float) square.view = .ok qr ∧
        qr.solver = qr'.solver ∧ ∃ k k', qr.rank 0 = .ok k ∧ qr.rank 3 = .ok k' ∧ k' ≤ k)
      (RankRevealingQR.ofThreshold (1 / 4 : Float) square.view) ∧
    Ends Never (Cholesky.ofThresholds 1 0 square.view = .ok ·)
      (Cholesky.ofThresholds 0 1 square.view) ∧
    Ends Never (fun svd => ∃ svd', SVD.ofTolerance 4 row.view = .ok svd' ∧ svd'.rank ≤ svd.rank)
      (SVD.ofTolerance 0 row.view) := by
  intro complex square row
  obtain ⟨hlu, hqr, -⟩ := @tolerances_decideAcceptance Float32 _ _ _
  obtain ⟨-, -, hrrqr, hcholesky, hsvd, hrank⟩ := @tolerances_decideAcceptance Float _ _ _
  refine ⟨?lu, ?qr, ?rrqr, ?cholesky, ?svd⟩
  case lu =>
    have hregular : Ends Never (·.isSingular = false)
        (LU.ofThreshold (1 : Float32) complex.view) := by
      decide +kernel
    refine hregular.self.imp ?_
    rintro lu' ⟨hlu', hregular⟩
    obtain ⟨lu, hok, -, hpivot, -, hupper, hdet⟩ :=
      hlu (t := 0) (by decide +kernel) complex.view lu' hlu' hregular
    exact ⟨lu, hok, hpivot, hupper, hdet⟩
  case qr =>
    have hregular : Ends Never (fun qr => LinearSolver.isNonSingular qr.solver = true)
        (QR.ofThreshold (1 / 4 : Float32) complex.view) := by
      decide +kernel
    refine hregular.self.imp ?_
    rintro qr' ⟨hqr', hregular⟩
    obtain ⟨qr, hok, -, -, hr, -, hsolver⟩ := hqr (t := 0) (by decide +kernel)
      (by decide +kernel) (by decide +kernel) complex.view qr' hqr' hregular
    exact ⟨qr, hok, hr, hsolver⟩
  case rrqr =>
    have hregular : Ends Never (fun qr => LinearSolver.isNonSingular qr.solver = true)
        (RankRevealingQR.ofThreshold (1 / 4 : Float) square.view) := by
      decide +kernel
    refine hregular.self.imp ?_
    rintro qr' ⟨hqr', hregular⟩
    obtain ⟨qr, hok, -, -, -, -, -, hsolver⟩ := hrrqr (t := 0) (by decide +kernel)
      (by decide +kernel) (by decide +kernel) square.view qr' hqr' hregular
    exact ⟨qr, hok, hsolver, hrank (by decide +kernel) 0 square.view qr hok⟩
  case cholesky =>
    have haccepted : Ends Never (fun _ => True) (Cholesky.ofThresholds 0 1 square.view) := by
      decide +kernel
    refine haccepted.self.imp ?_
    rintro ch ⟨hch, -⟩
    exact hcholesky (by decide +kernel) (by decide +kernel) (by decide +kernel)
      (by decide +kernel) square.view ch hch
  case svd =>
    have hvalues : Ends Never (fun _ => True) (SVD.ofTolerance 0 row.view) := by decide +kernel
    refine hvalues.self.imp ?_
    rintro svd ⟨hok, -⟩
    obtain ⟨svd', hok', -, -, -, hrank⟩ :=
      @hsvd 0 4 (by decide +kernel) row.view svd hok
    exact ⟨svd', hok', hrank⟩

end DenseFactor
