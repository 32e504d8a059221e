import Mathlib
import DenseFactor.Proofs.Product
import DenseFactor.Proofs.PseudoInverse
import DenseFactor.Proofs.SVD.Factorization
import DenseFactor.Proofs.SVD.Memo

/-!
# DenseFactor.Proofs.SVD.PseudoInverse

The pseudo-inverse and the solver of a singular value decomposition over exact real
elements.

Design points:

* Nothing is asked of where a decomposition comes from: its factors have orthonormal
  columns, there is a value for each, and the tolerance is not negative. The values that
  exceed it are then positive, and the others do not matter.
* The values that exceed the tolerance make the matrix `truncated`. The loop that scales the
  columns of `V` inverts exactly these, so the product with `Uᵀ` is the pseudo-inverse of
  that matrix and the count of them is its rank.
-/

namespace DenseFactor.SVD

open ExactScalar (value)
open scoped Matrix

variable {ρ : Type} [RealScalar ρ] [ExactReal ρ] {m n p : ℕ} {E : Failure → Prop} {s : SVD ρ}
  {U : Matrix (Fin m) (Fin p) ρ} {V : Matrix (Fin n) (Fin p) ρ}

noncomputable section

/-- The singular values as numbers. -/
def singular (s : SVD ρ) (i : Fin p) : ℝ := reals s.values i

/-- The inverses of the singular values above the tolerance. -/
def inverted (s : SVD ρ) (i : Fin p) : ℝ :=
  if value s.tolerance < s.singular i then (s.singular i)⁻¹ else 0

/-- The matrix that a decomposition stands for: the sum of `σᵢ · uᵢ · vᵢᵀ` over the singular
values above the tolerance. -/
def represented (s : SVD ρ) (U : Matrix (Fin m) (Fin p) ρ) (V : Matrix (Fin n) (Fin p) ρ) :
    Matrix (Fin m) (Fin n) ℝ :=
  truncated (value s.tolerance) (U.map value) (V.map value) s.singular

/-- A value above the tolerance is inverted, any other is taken for zero. -/
theorem ends_factor (s : SVD ρ) (hsize : s.values.size = p) {j : Fin p}
    (hkept : value s.tolerance < s.singular j → s.singular j ≠ 0) (x : ρ) :
    Ends E (fun y => value y = value x * s.inverted j)
      (do
        let σ ← Storage.read s.values j
        return x * (if s.tolerance < σ then 1 / σ else 0)) := by
  have hj : (j : ℕ) < s.values.size := hsize ▸ j.isLt
  refine (ends_read hj).bind fun σ hσ => Ends.pure_iff.2 ?_
  have hiff : s.tolerance < σ ↔ value s.tolerance < s.singular j := by
    rw [ExactReal.lt_iff, hσ, singular]
  rw [ExactScalar.value_mul]
  by_cases hlt : s.tolerance < σ
  · have hne : value σ ≠ 0 := hσ ▸ hkept (hiff.1 hlt)
    rw [if_pos hlt, inverted, if_pos (hiff.1 hlt), ExactScalar.value_div _ _ hne,
      ExactScalar.value_one', one_div, hσ, singular]
  · rw [if_neg hlt, inverted, if_neg (hiff.not.1 hlt), ExactScalar.value_zero']

/-- What is computed for the pseudo-inverse is the sum of `σᵢ⁻¹ · vᵢ · uᵢᵀ`, if no value that
is kept is zero. -/
theorem ends_pseudoInverse_of_ne (hsize : s.values.size = p)
    (hkept : ∀ j : Fin p, value s.tolerance < s.singular j → s.singular j ≠ 0)
    (hu : s.u.Stores U) (hv : s.v.Stores V) :
    Ends E (fun pinv => ∃ P : Matrix (Fin n) (Fin m) ρ, pinv.Stores P ∧
      P.map value = spectral (V.map value) (U.map value) s.inverted) s.pseudoInverse := by
  have hscaled (i : Fin n) (j : Fin p) :
      Ends E (fun y => value y = (V.map value * Matrix.diagonal (s.inverted (p := p))) i j)
        (do
          let σ ← Storage.read s.values j
          return V i j * (if s.tolerance < σ then 1 / σ else 0)) := by
    rw [Matrix.mul_diagonal, Matrix.map_apply]
    exact ends_factor s hsize (hkept j) (V i j)
  unfold SVD.pseudoInverse
  refine (Ends.mapEntries_map hv hscaled).bind ?_
  rintro scaled ⟨W, hW, hvalues⟩
  refine (hW.mulTranspose hu).imp ?_
  rintro pinv ⟨P, hP, hproduct⟩
  refine ⟨P, hP, ?_⟩
  rw [hproduct, hvalues, spectral]

/-- A tolerance that is not negative keeps positive values only. -/
theorem ends_pseudoInverse (htolerance : 0 ≤ value s.tolerance) (hsize : s.values.size = p)
    (hu : s.u.Stores U) (hv : s.v.Stores V) :
    Ends E (fun pinv => ∃ P : Matrix (Fin n) (Fin m) ρ, pinv.Stores P ∧
      P.map value = spectral (V.map value) (U.map value) s.inverted) s.pseudoInverse :=
  ends_pseudoInverse_of_ne hsize (fun _ hlt => (htolerance.trans_lt hlt).ne') hu hv

/-- Inverting the values above the tolerance gives the pseudo-inverse. -/
theorem isPseudoInverse_represented (htolerance : 0 ≤ value s.tolerance)
    (hU : (U.map value)ᵀ * U.map value = 1) (hV : (V.map value)ᵀ * V.map value = 1) :
    IsPseudoInverse (s.represented U V) (spectral (V.map value) (U.map value) s.inverted) := by
  rw [represented, truncated_eq_spectral]
  refine isPseudoInverse_spectral hU hV (fun i => ?_) fun i => ?_
  · by_cases hlt : value s.tolerance < s.singular i
    · have hne : s.singular i ≠ 0 := (htolerance.trans_lt hlt).ne'
      rw [if_pos hlt, inverted, if_pos hlt, mul_inv_cancel₀ hne, one_mul]
    · rw [if_neg hlt, mul_zero]
  · by_cases hlt : value s.tolerance < s.singular i
    · have hne : s.singular i ≠ 0 := (htolerance.trans_lt hlt).ne'
      rw [if_pos hlt, inverted, if_pos hlt, inv_mul_cancel₀ hne, one_mul]
    · rw [inverted, if_neg hlt, mul_zero]

/-- Counting the elements of a run counts their positions. -/
theorem countP_eq_card {α : Type} {xs : Array α} {x : Fin p → α} (hsize : xs.size = p)
    (hx : ∀ i : Fin p, xs[(i : ℕ)]? = some (x i)) (q : α → Bool) :
    xs.countP q = Fintype.card { i : Fin p // q (x i) = true } := by
  subst hsize
  have hlist : xs.toList = List.ofFn x := by
    rw [← @List.ofFn_getElem _ xs.toList]
    congr 1
    funext i
    have hi := hx i
    rw [Array.getElem?_eq_getElem i.isLt] at hi
    exact Option.some.inj hi
  have hcount : (List.ofFn x).countP q =
      Multiset.countP (q · = true) (Multiset.ofList (List.ofFn x)) := by
    rw [Multiset.coe_countP]
    simp
  rw [← Array.countP_toList, hlist, hcount, ← Fin.univ_val_map, Multiset.countP_map,
    Fintype.card_subtype]
  rfl

/-- The rank is the rank of the matrix that the decomposition stands for. -/
theorem rank_eq (htolerance : 0 ≤ value s.tolerance) (hsize : s.values.size = p)
    (hU : (U.map value)ᵀ * U.map value = 1) (hV : (V.map value)ᵀ * V.map value = 1) :
    s.rank = (s.represented U V).rank := by
  have hcount : s.rank = Fintype.card { i : Fin p // value s.tolerance < s.singular i } := by
    have hx (i : Fin p) : s.values[(i : ℕ)]? = some (s.values.getD i 0) := by
      have hi : (i : ℕ) < s.values.size := hsize ▸ i.isLt
      rw [Array.getD_eq_getD_getElem?, Array.getElem?_eq_getElem hi, Option.getD_some]
    rw [SVD.rank, countP_eq_card hsize hx]
    refine Fintype.card_congr (Equiv.subtypeEquivRight fun i => ?_)
    rw [decide_eq_true_iff, ExactReal.lt_iff, singular, reals]
  have hne (i : Fin p) : (if value s.tolerance < s.singular i then s.singular i else 0) ≠ 0 ↔
      value s.tolerance < s.singular i := by
    by_cases hlt : value s.tolerance < s.singular i
    · simp [hlt, (htolerance.trans_lt hlt).ne']
    · simp [hlt]
  rw [represented, truncated_eq_spectral, rank_spectral hU hV, hcount]
  exact Fintype.card_congr (Equiv.subtypeEquivRight fun i => (hne i).symm)

/-- A decomposition is of full rank if its matrix is square and the rank that of its rows. -/
theorem isFullRank_iff (htolerance : 0 ≤ value s.tolerance) (hsize : s.values.size = p)
    (hu : s.u.Stores U) (hv : s.v.Stores V) (hU : (U.map value)ᵀ * U.map value = 1)
    (hV : (V.map value)ᵀ * V.map value = 1) : s.isFullRank = true ↔ m = n ∧ n = s.rank := by
  have hrank := rank_eq htolerance hsize hU hV
  have hheight := Matrix.rank_le_height (s.represented U V)
  have hwidth := Matrix.rank_le_width (s.represented U V)
  rw [isFullRank, beq_iff_eq, hu.nrows, hv.nrows]
  omega

/-- **The pseudo-inverse, the rank and the solver** of a decomposition with orthonormal
factors and a tolerance that is not negative, in terms of the sum of `σᵢ · uᵢ · vᵢᵀ` over the
singular values above the tolerance. Whatever was asked before, the solver that takes the
place of the decomposition is the same. -/
theorem solver_solves_represented (hu : s.u.Stores U) (hv : s.v.Stores V)
    (hsize : s.values.size = p) (hU : (U.map value)ᵀ * U.map value = 1)
    (hV : (V.map value)ᵀ * V.map value = 1) (htolerance : 0 ≤ value s.tolerance) :
    ∃ (pinv : DenseMatrix ρ) (P : Matrix (Fin n) (Fin m) ρ) (solver : Solver ρ),
      (s.pseudoInverse = .ok pinv ∧ pinv.Stores P ∧
        IsPseudoInverse (s.represented U V) (P.map value)) ∧
      s.rank = (s.represented U V).rank ∧
      s.solver = .ok solver ∧
      (LinearSolver.isNonSingular solver = true ↔ m = n ∧ n = s.rank) ∧
      (∀ (c : ℕ) (b : MatrixView ρ) (B : Matrix (Fin m) (Fin c) ρ), b.Shows B →
        ∃ (x : DenseMatrix ρ) (X : Matrix (Fin n) (Fin c) ρ),
          LinearSolver.solveMatrix solver b = .ok x ∧ x.Stores X ∧
            IsMinNormSolution (s.represented U V) (B.map value) (X.map value)) ∧
      ∀ requests : List Memo.Request,
        (requests.foldl Memo.after (.fresh s)).intoSolver = .ok solver := by
  obtain ⟨pinv, hpinv, P, hP, hvalues⟩ := Ends.never_iff.1 (ends_pseudoInverse htolerance hsize hu hv)
  have hpseudo : IsPseudoInverse (s.represented U V) (P.map value) :=
    hvalues ▸ isPseudoInverse_represented htolerance hU hV
  have hsolver : s.solver = .ok ⟨pinv, s.isFullRank⟩ := by
    rw [SVD.solver, hpinv]
    rfl
  refine ⟨pinv, P, ⟨pinv, s.isFullRank⟩, ⟨hpinv, hP, hpseudo⟩, rank_eq htolerance hsize hU hV,
    hsolver, isFullRank_iff htolerance hsize hu hv hU hV, ?_, ?_⟩
  · intro c b B hb
    have hsolve : Ends Never (fun x => ∃ X : Matrix (Fin n) (Fin c) ρ, x.Stores X ∧
        X.map value = P.map value * B.map value)
        (Solver.solveMatrix ⟨pinv, s.isFullRank⟩ b) := by
      unfold Solver.solveMatrix checkRows
      rw [if_pos (hb.nrows.trans hP.ncols.symm)]
      exact Ends.ok_bind_iff.2 (hb.ofView.bind fun dense hdense => hP.mul hdense)
    obtain ⟨x, hx, X, hX, hproduct⟩ := Ends.never_iff.1 hsolve
    exact ⟨x, X, hx, hX, hproduct ▸ hpseudo.isMinNormSolution (B.map value)⟩
  · intro requests
    rw [((Memo.fresh_faithful s).run requests).intoSolver, hsolver]

/-- Two singular values of which the second only reaches the tolerance. -/
theorem solver_solves_represented_truncated :
    letI := exactReal 1 1
    letI := exactReal.exact 1 1
    let eye : DenseMatrix ℝ := ⟨2, 2, #[1, 0, 0, 1]⟩
    let s : SVD ℝ := ⟨eye, eye, #[3, 1], 1⟩
    let I : Matrix (Fin 2) (Fin 2) ℝ := 1
    let B : Matrix (Fin 2) (Fin 1) ℝ := !![1; 1]
    ∃ (P : Matrix (Fin 2) (Fin 2) ℝ) (solver : Solver ℝ) (x : DenseMatrix ℝ)
        (X : Matrix (Fin 2) (Fin 1) ℝ),
      IsPseudoInverse (s.represented I I) P ∧ s.rank = (s.represented I I).rank ∧
        s.solver = .ok solver ∧ LinearSolver.solveMatrix solver (.ofMatrix B) = .ok x ∧
        x.Stores X ∧ IsMinNormSolution (s.represented I I) B X ∧
        (Memo.after (.fresh s) .solver).intoSolver = .ok solver := by
  let := exactReal 1 1
  let := exactReal.exact 1 1
  intro eye s I B
  have hread (i j : Fin 2) : eye.entry i j = .ok (I i j) := by
    fin_cases i <;> fin_cases j <;> rfl
  have heye : eye.Stores I := ⟨rfl, rfl, rfl, hread⟩
  have hI : (I.map value)ᵀ * I.map value = 1 := by
    have hone : I.map value = 1 := Matrix.map_id I
    rw [hone, Matrix.transpose_one, Matrix.one_mul]
  obtain ⟨-, P, solver, ⟨-, -, hP⟩, hrank, hsolver, -, hsolve, hmemo⟩ :=
    solver_solves_represented (s := s) heye heye rfl hI hI zero_le_one
  obtain ⟨x, X, hx, hX, hsolution⟩ := hsolve 1 _ B (MatrixView.ofMatrix_shows B)
  exact ⟨P, solver, x, X, hP, hrank, hsolver, hx, hX, hsolution, hmemo [.solver]⟩

end

end DenseFactor.SVD
