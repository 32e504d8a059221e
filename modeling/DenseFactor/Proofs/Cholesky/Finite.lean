import Mathlib
import DenseFactor.Proofs.Cholesky.Step
import DenseFactor.Proofs.Scalar.Division
import DenseFactor.Proofs.Scalar.Root
import DenseFactor.Proofs.Solver.Basic

/-!
# DenseFactor.Proofs.Cholesky.Finite

A Cholesky factor has **no NaN and no infinity** beside its diagonal, whatever is decomposed.

Design points:

* An entry of a row of the factor is squared and taken away from a later diagonal entry. If it
  is not finite, this leaves a NaN or negative infinity, and taking away more changes neither
  (`Sunk`). The pivot test refuses both, since it compares from below.
* So the invariant does not ask that the finished rows be finite. An entry of them is finite,
  or the pivot of its column is still to come and has sunk.
* The solver divides by the entries on the diagonal. That it divides by nothing else is said by
  giving it any other division that agrees on positive numbers: its answers are the same.
-/

namespace DenseFactor

/-! ### Numbers that no pivot test accepts again -/

namespace BinaryScalar

open Float.Model Float.Model.UnpackedFloat

variable {ρ : Type} [RealScalar ρ] [BinaryScalar ρ] {x y z : ρ}

/-- A NaN or negative infinity. -/
def Sunk (x : ρ) : Prop := unpacked x = .notANumber ∨ unpacked x = .infinity .negative

theorem Sunk.sub (h : Sunk x) (z : ρ) : Sunk (x - z) := by
  unfold Sunk
  rw [unpacked_sub]
  rcases h with hx | hx <;> rw [hx]
  · exact .inl (Rounding.unpack_pack_notANumber _)
  · cases unpacked z with
    | notANumber => exact .inl (Rounding.unpack_pack_notANumber _)
    | infinity sign =>
        cases sign with
        | negative => exact .inl (Rounding.unpack_pack_notANumber _)
        | positive => exact .inr (Rounding.unpack_pack_infinity _ _)
    | _ => exact .inr (Rounding.unpack_pack_infinity _ _)

/-- The square of an infinity or a NaN sinks what it is taken away from. -/
theorem sunk_sub_square (hy : RealScalar.isFinite y = false) (x : ρ) : Sunk (x - y * y) := by
  have hsquare : unpacked (y * y) = .notANumber ∨ unpacked (y * y) = .infinity .positive := by
    rw [isFinite_eq] at hy
    rw [unpacked_mul]
    cases hcase : unpacked y with
    | notANumber => exact .inl (Rounding.unpack_pack_notANumber _)
    | infinity sign => cases sign <;> exact .inr (Rounding.unpack_pack_infinity _ _)
    | _ => simp [hcase, UnpackedFloat.isFinite] at hy
  unfold Sunk
  rw [unpacked_sub]
  rcases hsquare with hsquare | hsquare <;> rw [hsquare]
  · cases unpacked x <;> exact .inl (Rounding.unpack_pack_notANumber _)
  · cases unpacked x with
    | notANumber => exact .inl (Rounding.unpack_pack_notANumber _)
    | infinity sign =>
        cases sign with
        | positive => exact .inl (Rounding.unpack_pack_notANumber _)
        | negative => exact .inr (Rounding.unpack_pack_infinity _ _)
    | _ => exact .inr (Rounding.unpack_pack_infinity _ _)

theorem Sunk.not_lt (h : Sunk x) (hz : 0 ≤ z) : ¬ z < x := by
  intro hlt
  have hpos := lt_iff_place.1 (lt_of_le_of_lt hz hlt)
  have htop := Rounding.topPlace_pos (format ρ)
  rw [place_zero, isNaN_eq x, place] at hpos
  rcases h with hx | hx <;> rw [hx] at hpos
  · exact absurd hpos.1.2 (by decide)
  · exact absurd hpos.2 (neg_nonpos.2 htop.le).not_gt

end BinaryScalar

namespace Cholesky

open BinaryScalar

variable {ρ : Type} [RealScalar ρ] {n : ℕ}

/-! ### The factor -/

section Factor

variable [BinaryScalar ρ] {U V A : Matrix (Fin n) (Fin n) ρ}

/-- After `k` rows: they have a positive diagonal, and what is not finite in them has sunk the
pivot of its column. -/
structure Clean (k : ℕ) (U : Matrix (Fin n) (Fin n) ρ) : Prop where
  lower (i j : Fin n) (h : j < i) : U i j = 0
  diagonal (i : Fin n) (hi : (i : ℕ) < k) : 0 < U i i
  right (i j : Fin n) (hi : (i : ℕ) < k) (hij : i < j) :
    RealScalar.isFinite (U i j) = true ∨ k ≤ (j : ℕ) ∧ Sunk (U j j)

/-- A pivot above the threshold keeps the invariant. -/
theorem Clean.step [RootScalar ρ] {k : Fin n} {p : ρ} (h : Clean k U) (hp : 0 ≤ p)
    (hpivot : p < U k k) (hrow : TakesRow k U V) : Clean (k + 1) V where
  lower i j hji := (hrow.kept i j (.inr hji)).trans (h.lower i j hji)
  diagonal i hi := by
    rcases Nat.lt_succ_iff_lt_or_eq.1 hi with hi | hi
    · rw [hrow.kept i i (.inl hi)]
      exact h.diagonal i hi
    · obtain rfl := Fin.ext hi
      rw [hrow.pivot]
      exact sqrt_pos (lt_of_le_of_lt hp hpivot)
  right i j hi hij := by
    rcases Nat.lt_succ_iff_lt_or_eq.1 hi with hi | hi
    · -- a finished row: the pivot of this step was not sunk, and the later ones still are
      rw [hrow.kept i j (.inl hi)]
      refine (h.right i j hi hij).imp_right fun ⟨hkj, hsunk⟩ => ?_
      have hne : k ≠ j := fun heq => (heq ▸ hsunk).not_lt hp hpivot
      have hlt : k < j := lt_of_le_of_ne hkj hne
      exact ⟨hlt, (hrow.later j j hlt le_rfl) ▸ hsunk.sub _⟩
    · -- the row of this step
      obtain rfl := Fin.ext hi
      refine (Bool.eq_false_or_eq_true (RealScalar.isFinite (V i j))).imp id fun hinfinite => ?_
      exact ⟨hij, (hrow.later j j hij le_rfl) ▸ sunk_sub_square hinfinite _⟩

/-- The invariant of a whole decomposition. -/
theorem ends_ofThresholds_clean [RootScalar ρ] {a : MatrixView ρ} (ha : a.Shows A) (s : ρ)
    {p : ρ} (hp : 0 ≤ p) :
    Ends Always (fun c => ∃ U : Matrix (Fin n) (Fin n) ρ, c.upper.Stores U ∧ Clean n U)
      (ofThresholds s p a) := by
  unfold ofThresholds
  rw [if_neg ha.square]
  refine ha.ofView.bind fun m hm => Ends.always.bind fun found _ => ?_
  cases found with
  | some position => exact trivial
  | none =>
      rw [hm.nrows]
      refine (ends_upperTriangle_entries hm).bind fun m₀ hm₀ => ?_
      refine (Ends.foldlM_positions (I := fun k m => ∃ U : Matrix (Fin n) (Fin n) ρ,
        m.Stores U ∧ Clean k U) (Nat.zero_le n) ?_ ?_).bind ?_
      · exact ⟨_, hm₀, fun i j hji => if_pos hji, nofun, nofun⟩
      · rintro k m' - hk ⟨U, hU, hclean⟩
        refine ((ends_step_entries hU ⟨k, hk⟩ p).weaken fun _ _ => trivial).imp ?_
        rintro m'' ⟨V, hV, hpivot, hrow⟩
        exact ⟨V, hV, hclean.step (k := ⟨k, hk⟩) hp hpivot hrow⟩
      · exact fun m hm => hm

end Factor

/-! ### The divisions of the solver -/

section Division

variable {U : Matrix (Fin n) (Fin n) ρ} {upper : DenseMatrix ρ} {div : ρ → ρ → ρ}

/-- A row is divided by a positive number. -/
theorem divideRow_withDiv (hU : upper.Stores U) (hdiagonal : ∀ i, 0 < U i i)
    (hdiv : ∀ x y, 0 < y → div x y = x / y) (x : DenseMatrix ρ) {j : ℕ} (hj : j < n) :
    @divideRow ρ (RealScalar.withDiv div) upper x j = divideRow upper x j := by
  unfold divideRow
  rw [hU.entry ⟨j, hj⟩ ⟨j, hj⟩]
  have hentries (old : ρ) : div old (U ⟨j, hj⟩ ⟨j, hj⟩) = old / U ⟨j, hj⟩ ⟨j, hj⟩ :=
    hdiv _ _ (hdiagonal _)
  show x.mapEntries (fun i _ old => .ok (if i = j then div old (U ⟨j, hj⟩ ⟨j, hj⟩) else old)) = _
  simp only [hentries]
  rfl

/-- Solving divides by positive numbers only. -/
theorem Solver.solveMatrix_withDiv {s : Solver ρ} (hU : s.upper.Stores U)
    (hdiagonal : ∀ i, 0 < U i i) (hdiv : ∀ x y, 0 < y → div x y = x / y) (b : MatrixView ρ) :
    @Solver.solveMatrix ρ (RealScalar.withDiv div) s b = s.solveMatrix b := by
  have hrow (x : DenseMatrix ρ) {j : ℕ} (hj : j < n) :=
    divideRow_withDiv hU hdiagonal hdiv x hj
  have hforward (x : DenseMatrix ρ) (j : ℕ) (hj : j ∈ positions 0 n) :
      @forwardStep ρ (RealScalar.withDiv div) s.upper x j = forwardStep s.upper x j := by
    unfold forwardStep
    rw [hrow x (mem_positions.1 hj).2]
  have hbackward (x : DenseMatrix ρ) (j : ℕ) (hj : j ∈ (positions 0 n).reverse) :
      @backwardStep ρ (RealScalar.withDiv div) s.upper x j = backwardStep s.upper x j := by
    unfold backwardStep
    rw [hrow x (mem_positions.1 (List.mem_reverse.1 hj)).2]
  rw [@Solver.solveMatrix_eq ρ (RealScalar.withDiv div) s b, s.solveMatrix_eq b, hU.nrows]
  congr 1
  refine bind_congr fun x => ?_
  rw [foldlM_congr hforward]
  exact bind_congr fun y => foldlM_congr hbackward y

end Division

/-- **A Cholesky factor is clean, whatever matrix it is of.** With a positivity threshold that
is not below zero, a decomposition that exists has a factor without NaNs: zeros below the
diagonal, finite numbers above it, and positive ones, which may be infinite, on it. And its
solver divides by positive numbers only: with any other division that agrees
on these it gives the same answers. -/
theorem ofThresholds_clean [BinaryScalar ρ] [RootScalar ρ] {A : Matrix (Fin n) (Fin n) ρ}
    {a : MatrixView ρ} (ha : a.Shows A) (s : ρ) {p : ρ} (hp : 0 ≤ p) {c : Cholesky ρ}
    (hc : ofThresholds s p a = .ok c) :
    (∃ U : Matrix (Fin n) (Fin n) ρ, c.upper.Stores U ∧
      (∀ i j, RealScalar.isNaN (U i j) = false) ∧ (∀ i j, j < i → U i j = 0) ∧
      (∀ i j, i < j → RealScalar.isFinite (U i j) = true) ∧ ∀ i, 0 < U i i) ∧
    ∀ div : ρ → ρ → ρ, (∀ x y, 0 < y → div x y = x / y) → ∀ b,
      @Solver.solveMatrix ρ (RealScalar.withDiv div) c.solver b = c.solver.solveMatrix b := by
  obtain ⟨U, hU, hclean⟩ := (ends_ofThresholds_clean ha s hp).of_ok hc
  have hdiagonal (i : Fin n) : 0 < U i i := hclean.diagonal i i.isLt
  have hfinite (i j : Fin n) (hij : i < j) : RealScalar.isFinite (U i j) = true :=
    (hclean.right i j i.isLt hij).resolve_right fun h => absurd j.isLt h.1.not_gt
  refine ⟨⟨U, hU, fun i j => ?_, hclean.lower, hfinite, hdiagonal⟩, fun div hdiv b =>
    Solver.solveMatrix_withDiv hU hdiagonal hdiv b⟩
  rcases lt_trichotomy j i with hji | rfl | hij
  · rw [hclean.lower i j hji]
    exact isNaN_zero
  · exact (lt_iff_place.1 (hdiagonal j)).1.2
  · exact isNaN_of_isFinite (hfinite i j hij)

/-- An infinite entry of the matrix that ends on the diagonal of the factor. -/
theorem ofThresholds_clean_infinite :
    let m : DenseMatrix Float := ⟨2, 2, #[4, 2, 2, 1 / 0]⟩
    ∃ (c : Cholesky Float) (U : Matrix (Fin 2) (Fin 2) Float),
      ofThresholds 0 0 m.view = .ok c ∧ c.upper.Stores U ∧
        (∀ i j, RealScalar.isNaN (U i j) = false) ∧ U 1 0 = 0 ∧
        RealScalar.isFinite (U 0 1) = true ∧ 0 < U 0 0 ∧ 0 < U 1 1 ∧
        RealScalar.isFinite (U 1 1) = false := by
  intro m
  let A : Matrix (Fin 2) (Fin 2) Float := !![4, 2; 2, 1 / 0]
  have hm : m.Stores A := by
    refine ⟨rfl, rfl, rfl, fun i j => ?_⟩
    fin_cases i <;> fin_cases j <;> rfl
  have hp : (0 : Float) ≤ 0 := by decide +kernel
  have hlast : Ends Never (fun c => Ends Never (RealScalar.isFinite · = false) (c.upper.entry 1 1))
      (ofThresholds 0 0 m.view) := by
    decide +kernel
  obtain ⟨c, hc, hinfinite⟩ := Ends.never_iff.1 hlast
  obtain ⟨⟨U, hU, hnumbers, hlower, hright, hdiagonal⟩, -⟩ := ofThresholds_clean hm.view 0 hp hc
  refine ⟨c, U, hc, hU, hnumbers, hlower 1 0 (by decide), hright 0 1 (by decide), hdiagonal 0,
    hdiagonal 1, ?_⟩
  exact hinfinite.of_ok (hU.entry 1 1)

end Cholesky

end DenseFactor
