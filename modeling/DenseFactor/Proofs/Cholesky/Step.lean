import Mathlib
import DenseFactor.Cholesky.Basic
import DenseFactor.Proofs.Stored

/-!
# DenseFactor.Proofs.Cholesky.Step

What **one step** of a Cholesky decomposition does to the entries.

The step scales a row and then subtracts its outer product, in two passes over the matrix.
`TakesRow` says what both come to, in the operations of the type and with no rounding left out,
so it serves exact and rounded numbers.
-/

namespace DenseFactor.Cholesky

variable {ρ : Type} [RealScalar ρ] {E : Failure → Prop} {n : ℕ} {m : DenseMatrix ρ}
  {U : Matrix (Fin n) (Fin n) ρ}

/-- `V` is `U` with row `k` turned into a row of the factor and taken out of the later rows. -/
structure TakesRow (k : Fin n) (U V : Matrix (Fin n) (Fin n) ρ) : Prop where
  /-- The rows before stay, and so does the lower triangle. -/
  kept (i j : Fin n) (h : i < k ∨ j < i) : V i j = U i j
  pivot : V k k = RealScalar.sqrt (U k k)
  row (j : Fin n) (hj : k < j) : V k j = U k j * (1 / RealScalar.sqrt (U k k))
  later (i j : Fin n) (hi : k < i) (hij : i ≤ j) : V i j = U i j - V k i * V k j

theorem ends_upperTriangle_entries (hU : m.Stores U) :
    Ends E (·.Stores (Matrix.of fun i j => if j < i then 0 else U i j)) (upperTriangle m) :=
  Ends.mapEntries_of_ok hU fun _ _ => rfl

theorem ends_scaleRow_entries (hU : m.Stores U) (k : Fin n) (root : ρ) :
    Ends E (·.Stores (Matrix.of fun i j =>
      if i = k then if j = k then root else if k < j then U i j * (1 / root) else U i j
      else U i j)) (scaleRow m k root) := by
  refine Ends.mapEntries_of_ok hU fun i j => ?_
  simp only [Matrix.of_apply, Fin.val_inj, Fin.val_fin_lt]

theorem ends_subtractOuter_entries (hU : m.Stores U) (k : Fin n) :
    Ends E (·.Stores (Matrix.of fun i j =>
      if k < i ∧ i ≤ j then U i j - U k i * U k j else U i j)) (subtractOuter m k) := by
  refine Ends.mapEntries_of_ok hU fun i j => ?_
  simp only [Matrix.of_apply, Fin.val_fin_lt, Fin.val_fin_le]
  by_cases h : k < i ∧ i ≤ j
  · rw [if_pos h, if_pos h, hU.entry k i, hU.entry k j]
    rfl
  · rw [if_neg h, if_neg h]

/-- A pivot above the threshold takes its row, and every other one is refused. -/
theorem ends_step_entries (hU : m.Stores U) (k : Fin n) (positivity : ρ) :
    Ends (fun e => e = .notPositiveDefinite ∧ ¬ positivity < U k k)
      (fun m' => ∃ V : Matrix (Fin n) (Fin n) ρ, m'.Stores V ∧ positivity < U k k ∧
        TakesRow k U V)
      (step positivity m k) := by
  unfold step
  rw [hU.entry k k, Ends.ok_bind_iff]
  by_cases hpivot : positivity < U k k
  · rw [if_pos hpivot]
    refine (ends_scaleRow_entries hU k (RealScalar.sqrt (U k k))).bind fun m₁ hscaled => ?_
    refine (ends_subtractOuter_entries hscaled k).imp fun m₂ hV => ⟨_, hV, hpivot, ?_⟩
    refine ⟨fun i j h => ?_, ?_, fun j hj => ?_, fun i j hi hij => ?_⟩
    · have hother : i = k → ¬ j = k ∧ ¬ k < j := by omega
      by_cases hik : i = k
      · simp [hik, hother hik]
      · have hout : ¬ (k < i ∧ i ≤ j) := by omega
        simp [hout, hik]
    · simp
    · simp [hj, hj.ne']
    · simp [hi, hij, hi.ne', hi.trans_le hij, (hi.trans_le hij).ne']
  · rw [if_neg hpivot]
    exact ⟨rfl, hpivot⟩

end DenseFactor.Cholesky
