import Mathlib
import DenseFactor.Proofs.LU.Elimination

/-!
# DenseFactor.Proofs.LU.Pivot

What the pivot rules choose.

All stay at or below the diagonal. The two rules for fields never take an element that
counts as zero, and the rule with a threshold none of smaller modulus. Without rounding the
latter takes an element of largest modulus (`selects_largestModulus_exact`). The first
acceptable row leaves only zeros before it (`selects_firstNonZero`). With the exact test for
zero the rules for fields answer with no row exactly if the rest of the column is zero: the
first acceptable row clearly so, the row of largest magnitude because rounded magnitudes still
tell zero from the other elements.
-/

namespace DenseFactor.LU

open ExactScalar (value)

variable {α : Type} {n : ℕ}

/-! ### The first acceptable row -/

/-- All rows before the answer count as zero in the column, and if there is none, all rows
do. -/
theorem selects_firstNonZero (isZero : α → Bool) :
    (firstNonZero isZero).Selects fun W col row =>
      (∀ r ∈ row, isZero (W r col) = false ∧ ∀ i, col ≤ i → i < r → isZero (W i col) = true) ∧
        (row = none → ∀ i, col ≤ i → isZero (W i col) = true) := by
  intro n m W col hm
  unfold firstNonZero
  rw [hm.nrows]
  refine (Ends.findM?_first (positions_sorted _ _)
    (Q := fun i b => ∀ hi : i < n, b = !isZero (W ⟨i, hi⟩ col)) fun i hi => ?_).imp ?_
  · have hi : i < n := (mem_positions.1 hi).2
    rw [hm.entry ⟨i, hi⟩ col]
    exact fun _ => rfl
  · intro choice hchoice
    obtain ⟨hnone, hsome⟩ := hchoice
    have hmem (i : Fin n) (hi : col ≤ i) : (i : ℕ) ∈ positions col n :=
      mem_positions.2 ⟨hi, i.isLt⟩
    cases choice with
    | none =>
        refine ⟨none, rfl, nofun, nofun, fun _ i hi => ?_⟩
        simpa using hnone rfl i (hmem i hi) i.isLt
    | some r =>
        obtain ⟨hr, hfound, hfirst⟩ := hsome r rfl
        obtain ⟨hle, hlt⟩ := mem_positions.1 hr
        refine ⟨some ⟨r, hlt⟩, rfl, ?_, ?_, nofun⟩
        · intro row hrow
          cases hrow
          exact hle
        · intro row hrow
          cases hrow
          refine ⟨by simpa using hfound hlt, fun i hi hir => ?_⟩
          simpa using hfirst i (hmem i hi) hir i.isLt

/-- With the exact test for zero, the first row that is not zero in the column. -/
theorem selects_firstNonZero_exact {K : Type} [Field K] [Scalar α] [ExactScalar α K] :
    (firstNonZero (Scalar.isZero : α → Bool)).Selects fun W col row =>
      (∀ r ∈ row, value (W r col) ≠ 0 ∧ ∀ i, col ≤ i → i < r → value (W i col) = 0) ∧
        (row = none → ∀ i, col ≤ i → value (W i col) = 0) := by
  have htrue (x : α) : Scalar.isZero x = true ↔ value x = 0 := ExactScalar.isZero_iff x
  have hfalse (x : α) : Scalar.isZero x = false ↔ value x ≠ 0 := by
    rw [← Bool.not_eq_true, htrue]
  intro n m W col hm
  have hselects := selects_firstNonZero Scalar.isZero col hm
  simpa only [htrue, hfalse] using hselects

/-! ### Scanning a column -/

/-- The scan of a column for the largest key keeps an invariant of the row and the key that
lead so far. -/
theorem ends_scan {κ : Type} [LT κ] [DecidableLT κ] (key : α → κ) {m : DenseMatrix α}
    {W : Matrix (Fin n) (Fin n) α} (hm : m.Stores W) (col : Fin n) {I : ℕ → Fin n → κ → Prop}
    {start : ℕ} (hstart : (col : ℕ) ≤ start) (hstop : start ≤ n) {first : κ}
    (h0 : I start col first)
    (hstep : ∀ (i row : Fin n) size, start ≤ (i : ℕ) → I i row size →
      if size < key (W i col) then I (i + 1) i (key (W i col)) else I (i + 1) row size) :
    Ends Never (fun lead : ℕ × κ => ∃ row : Fin n, lead.1 = row ∧ col ≤ row ∧ I n row lead.2)
      (foldPositions start n ((col : ℕ), first) fun (row, size) i => do
        let candidate := key (← m.entry i col)
        return if size < candidate then (i, candidate) else (row, size)) := by
  refine Ends.foldPositions
    (I := fun k (lead : ℕ × κ) => ∃ row : Fin n, lead.1 = row ∧ col ≤ row ∧ I k row lead.2)
    hstop ⟨col, rfl, le_rfl, h0⟩ ?_
  rintro k ⟨_, size⟩ hk hkn ⟨row, rfl, hrow, hI⟩
  have hread : m.entry k col = .ok (W ⟨k, hkn⟩ col) := hm.entry ⟨k, hkn⟩ col
  rw [hread]
  have hnext := hstep ⟨k, hkn⟩ row size hk hI
  by_cases hlt : size < key (W ⟨k, hkn⟩ col)
  · rw [if_pos hlt] at hnext
    exact ⟨⟨k, hkn⟩, by simp [hlt], hstart.trans hk, by simpa [hlt] using hnext⟩
  · rw [if_neg hlt] at hnext
    exact ⟨row, by simp [hlt], hrow, by simpa [hlt] using hnext⟩

/-! ### The row of largest magnitude -/

/-- Every candidate is compared, the first one with minus infinity. -/
theorem ends_largestMagnitude [FieldScalar α] (isZero : α → Bool) {m : DenseMatrix α}
    {W : Matrix (Fin n) (Fin n) α} (hm : m.Stores W) (col : Fin n)
    {I : ℕ → Fin n → Float → Prop} (h0 : I col col (-(1 / 0)))
    (hstep : ∀ (i row : Fin n) size, col ≤ i → I i row size →
      if size < FieldScalar.magnitude (W i col) then I (i + 1) i (FieldScalar.magnitude (W i col))
      else I (i + 1) row size) :
    Ends Never (fun choice => ∃ row size, col ≤ row ∧ I n row size ∧
        choice = if isZero (W row col) then none else some (row : ℕ))
      (largestMagnitude isZero m col) := by
  unfold largestMagnitude
  rw [hm.nrows]
  refine (ends_scan FieldScalar.magnitude hm col le_rfl col.isLt.le h0 hstep).bind ?_
  rintro ⟨_, size⟩ ⟨row, rfl, hrow, hI⟩
  dsimp only
  rw [hm.entry row col]
  exact ⟨row, size, hrow, hI, rfl⟩

theorem selects_largestMagnitude [FieldScalar α] (isZero : α → Bool) :
    (largestMagnitude isZero).Selects fun W col row =>
      ∀ r ∈ row, isZero (W r col) = false := by
  intro n m W col hm
  refine (ends_largestMagnitude isZero hm col (I := fun _ _ _ => True) trivial ?_).imp ?_
  · intro i row size _ _
    split <;> trivial
  · intro choice hchoice
    obtain ⟨row, size, hrow, -, rfl⟩ := hchoice
    by_cases hzero : isZero (W row col) = true
    · exact ⟨none, by simp [hzero], by simp, by simp⟩
    · refine ⟨some row, by simp [hzero], ?_, ?_⟩
      · intro r hr
        cases hr
        exact hrow
      · intro r hr
        cases hr
        simpa using hzero

section Exact

variable {K : Type} [Field K] [FieldScalar α] [ExactScalar α K]

/-- With the rows before `k` seen, the magnitude is that of the row in the lead, and if
this row is zero there, so are all candidates seen. Before the first candidate the
lead is a place holder. -/
def LeadsExactly (W : Matrix (Fin n) (Fin n) α) (col : Fin n) (k : ℕ) (row : Fin n)
    (size : Float) : Prop :=
  (k = col ∧ size = -(1 / 0)) ∨
    (size = FieldScalar.magnitude (W row col) ∧ (value (W row col) = 0 →
      ∀ i : Fin n, col ≤ i → (i : ℕ) < k → value (W i col) = 0))

/-- Seeing one more candidate. -/
theorem LeadsExactly.step [FaithfulMagnitude α] {W : Matrix (Fin n) (Fin n) α}
    {col i row : Fin n} {size : Float} (h : LeadsExactly W col i row size) :
    if size < FieldScalar.magnitude (W i col)
      then LeadsExactly W col (i + 1) i (FieldScalar.magnitude (W i col))
      else LeadsExactly W col (i + 1) row size := by
  rcases h with ⟨hfirst, rfl⟩ | ⟨rfl, hlead⟩
  · rw [if_pos (FaithfulMagnitude.bottom_lt _)]
    refine Or.inr ⟨rfl, fun hzero j hj hji => ?_⟩
    have hij : j = i := by omega
    exact hij ▸ hzero
  · by_cases hlt : FieldScalar.magnitude (W row col) < FieldScalar.magnitude (W i col)
    · rw [if_pos hlt]
      refine Or.inr ⟨rfl, fun hzero j hj hji => ?_⟩
      -- nothing smaller than a zero can have been in the lead but a zero
      have hrow : value (W row col) = 0 := by
        by_contra hne
        exact FaithfulMagnitude.not_lt_zero _ _ hzero hne hlt
      by_cases hij : j = i
      · exact hij ▸ hzero
      · exact hlead hrow j hj (by omega)
    · rw [if_neg hlt]
      refine Or.inr ⟨rfl, fun hzero j hj hji => ?_⟩
      by_cases hij : j = i
      · by_contra hne
        exact hlt (FaithfulMagnitude.zero_lt _ _ hzero (hij ▸ hne))
      · exact hlead hzero j hj (by omega)

/-- Where magnitudes are faithful, a zero in the lead means that all candidates are
zero. -/
theorem selects_largestMagnitude_exact [FaithfulMagnitude α] :
    (largestMagnitude (Scalar.isZero : α → Bool)).Selects fun W col row =>
      (∀ r ∈ row, value (W r col) ≠ 0) ∧
        (row = none → ∀ i, col ≤ i → value (W i col) = 0) := by
  intro n m W col hm
  refine (ends_largestMagnitude Scalar.isZero hm col (I := LeadsExactly W col)
    (Or.inl ⟨rfl, rfl⟩) fun i row size _ hI => hI.step).imp ?_
  · intro choice hchoice
    obtain ⟨row, size, hrow, hI, rfl⟩ := hchoice
    by_cases hzero : Scalar.isZero (W row col) = true
    · refine ⟨none, by simp [hzero], by simp, by simp, fun _ i hi => ?_⟩
      rcases hI with ⟨hn, -⟩ | ⟨-, hlead⟩
      · omega
      · exact hlead ((ExactScalar.isZero_iff _).1 hzero) i hi i.isLt
    · refine ⟨some row, by simp [hzero], ?_, ?_, by simp⟩
      · intro r hr
        cases hr
        exact hrow
      · intro r hr
        cases hr
        exact (ExactScalar.isZero_iff _).not.1 hzero

end Exact

/-! ### The row of largest modulus -/

section Modulus

variable {ρ : Type} [RealScalar ρ] [EuclideanScalar α ρ]

/-- The first candidate leads without a comparison. -/
theorem ends_largestModulus (threshold : ρ) {m : DenseMatrix α} {W : Matrix (Fin n) (Fin n) α}
    (hm : m.Stores W) (col : Fin n) {I : ℕ → Fin n → ρ → Prop}
    (h0 : I (col + 1) col (EuclideanScalar.modulus (W col col)))
    (hstep : ∀ (i row : Fin n) size, col < i → I i row size →
      if size < EuclideanScalar.modulus (W i col)
      then I (i + 1) i (EuclideanScalar.modulus (W i col)) else I (i + 1) row size) :
    Ends Never (fun choice => ∃ row size, col ≤ row ∧ I n row size ∧
        choice = if size < threshold then none else some (row : ℕ))
      (largestModulus threshold m col) := by
  unfold largestModulus
  rw [hm.nrows, hm.entry col col, Ends.ok_bind_iff]
  refine (ends_scan EuclideanScalar.modulus hm col (Nat.le_succ _) col.isLt h0 hstep).bind ?_
  rintro ⟨_, size⟩ ⟨row, rfl, hrow, hI⟩
  exact ⟨row, size, hrow, hI, rfl⟩

/-- The modulus of a pivot is not below the threshold. -/
theorem selects_largestModulus_size (threshold : ρ) :
    (largestModulus threshold : PivotRule α).Selects fun W col row =>
      ∀ r ∈ row, ¬ EuclideanScalar.modulus (W r col) < threshold := by
  intro n m W col hm
  refine (ends_largestModulus threshold hm col
    (I := fun _ row size => size = EuclideanScalar.modulus (W row col)) rfl ?_).imp ?_
  · rintro i row size - rfl
    split_ifs <;> rfl
  · rintro choice ⟨row, size, hrow, rfl, rfl⟩
    by_cases hlt : EuclideanScalar.modulus (W row col) < threshold
    · exact ⟨none, by simp [hlt], nofun, nofun⟩
    · refine ⟨some row, by simp [hlt], ?_, ?_⟩
      · rintro r ⟨⟩
        exact hrow
      · rintro r ⟨⟩
        exact hlt

/-- The row of largest modulus, however moduli compare with each other and with the
threshold. -/
theorem selects_largestModulus (threshold : ρ) :
    (largestModulus threshold : PivotRule α).Selects fun _ _ _ => True :=
  PivotRule.Selects.imp (selects_largestModulus_size threshold) fun _ _ _ _ => trivial

/-- Without rounding the modulus of a pivot is the largest of the column and no less than the
threshold, and there is none only if all moduli are less. -/
theorem selects_largestModulus_exact {𝕜 : Type} [ExactReal ρ] [RCLike 𝕜] [ExactEuclidean α ρ 𝕜]
    (threshold : ρ) :
    (largestModulus threshold : PivotRule α).Selects fun W col row =>
      (∀ r ∈ row, value threshold ≤ ‖value (W r col)‖ ∧
        ∀ i, col ≤ i → ‖value (W i col)‖ ≤ ‖value (W r col)‖) ∧
      (row = none → ∀ i, col ≤ i → ‖value (W i col)‖ < value threshold) := by
  intro n m W col hm
  refine (ends_largestModulus threshold hm col
    (I := fun k row size => value size = ‖value (W row col)‖ ∧
      ∀ i : Fin n, col ≤ i → (i : ℕ) < k → ‖value (W i col)‖ ≤ value size) ?_ ?_).imp ?_
  · refine ⟨ExactEuclidean.value_modulus _, fun i hi hik => ?_⟩
    obtain rfl : i = col := by omega
    exact (ExactEuclidean.value_modulus _).ge
  · intro i row size _ hlead
    obtain ⟨hsize, hlargest⟩ := hlead
    have hcandidate : value (EuclideanScalar.modulus (W i col)) = ‖value (W i col)‖ :=
      ExactEuclidean.value_modulus _
    by_cases hlt : size < EuclideanScalar.modulus (W i col)
    · rw [if_pos hlt]
      refine ⟨hcandidate, fun j hj hji => ?_⟩
      by_cases hlast : j = i
      · rw [hlast, hcandidate]
      · exact (hlargest j hj (by omega)).trans ((ExactReal.lt_iff _ _).1 hlt).le
    · rw [if_neg hlt]
      refine ⟨hsize, fun j hj hji => ?_⟩
      by_cases hlast : j = i
      · rw [hlast, ← hcandidate]
        exact not_lt.1 ((ExactReal.lt_iff _ _).not.1 hlt)
      · exact hlargest j hj (by omega)
  · intro choice hchoice
    obtain ⟨row, size, hrow, ⟨hsize, hlargest⟩, rfl⟩ := hchoice
    by_cases hlt : size < threshold
    · refine ⟨none, by simp [hlt], nofun, nofun, fun _ i hi => ?_⟩
      exact (hlargest i hi i.isLt).trans_lt ((ExactReal.lt_iff _ _).1 hlt)
    · refine ⟨some row, by simp [hlt], ?_, ?_, nofun⟩
      · intro r hr
        cases hr
        exact hrow
      · intro r hr
        cases hr
        rw [← hsize]
        refine ⟨not_lt.1 ((ExactReal.lt_iff _ _).not.1 hlt), fun i hi => hlargest i hi i.isLt⟩

end Modulus

/-! ### The rules of the field decompositions -/

theorem selects_field [FieldScalar α] (isZero : α → Bool) (numeric : Bool) :
    PivotRule.Selects (if numeric then largestMagnitude isZero else firstNonZero isZero)
      fun W col row => ∀ r ∈ row, isZero (W r col) = false := by
  cases numeric with
  | true => exact selects_largestMagnitude isZero
  | false => exact PivotRule.Selects.imp (selects_firstNonZero isZero) fun _ _ _ h r hr => (h.1 r hr).1

/-- With the exact test for zero, a pivot is not zero, and there is none only if the
rest of the column is zero. Only the choice by magnitude asks something of the
magnitudes. -/
theorem selects_field_exact {K : Type} [Field K] [FieldScalar α] [ExactScalar α K]
    {numeric : Bool} (hnumeric : numeric = true → FaithfulMagnitude α) :
    PivotRule.Selects
      (if numeric then largestMagnitude (Scalar.isZero : α → Bool)
        else firstNonZero Scalar.isZero)
      fun W col row => (∀ r ∈ row, value (W r col) ≠ 0) ∧
        (row = none → ∀ i, col ≤ i → value (W i col) = 0) := by
  cases numeric with
  | true =>
      have hfaithful := hnumeric rfl
      intro n m W col hm
      exact selects_largestMagnitude_exact col hm
  | false =>
      intro n m W col hm
      refine (selects_firstNonZero_exact col hm).imp ?_
      intro choice hchoice
      obtain ⟨row, hchoice, hbelow, haccepted, hnone⟩ := hchoice
      exact ⟨row, hchoice, hbelow, fun r hr => (haccepted r hr).1, hnone⟩

end DenseFactor.LU
