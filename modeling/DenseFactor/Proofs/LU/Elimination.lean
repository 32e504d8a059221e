import Mathlib
import DenseFactor.LU.Elimination
import DenseFactor.Proofs.Edit
import DenseFactor.Proofs.Order
import DenseFactor.Proofs.Scalar.Exact

/-!
# DenseFactor.Proofs.LU.Elimination

What one step of an elimination does, for **every element type** and every pivot
rule, and the induction over all steps.

Design points:

* `s.Holds σ W` ties a state to the matrix it stores, to the permutation of its rows
  and to the sign of that permutation.
* `ReducesColumn` is everything that the reduction of a column does to the stored
  matrix, entry by entry and in the operations of the element type. Nothing later
  unfolds the step.
* `ends_eliminate` is the induction over the columns, done once: an invariant of the
  permutation and the stored matrix that every step keeps holds when the run ends,
  and where a column was rejected it holds of the columns before.
-/

namespace DenseFactor.LU

variable {α : Type} {n : ℕ} {E : Failure → Prop} {D : α → Prop}

/-! ### States -/

/-- The packed matrix is `W`, and its rows stand in the order `σ`. -/
structure Elimination.Holds (s : Elimination α) (σ : Equiv.Perm (Fin n))
    (W : Matrix (Fin n) (Fin n) α) : Prop where
  packed : s.packed.Stores W
  size : s.pivot.size = n
  pivot (i : Fin n) : s.pivot[i]? = some (σ i : ℕ)
  sign : Equiv.Perm.sign σ = if s.even then 1 else -1

/-- Rows in their own order. -/
theorem Elimination.holds_start {m : DenseMatrix α} {A : Matrix (Fin n) (Fin n) α}
    (hm : m.Stores A) :
    Elimination.Holds
      { packed := m, pivot := Array.range m.nrows, even := true, singular := false } 1 A where
  packed := hm
  size := by simp [hm.nrows]
  pivot i := by simp [hm.nrows]
  sign := by simp

/-- The pivots list the order of the rows. -/
theorem Elimination.Holds.lists {s : Elimination α} {σ : Equiv.Perm (Fin n)}
    {W : Matrix (Fin n) (Fin n) α} (h : s.Holds σ W) : Lists s.pivot σ :=
  ⟨h.size, h.pivot⟩

theorem Elimination.Holds.read_pivot {s : Elimination α} {σ : Equiv.Perm (Fin n)}
    {W : Matrix (Fin n) (Fin n) α} (h : s.Holds σ W) (i : Fin n) :
    Storage.read s.pivot i = .ok (σ i : ℕ) :=
  h.lists.read i

/-- An exchange moves two rows and records it. -/
theorem Elimination.Holds.exchange {s : Elimination α} {σ : Equiv.Perm (Fin n)}
    {W : Matrix (Fin n) (Fin n) α} (h : s.Holds σ W) (a b : Fin n) :
    Ends Never (fun s' => s'.Holds (σ * Equiv.swap a b) (W.submatrix (Equiv.swap a b) id) ∧
        s'.singular = s.singular) (s.exchange a b) := by
  unfold Elimination.exchange
  by_cases hab : a = b
  · subst hab
    rw [if_pos rfl, Equiv.swap_self]
    exact ⟨h, rfl⟩
  have hne : (a : ℕ) ≠ b := fun hval => hab (Fin.ext hval)
  rw [if_neg hne]
  refine (h.packed.exchangeRows a b).bind fun packed hpacked => ?_
  refine (h.lists.exchange a b).bind fun pivot hpivot => ?_
  refine ⟨⟨hpacked, hpivot.size, hpivot.element, ?_⟩, rfl⟩
  have hsign := h.sign
  cases heven : s.even <;>
    simp [heven, Equiv.Perm.sign_mul, Equiv.Perm.sign_swap hab] at hsign ⊢ <;>
    simp [hsign]

/-! ### Reducing a column -/

section Reduce

variable [Scalar α]

/-- The matrix `W'` is `W` with column `col` reduced by the row on the diagonal. -/
structure ReducesColumn (col : Fin n) (W W' : Matrix (Fin n) (Fin n) α) : Prop where
  /-- The rows down to the diagonal and the columns before stay. -/
  kept (i j : Fin n) (h : i ≤ col ∨ j < col) : W' i j = W i j
  /-- Below the diagonal stand the multipliers. -/
  multiplier (i : Fin n) (hi : col < i) : Scalar.div (W i col) (W col col) = .ok (W' i col)
  /-- A multiplier of zero leaves its row alone. -/
  skipped (i j : Fin n) (hi : col < i) (hj : col < j) (hzero : Scalar.isZero (W' i col) = true) :
    W' i j = W i j
  /-- Any other subtracts its multiple of the row on the diagonal. -/
  remainder (i j : Fin n) (hi : col < i) (hj : col < j) (hzero : Scalar.isZero (W' i col) = false) :
    ∃ p, Scalar.mul (W' i col) (W col j) = .ok p ∧ Scalar.sub (W i j) p = .ok (W' i j)

/-- The entry `y` at `(i, j)` of a matrix whose column `col` was divided. -/
def DividedEntry (col : Fin n) (W : Matrix (Fin n) (Fin n) α) (i j : Fin n) (y : α) : Prop :=
  if col < i ∧ j = col then Scalar.div (W i j) (W col col) = .ok y else y = W i j

/-- The entry `y` at `(i, j)` of a matrix from whose later rows row `col` was
subtracted. -/
def SubtractedEntry (col : Fin n) (W : Matrix (Fin n) (Fin n) α) (i j : Fin n) (y : α) : Prop :=
  if col < i ∧ col < j then
    if Scalar.isZero (W i col) then y = W i j
    else ∃ p, Scalar.mul (W i col) (W col j) = .ok p ∧ Scalar.sub (W i j) p = .ok y
  else y = W i j

theorem ends_divideColumn (hE : FailsBy α E D) {m : DenseMatrix α}
    {W : Matrix (Fin n) (Fin n) α} (hm : m.Stores W) (col : Fin n) (hpivot : D (W col col)) :
    Ends E (fun m' => ∃ W' : Matrix (Fin n) (Fin n) α, m'.Stores W' ∧
      ∀ i j, DividedEntry col W i j (W' i j)) (divideColumn (col : ℕ) m) := by
  unfold divideColumn
  rw [hm.entry col col, Ends.ok_bind_iff]
  refine Ends.mapEntries hm fun i j => ?_
  unfold DividedEntry
  have hcol : ((col : ℕ) < i ∧ (j : ℕ) = col) ↔ (col < i ∧ j = col) := by
    rw [Fin.lt_def, Fin.ext_iff]
  by_cases h : col < i ∧ j = col
  · rw [if_pos (hcol.2 h)]
    simp only [if_pos h]
    exact (hE.ends_div _ _ hpivot).self.imp fun _ hy => hy.1
  · rw [if_neg (hcol.not.2 h)]
    simp only [if_neg h]
    rfl

theorem ends_subtractPivotRow (hE : FailsBy α E D) {m : DenseMatrix α}
    {W : Matrix (Fin n) (Fin n) α} (hm : m.Stores W) (col : Fin n) :
    Ends E (fun m' => ∃ W' : Matrix (Fin n) (Fin n) α, m'.Stores W' ∧
      ∀ i j, SubtractedEntry col W i j (W' i j)) (subtractPivotRow (col : ℕ) m) := by
  unfold subtractPivotRow
  refine Ends.mapEntries hm fun i j => ?_
  unfold SubtractedEntry
  have hcol : ((col : ℕ) < i ∧ (col : ℕ) < j) ↔ (col < i ∧ col < j) := Iff.rfl
  by_cases h : col < i ∧ col < j
  · rw [if_pos (hcol.2 h), hm.entry i col, Ends.ok_bind_iff]
    simp only [if_pos h]
    by_cases hzero : Scalar.isZero (W i col) = true
    · simp only [if_pos hzero]
      rfl
    · simp only [if_neg hzero]
      rw [hm.entry col j, Ends.ok_bind_iff]
      refine (hE.ends_mul _ _).self.bind fun p hp => ?_
      exact (hE.ends_sub _ _).self.imp fun _ hy => ⟨p, hp.1, hy.1⟩
  · rw [if_neg (hcol.not.2 h)]
    simp only [if_neg h]
    rfl

/-- One step: the pivot row is exchanged into place and the column reduced. -/
theorem Elimination.Holds.reduce (hE : FailsBy α E D) {s : Elimination α}
    {σ : Equiv.Perm (Fin n)} {W : Matrix (Fin n) (Fin n) α} (h : s.Holds σ W) (col row : Fin n)
    (hpivot : D (W row col)) :
    Ends E (fun s' => ∃ W', s'.Holds (σ * Equiv.swap col row) W' ∧
        ReducesColumn col (W.submatrix (Equiv.swap col row) id) W' ∧
        s'.singular = s.singular) (s.reduce col row) := by
  unfold Elimination.reduce
  refine (h.exchange col row).of_never.bind fun s₁ h₁ => ?_
  obtain ⟨h₁, hsingular⟩ := h₁
  have hhead : W.submatrix (Equiv.swap col row) id col col = W row col := by simp
  rw [← hhead] at hpivot
  generalize W.submatrix (Equiv.swap col row) id = W₁ at h₁ hpivot ⊢
  refine (ends_divideColumn hE h₁.packed col hpivot).bind fun m₂ h₂ => ?_
  obtain ⟨W₂, hm₂, h₂⟩ := h₂
  refine (ends_subtractPivotRow hE hm₂ col).bind fun m₃ h₃ => ?_
  obtain ⟨W₃, hm₃, h₃⟩ := h₃
  refine ⟨W₃, ⟨hm₃, h₁.size, h₁.pivot, h₁.sign⟩, ?_, hsingular⟩
  -- outside the column that is divided, the second matrix is the first
  have hsame (i j : Fin n) (hij : ¬ (col < i ∧ j = col)) : W₂ i j = W₁ i j := by
    simpa [DividedEntry, hij] using h₂ i j
  have hcolumn (i : Fin n) : W₃ i col = W₂ i col := by
    simpa [SubtractedEntry] using h₃ i col
  refine ⟨fun i j hij => ?_, fun i hi => ?_, fun i j hi hj hzero => ?_, fun i j hi hj hzero => ?_⟩
  · have hout : ¬ (col < i ∧ col < j) := by omega
    have hij₃ : W₃ i j = W₂ i j := by simpa [SubtractedEntry, hout] using h₃ i j
    rw [hij₃, hsame i j (by omega)]
  · rw [hcolumn i]
    simpa [DividedEntry, hi] using h₂ i col
  · rw [hcolumn i] at hzero
    have hij := h₃ i j
    simp only [SubtractedEntry, hi, hj, and_self, if_true, hzero] at hij
    rw [hij, hsame i j (by omega)]
  · rw [hcolumn i] at hzero ⊢
    have hij := h₃ i j
    simp only [SubtractedEntry, hi, hj, and_self, if_true, hzero, Bool.false_eq_true,
      if_false] at hij
    rwa [hsame i j (by omega), hsame col j (by omega)] at hij

end Reduce

/-! ### Running over the columns -/

/-- The rule reads a square matrix without failing, answers with a row at or below
the diagonal or with none, and the answer is as `P` says. -/
def PivotRule.Selects (rule : PivotRule α)
    (P : ∀ {n : ℕ}, Matrix (Fin n) (Fin n) α → Fin n → Option (Fin n) → Prop) : Prop :=
  ∀ {n : ℕ} {m : DenseMatrix α} {W : Matrix (Fin n) (Fin n) α} (col : Fin n), m.Stores W →
    Ends Never (fun choice => ∃ row : Option (Fin n), choice = row.map Fin.val ∧
      (∀ r ∈ row, col ≤ r) ∧ P W col row) (rule m col)

theorem PivotRule.Selects.imp {rule : PivotRule α}
    {P Q : ∀ {n : ℕ}, Matrix (Fin n) (Fin n) α → Fin n → Option (Fin n) → Prop}
    (h : rule.Selects P)
    (hPQ : ∀ {n : ℕ} (W : Matrix (Fin n) (Fin n) α) col row, P W col row → Q W col row) :
    rule.Selects Q := by
  intro n m W col hm
  refine (h col hm).imp ?_
  rintro choice ⟨row, hchoice, hbelow, hP⟩
  exact ⟨row, hchoice, hbelow, hPQ W col row hP⟩

variable [Scalar α]

/-- A rejected column ends the run. -/
theorem Elimination.run_rejected {rule : PivotRule α} {s : Elimination α} {col : ℕ}
    (h : rule s.packed col = .ok none) (rest : List ℕ) :
    Elimination.run rule (col :: rest) s = .ok { s with singular := true } := by
  rw [Elimination.run, h]
  rfl

/-- An accepted one is reduced. -/
theorem Elimination.run_accepted {rule : PivotRule α} {s : Elimination α} {col row : ℕ}
    (h : rule s.packed col = .ok (some row)) (rest : List ℕ) :
    Elimination.run rule (col :: rest) s = s.reduce col row >>= Elimination.run rule rest := by
  rw [Elimination.run, h]
  rfl

/-- What a run leaves, if every step keeps the invariant `I`: it holds after the last
column, or before the column that was rejected. -/
structure Elimination.Finished (s : Elimination α)
    (P : ∀ {n : ℕ}, Matrix (Fin n) (Fin n) α → Fin n → Option (Fin n) → Prop)
    (I : ℕ → Equiv.Perm (Fin n) → Matrix (Fin n) (Fin n) α → Prop)
    (σ : Equiv.Perm (Fin n)) (W : Matrix (Fin n) (Fin n) α) : Prop where
  holds : s.Holds σ W
  complete : s.singular = false → I n σ W
  rejected : s.singular = true → ∃ col : Fin n, I col σ W ∧ P W col none

/-- The induction over the columns that are left. -/
theorem Elimination.ends_run (hE : FailsBy α E D) {rule : PivotRule α}
    {P : ∀ {n : ℕ}, Matrix (Fin n) (Fin n) α → Fin n → Option (Fin n) → Prop}
    (hrule : rule.Selects P)
    (hdivisor : ∀ (W : Matrix (Fin n) (Fin n) α) col row, P W col (some row) → D (W row col))
    {I : ℕ → Equiv.Perm (Fin n) → Matrix (Fin n) (Fin n) α → Prop}
    (hstep : ∀ (col row : Fin n) σ W W', col ≤ row → P W col (some row) → I col σ W →
      ReducesColumn col (W.submatrix (Equiv.swap col row) id) W' →
      I (col + 1) (σ * Equiv.swap col row) W')
    {k len : ℕ} (hlen : k + len = n) {s : Elimination α} {σ : Equiv.Perm (Fin n)}
    {W : Matrix (Fin n) (Fin n) α} (hs : s.Holds σ W) (hsingular : s.singular = false)
    (hI : I k σ W) :
    Ends E (fun s' => ∃ σ' W', s'.Finished P I σ' W')
      (Elimination.run rule (List.range' k len) s) := by
  induction len generalizing k s σ W with
  | zero =>
      have hk : k = n := by omega
      exact ⟨σ, W, hs, fun _ => hk ▸ hI, fun h => by simp [hsingular] at h⟩
  | succ len ih =>
      have hkn : k < n := by omega
      rw [List.range'_succ, Elimination.run]
      refine (hrule ⟨k, hkn⟩ hs.packed).of_never.bind fun choice hchoice => ?_
      obtain ⟨row, rfl, hbelow, hP⟩ := hchoice
      cases row with
      | none =>
          -- the run ends here, and only the flag changes
          refine ⟨σ, W, ⟨hs.packed, hs.size, hs.pivot, hs.sign⟩, ?_, fun _ => ⟨_, hI, hP⟩⟩
          exact fun h => by simp at h
      | some row =>
          refine (hs.reduce hE ⟨k, hkn⟩ row (hdivisor _ _ _ hP)).bind fun s' hs' => ?_
          obtain ⟨W', hs', hreduced, hsame⟩ := hs'
          exact ih (by omega) hs' (hsame.trans hsingular)
            (hstep _ row σ W W' (hbelow row rfl) hP hI hreduced)

/-- An invariant of one step is an invariant of the elimination. -/
theorem ends_eliminate (hE : FailsBy α E D) {rule : PivotRule α}
    {P : ∀ {n : ℕ}, Matrix (Fin n) (Fin n) α → Fin n → Option (Fin n) → Prop}
    (hrule : rule.Selects P)
    (hdivisor : ∀ (W : Matrix (Fin n) (Fin n) α) col row, P W col (some row) → D (W row col))
    {I : ℕ → Equiv.Perm (Fin n) → Matrix (Fin n) (Fin n) α → Prop}
    {m : DenseMatrix α} {A : Matrix (Fin n) (Fin n) α} (hm : m.Stores A) (hI : I 0 1 A)
    (hstep : ∀ (col row : Fin n) σ W W', col ≤ row → P W col (some row) → I col σ W →
      ReducesColumn col (W.submatrix (Equiv.swap col row) id) W' →
      I (col + 1) (σ * Equiv.swap col row) W') :
    Ends E (fun s => ∃ σ W, s.Finished P I σ W) (eliminate rule m) := by
  have hstart := Elimination.holds_start hm
  rw [hm.nrows] at hstart
  rw [eliminate, hm.nrows, positions_zero]
  exact Elimination.ends_run hE hrule hdivisor hstep (Nat.zero_add n) hstart rfl hI

end DenseFactor.LU
