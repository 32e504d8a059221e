import Mathlib
import DenseFactor.Proofs.Edit
import DenseFactor.Proofs.Order

/-!
# DenseFactor.Proofs.Swap

Exchanges of rows and of columns, **in range and out of range**.

Design points:

* In range an exchange reorders the entries by a transposition, so that it undoes itself
  (`Edit.Reorders`).
* Out of range an exchange always fails, and a row out of range fails before anything is
  written. A column out of range need not: past the end of a row its place is one of the
  next row. The exchange then goes on, row by row, up to the end of the storage
  (`LeftByOverrun`), which it meets at once only if the larger column is no place of the
  storage at all.
-/

namespace DenseFactor

variable {α : Type} {r c : ℕ} {m m' : DenseMatrix α}

/-! ### In range -/

/-- The edit leaves the entries of `M'`, and performed again it leaves the matrix as it
was. -/
def Edit.Reorders (edit : Edit α Unit) (m : DenseMatrix α) (M' : Matrix (Fin r) (Fin c) α) :
    Prop :=
  ∃ m', edit.perform m = (.ok (), m') ∧ m'.Stores M' ∧ edit.perform m' = (.ok (), m)

theorem Edit.reorders_of_involutive {M : Matrix (Fin r) (Fin c) α} (hm : m.Stores M)
    {edit : Edit α Unit} {f : Matrix (Fin r) (Fin c) α → Matrix (Fin r) (Fin c) α}
    (hf : f (f M) = M)
    (hedit : ∀ {m : DenseMatrix α} {M : Matrix (Fin r) (Fin c) α}, m.Stores M →
      Ends Never (·.Stores (f M)) (edit.apply m)) : edit.Reorders m (f M) := by
  obtain ⟨m', hperform, hm'⟩ := exists_perform (hedit hm)
  obtain ⟨m'', hperform', hm''⟩ := exists_perform (hedit hm')
  rw [hf] at hm''
  exact ⟨m', hperform, hm', by rw [hperform', hm''.eq hm]⟩

theorem DenseMatrix.Stores.swapRows_reorders {M : Matrix (Fin r) (Fin c) α} (hm : m.Stores M)
    (a b : Fin r) : (Edit.swapRows (a : ℕ) b).Reorders m (M.submatrix (Equiv.swap a b) id) := by
  refine Edit.reorders_of_involutive (f := fun M => M.submatrix (Equiv.swap a b) id) hm ?_
    fun hm => hm.swapRows a b
  ext i j
  simp

theorem DenseMatrix.Stores.swapCols_reorders {M : Matrix (Fin r) (Fin c) α} (hm : m.Stores M)
    (a b : Fin c) : (Edit.swapCols (a : ℕ) b).Reorders m (M.submatrix id (Equiv.swap a b)) := by
  refine Edit.reorders_of_involutive (f := fun M => M.submatrix id (Equiv.swap a b)) hm ?_
    fun hm => hm.swapCols a b
  ext i j
  simp

/-! ### Out of range -/

theorem Storage.exchange_of_le {xs : Array α} {i j : ℕ} (h : xs.size ≤ max i j) :
    exchange xs i j = .error .outOfBounds :=
  dif_neg fun hlt => by omega

/-- A row out of range fails in the first column. -/
theorem DenseMatrix.WellFormed.swapRows_out_of_range (wf : m.WellFormed) {a b : ℕ} (hab : a ≠ b)
    (hcols : 0 < m.ncols) (hout : m.nrows ≤ max a b) :
    (Edit.swapRows a b).perform m = (.error .outOfBounds, m) := by
  have hend : m.data.size ≤ max (a * m.ncols + 0) (b * m.ncols + 0) := by
    rw [wf, add_zero, add_zero, Nat.mul_max_mul_right]
    exact Nat.mul_le_mul_right _ hout
  have hfails : Edit.Leaves (fun e after => e = .outOfBounds ∧ after = m) (fun _ _ => False)
      (Edit.swapRows a b) m := by
    refine Edit.Leaves.exchange hab ?_
    refine Edit.Leaves.forM_positions_stop (I := fun _ after => after = m) hcols rfl
      (fun t _ ht _ => absurd ht (Nat.not_lt_zero t)) fun after hafter => ?_
    refine Edit.Leaves.modifyData ?_
    rw [hafter, Storage.exchange_of_le hend]
    exact ⟨rfl, rfl⟩
  obtain ⟨e, after, hperform, rfl, rfl⟩ := hfails.exists_perform
  exact hperform

/-- The places that the elements come from, after columns `a` and `b` were exchanged by flat
position in the first rows of a matrix of `c` columns. -/
def columnPlaces (c a b : ℕ) : ℕ → Equiv.Perm ℕ
  | 0 => 1
  | k + 1 => columnPlaces c a b k * Equiv.swap (k * c + a) (k * c + b)

/-- The element at the larger column comes to the place of the smaller one and stays there. -/
theorem columnPlaces_min {c a b k : ℕ} (hc : 0 < c) (hk : 0 < k) :
    columnPlaces c a b k (min a b) = max a b := by
  induction k with
  | zero => exact absurd hk (lt_irrefl 0)
  | succ k ih =>
      rw [columnPlaces, Equiv.Perm.mul_apply]
      obtain rfl | hk := Nat.eq_zero_or_pos k
      · rw [zero_mul, zero_add, zero_add, columnPlaces, Equiv.Perm.one_apply]
        rcases le_total a b with hab | hab
        · rw [min_eq_left hab, max_eq_right hab, Equiv.swap_apply_left]
        · rw [min_eq_right hab, max_eq_left hab, Equiv.swap_apply_right]
      · have hpos : 0 < k * c := Nat.mul_pos hk hc
        rw [Equiv.swap_apply_of_ne_of_ne (by omega) (by omega), ih hk]

/-- What an exchange of the columns `a` and `b` of `m` leaves when it runs out of the
storage. -/
structure LeftByOverrun (a b : ℕ) (m m' : DenseMatrix α) : Prop where
  wellFormed : m'.WellFormed
  shape : m'.shape = m.shape
  /-- The columns are exchanged by flat position in all rows where both are in the storage. -/
  cells (k : ℕ) :
    m'.data[k]? = m.data[columnPlaces m.ncols a b (m.nrows - max a b / m.ncols) k]?
  untouched (h : m.nrows * m.ncols ≤ max a b) : m' = m
  reached (h : max a b < m.nrows * m.ncols) : m'.data[min a b]? = m.data[max a b]?

/-- The matrix after columns were exchanged by flat position in the first `k` rows. -/
def ColumnsExchanged (a b k : ℕ) (m m' : DenseMatrix α) : Prop :=
  m'.nrows = m.nrows ∧ m'.ncols = m.ncols ∧ m'.data.size = m.data.size ∧
    ∀ i : ℕ, m'.data[i]? = m.data[columnPlaces m.ncols a b k i]?

namespace ColumnsExchanged

variable {a b k : ℕ}

theorem start (a b : ℕ) (m : DenseMatrix α) : ColumnsExchanged a b 0 m m :=
  ⟨rfl, rfl, rfl, fun _ => rfl⟩

/-- One more row. -/
theorem step {E : Failure → Prop} (h : ColumnsExchanged a b k m m')
    (hfits : max (k * m'.ncols + a) (k * m'.ncols + b) < m'.data.size) :
    Ends E (fun data => ColumnsExchanged a b (k + 1) m { m' with data })
      (Storage.exchange m'.data (k * m'.ncols + a) (k * m'.ncols + b)) := by
  obtain ⟨hrows, hcols, hsize, hcells⟩ := h
  obtain ⟨ha, hb⟩ := max_lt_iff.1 hfits
  rw [Storage.exchange_of_lt ha hb]
  refine ⟨hrows, hcols, Array.size_swap.trans hsize, fun i => ?_⟩
  rw [swap_getElem? ha hb, hcells, hcols, columnPlaces, Equiv.Perm.mul_apply]

theorem overrun (wf : m.WellFormed) (hcols : 0 < m.ncols)
    (h : ColumnsExchanged a b (m.nrows - max a b / m.ncols) m m') : LeftByOverrun a b m m' := by
  obtain ⟨hnrows, hncols, hsize, hcells⟩ := h
  have hshape : m'.shape = m.shape := by
    rw [DenseMatrix.shape, DenseMatrix.shape, hnrows, hncols]
  have wf' : m'.WellFormed := by
    rw [DenseMatrix.WellFormed, hsize, wf, hnrows, hncols]
  refine ⟨wf', hshape, hcells, fun hle => ?_, fun hlt => ?_⟩
  · have hnone : m.nrows - max a b / m.ncols = 0 :=
      Nat.sub_eq_zero_of_le ((Nat.le_div_iff_mul_le hcols).2 hle)
    have hdata : m'.data = m.data := Array.ext_getElem? fun i => by
      rw [hcells, hnone]
      rfl
    obtain ⟨nrows, ncols, data⟩ := m
    obtain ⟨nrows', ncols', data'⟩ := m'
    simp_all
  · have hsome : max a b / m.ncols < m.nrows := (Nat.div_lt_iff_lt_mul hcols).2 hlt
    rw [hcells, columnPlaces_min hcols (Nat.sub_pos_of_lt hsome)]

end ColumnsExchanged

/-- A column out of range fails in the first row in which its flat position is past the end
of the storage. -/
theorem DenseMatrix.WellFormed.swapCols_out_of_range (wf : m.WellFormed) {a b : ℕ} (hab : a ≠ b)
    (hrows : 0 < m.nrows) (hcols : 0 < m.ncols) (hout : m.ncols ≤ max a b) :
    ∃ m', (Edit.swapCols a b).perform m = (.error .outOfBounds, m') ∧
      LeftByOverrun a b m m' := by
  -- the larger column, as a column of the row `skipped` rows further down
  let skipped := max a b / m.ncols
  have hskipped : 0 < skipped := Nat.div_pos hout hcols
  have hstart : skipped * m.ncols ≤ max a b := Nat.div_mul_le_self _ _
  have hend : max a b < (skipped + 1) * m.ncols := Nat.lt_mul_of_div_lt (Nat.lt_succ_self _) hcols
  have hfails : Edit.Leaves
      (fun e after => e = .outOfBounds ∧ ColumnsExchanged a b (m.nrows - skipped) m after)
      (fun _ _ => False) (Edit.swapCols a b) m := by
    refine Edit.Leaves.exchange hab ?_
    refine Edit.Leaves.forM_positions_stop (I := fun k after => ColumnsExchanged a b k m after)
      (k := m.nrows - skipped) (by omega) (.start a b m) ?_ ?_
    · intro k before hk hbefore
      refine Edit.Leaves.modifyData (hbefore.step ?_)
      obtain ⟨-, hncols, hsize, -⟩ := hbefore
      have hrow : (k + (skipped + 1)) * m.ncols ≤ m.nrows * m.ncols :=
        Nat.mul_le_mul_right _ (by omega)
      rw [Nat.add_mul] at hrow
      rw [hsize, hncols, wf, Nat.add_max_add_left]
      omega
    · intro before hbefore
      refine Edit.Leaves.modifyData ?_
      have hpast : before.data.size ≤ max ((m.nrows - skipped) * before.ncols + a)
          ((m.nrows - skipped) * before.ncols + b) := by
        obtain ⟨-, hncols, hsize, -⟩ := hbefore
        have hrow : m.nrows * m.ncols ≤ (m.nrows - skipped + skipped) * m.ncols :=
          Nat.mul_le_mul_right _ (by omega)
        rw [Nat.add_mul] at hrow
        rw [hsize, hncols, wf, Nat.add_max_add_left]
        omega
      rw [Storage.exchange_of_le hpast]
      exact ⟨rfl, hbefore⟩
  obtain ⟨e, after, hperform, rfl, hafter⟩ := hfails.exists_perform
  exact ⟨after, hperform, hafter.overrun wf hcols⟩

/-! ### All exchanges -/

/-- **Exchanges of rows and columns.** In any matrix, the two exchanges of rows are one, and an
exchange in range exchanges exactly the two rows or columns and undoes itself. In a matrix with
a row and a column, an exchange of two different rows of which one is out of range fails and
leaves the matrix as it was. An exchange of two different columns of which one is out of range
fails as well. It leaves the matrix as it was if the larger column is past the end of the
storage. If not, the columns are exchanged by flat position in every row where both lie in the
storage. -/
theorem swaps_exchange_or_fail {M : Matrix (Fin r) (Fin c) α} (hm : m.Stores M) :
    (∀ a b : ℕ, (Edit.exchangeRows a b : Edit α Unit) = Edit.swapRows a b) ∧
    (∀ a b : Fin r, (Edit.swapRows (a : ℕ) b).Reorders m (M.submatrix (Equiv.swap a b) id)) ∧
    (∀ a b : Fin c, (Edit.swapCols (a : ℕ) b).Reorders m (M.submatrix id (Equiv.swap a b))) ∧
    ∀ a b : ℕ, a ≠ b → 0 < r → 0 < c →
      (r ≤ max a b → (Edit.swapRows a b).perform m = (.error .outOfBounds, m)) ∧
      (c ≤ max a b → ∃ m', (Edit.swapCols a b).perform m = (.error .outOfBounds, m') ∧
        LeftByOverrun a b m m') := by
  refine ⟨Edit.exchangeRows_eq_swapRows, hm.swapRows_reorders, hm.swapCols_reorders, ?_⟩
  obtain rfl := hm.nrows
  obtain rfl := hm.ncols
  intro a b hab hrows hcols
  exact ⟨fun hout => hm.wellFormed.swapRows_out_of_range hab hcols hout,
    fun hout => hm.wellFormed.swapCols_out_of_range hab hrows hcols hout⟩

/-- Rows and columns in range, a row out of range, and a column whose place in the first row is
one of the second. -/
theorem swaps_exchange_or_fail_two :
    let m : DenseMatrix ℕ := ⟨2, 2, #[1, 2, 3, 4]⟩
    (Edit.swapRows 0 1).Reorders m !![3, 4; 1, 2] ∧
      (Edit.swapCols 0 1).Reorders m !![2, 1; 4, 3] ∧
      (Edit.swapRows 0 2).perform m = (.error .outOfBounds, m) ∧
      ∃ m', (Edit.swapCols 0 2).perform m = (.error .outOfBounds, m') ∧ m'.data[0]? = some 3 := by
  intro m
  have hm : m.Stores !![1, 2; 3, 4] :=
    ⟨rfl, rfl, rfl, fun i j => by fin_cases i <;> fin_cases j <;> rfl⟩
  obtain ⟨-, hrows, hcols, hfails⟩ := swaps_exchange_or_fail hm
  obtain ⟨hrow, hcol⟩ := hfails 0 2 (by decide) (by decide) (by decide)
  obtain ⟨m', hperform, hleft⟩ := hcol (by decide)
  have hturned : !![1, 2; 3, 4].submatrix (Equiv.swap 0 1) id = !![3, 4; 1, 2] := by decide
  have hturned' : !![1, 2; 3, 4].submatrix id (Equiv.swap 0 1) = !![2, 1; 4, 3] := by decide
  exact ⟨hturned ▸ hrows 0 1, hturned' ▸ hcols 0 1, hrow (by decide), m', hperform,
    hleft.reached (by decide)⟩

/-- A failed exchange of columns leaves elements of two rows exchanged. -/
theorem swapCols_fails_changed :
    let m : DenseMatrix ℕ := ⟨2, 2, #[1, 2, 3, 4]⟩
    let after : DenseMatrix ℕ := ⟨2, 2, #[3, 2, 1, 4]⟩
    (Edit.swapCols 0 2).perform m = (.error .outOfBounds, after) ∧ after.data ≠ m.data :=
  ⟨rfl, by decide⟩

end DenseFactor
