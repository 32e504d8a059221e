import Mathlib
import DenseFactor.Matrix.Column
import DenseFactor.Proofs.Edit

/-!
# DenseFactor.Proofs.Address

Entries as **cells of the storage**.

Design points:

* Inside the shape an entry is read, and written, in several ways: with both coordinates tested,
  by its flat position, and through the elements of a row. In a well-formed matrix they are one
  (`DenseMatrix.Addressed`).
* Distinct entries have distinct cells (`position_inj`). A write is therefore seen at its own
  entry and nowhere else, which is said by the entries it leaves (`Stores.written`).
-/

namespace DenseFactor

variable {α : Type} {r c : ℕ} {m : DenseMatrix α}

/-- The matrix `m'` is `m` with another element at one entry. -/
structure DenseMatrix.UpdatedAt (i j : ℕ) (x : α) (m m' : DenseMatrix α) : Prop where
  wellFormed : m'.WellFormed
  shape : m'.shape = m.shape
  entry : m'.entry i j = .ok x
  /-- Every other position answers as before. -/
  others (i' j' : ℕ) (h : ¬ (i' = i ∧ j' = j)) : m'.entry i' j' = m.entry i' j'

/-- The entries are addressed one by one, each in a cell of its own. -/
structure DenseMatrix.Addressed (m : DenseMatrix α) : Prop where
  /-- All ways to read an entry lead to the same element. -/
  read {i j : ℕ} (hi : i < m.nrows) (hj : j < m.ncols) :
    ∃ x, m.entry i j = .ok x ∧ m.view.entry i j = .ok x ∧
      ∃ row, m.rowSlice i = .ok row ∧ row[j]? = some x
  /-- The element is in the cell at the flat position, which is in the storage. -/
  cell {i j : ℕ} (hi : i < m.nrows) (hj : j < m.ncols) :
    i * m.ncols + j < m.data.size ∧ m.entry i j = Storage.read m.data (i * m.ncols + j)
  distinct {i j i' j' : ℕ} (hj : j < m.ncols) (hj' : j' < m.ncols)
    (h : i * m.ncols + j = i' * m.ncols + j') : i = i' ∧ j = j'
  /-- All ways to write an entry leave one matrix, in which only this entry is new. -/
  write {i j : ℕ} (hi : i < m.nrows) (hj : j < m.ncols) (x : α) :
    ∃ m', m.UpdatedAt i j x m' ∧ (Edit.writeEntry i j x).perform m = (.ok (), m') ∧
      (Edit.writeStored i j x).perform m = (.ok (), m') ∧
      (Edit.writeCell (i * m.ncols + j) x).perform m = (.ok (), m') ∧
      (Edit.writeInRow i j x).perform m = (.ok (), m')

namespace DenseMatrix.Stores

variable {M : Matrix (Fin r) (Fin c) α}

/-- The entries with another element at one place. -/
def written (M : Matrix (Fin r) (Fin c) α) (i : Fin r) (j : Fin c) (x : α) :
    Matrix (Fin r) (Fin c) α :=
  Matrix.of fun i' j' => if i' = i ∧ j' = j then x else M i' j'

theorem updatedAt {m' : DenseMatrix α} (hm : m.Stores M) {i : Fin r} {j : Fin c} {x : α}
    (hm' : m'.Stores (written M i j x)) : m.UpdatedAt i j x m' where
  wellFormed := hm'.wellFormed
  shape := hm'.shape_eq.trans hm.shape_eq.symm
  entry := by
    rw [hm'.entry, written, Matrix.of_apply, if_pos ⟨rfl, rfl⟩]
  others i' j' hother := by
    refine hm'.entry_congr hm fun hi hj => if_neg fun hsame => hother ?_
    exact ⟨congrArg Fin.val hsame.1, congrArg Fin.val hsame.2⟩

variable (hm : m.Stores M) (i : Fin r) (j : Fin c) (x : α)

include hm

theorem leaves_writeStored :
    Edit.Leaves (fun e _ => Never e) (fun _ => (·.Stores (written M i j x)))
      (Edit.writeStored (i : ℕ) j x) m :=
  Edit.Leaves.modifyData (hm.write i j x)

theorem leaves_writeCell :
    Edit.Leaves (fun e _ => Never e) (fun _ => (·.Stores (written M i j x)))
      (Edit.writeCell (i * m.ncols + j) x) m :=
  Edit.Leaves.modifyData (hm.write i j x)

theorem leaves_writeEntry :
    Edit.Leaves (fun e _ => Never e) (fun _ => (·.Stores (written M i j x)))
      (Edit.writeEntry (i : ℕ) j x) m := by
  have hin : m.checkEntry i j = .ok () :=
    if_pos ⟨hm.nrows ▸ i.isLt, hm.ncols ▸ j.isLt⟩
  refine (Edit.Leaves.require hin).bind fun _ after hafter => ?_
  exact hafter ▸ hm.leaves_writeStored i j x

theorem leaves_writeInRow :
    Edit.Leaves (fun e _ => Never e) (fun _ => (·.Stores (written M i j x)))
      (Edit.writeInRow (i : ℕ) j x) m := by
  obtain ⟨row, hrow, hsize, -⟩ := Ends.never_iff.1 (hm.rowSlice i)
  refine (Edit.Leaves.require ?_).bind fun _ after hafter => ?_
  · rw [hrow]
    exact if_pos (hsize ▸ j.isLt)
  · exact hafter ▸ hm.leaves_writeStored i j x

end DenseMatrix.Stores

/-- A well-formed matrix is addressed entry by entry. -/
theorem DenseMatrix.WellFormed.addressed (wf : m.WellFormed) : m.Addressed where
  read {i j} hi hj := by
    obtain ⟨M, hM⟩ := wf.exists_stores
    obtain ⟨row, hrow, -, hget⟩ := Ends.never_iff.1 (hM.rowSlice ⟨i, hi⟩)
    exact ⟨M ⟨i, hi⟩ ⟨j, hj⟩, hM.entry ⟨i, hi⟩ ⟨j, hj⟩, hM.storedAt ⟨i, hi⟩ ⟨j, hj⟩, row, hrow,
      hget ⟨j, hj⟩⟩
  cell hi hj := ⟨wf.position_lt_size hi hj, entry_eq_storedAt hi hj⟩
  distinct hj hj' h := position_inj hj hj' h
  write {i j} hi hj x := by
    obtain ⟨M, hM⟩ := wf.exists_stores
    obtain ⟨m', hentry, hm'⟩ := Edit.exists_perform (hM.leaves_writeEntry ⟨i, hi⟩ ⟨j, hj⟩ x).apply
    obtain ⟨m₂, hstored, hm₂⟩ :=
      Edit.exists_perform (hM.leaves_writeStored ⟨i, hi⟩ ⟨j, hj⟩ x).apply
    obtain ⟨m₃, hcell, hm₃⟩ := Edit.exists_perform (hM.leaves_writeCell ⟨i, hi⟩ ⟨j, hj⟩ x).apply
    obtain ⟨m₄, hrow, hm₄⟩ := Edit.exists_perform (hM.leaves_writeInRow ⟨i, hi⟩ ⟨j, hj⟩ x).apply
    obtain rfl := hm₂.eq hm'
    obtain rfl := hm₃.eq hm'
    obtain rfl := hm₄.eq hm'
    exact ⟨_, hM.updatedAt hm', hentry, hstored, hcell, hrow⟩

/-- The elements of a vector are the entries of its column. -/
structure ColumnVector.Addressed (v : ColumnVector α) : Prop where
  column : v.column.Addressed
  read {i : ℕ} (hi : i < v.length) :
    v.entry i = v.column.entry i 0 ∧ v.view.entry i 0 = v.column.entry i 0
  write {i : ℕ} (hi : i < v.length) (x : α) :
    ∃ v', v.edit (.writeCell i x) = (.ok (), v') ∧ v.column.UpdatedAt i 0 x v'.column

theorem ColumnVector.WellFormed.addressed {v : ColumnVector α} (wf : v.WellFormed) :
    v.Addressed where
  column := wf.2.addressed
  read {i} hi := by
    have hentry : v.column.entry i 0 = v.column.storedAt i 0 :=
      DenseMatrix.entry_eq_storedAt hi (wf.1 ▸ Nat.one_pos)
    refine ⟨?_, hentry.symm⟩
    rw [hentry, DenseMatrix.storedAt, wf.1, mul_one, add_zero]
    rfl
  write {i} hi x := by
    obtain ⟨M, hM⟩ := wf.2.exists_stores
    have hfirst : 0 < v.column.ncols := wf.1 ▸ Nat.one_pos
    have hcell : i * v.column.ncols + 0 = i := by rw [wf.1, mul_one, add_zero]
    have hleaves := hM.leaves_writeCell ⟨i, hi⟩ ⟨0, hfirst⟩ x
    simp only [hcell] at hleaves
    obtain ⟨column, hperform, hcolumn⟩ := Edit.exists_perform hleaves.apply
    refine ⟨⟨column⟩, ?_, hM.updatedAt hcolumn⟩
    rw [ColumnVector.edit, hperform]

end DenseFactor
