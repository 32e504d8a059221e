import Mathlib
import DenseFactor.Proofs.Edit

/-!
# DenseFactor.Proofs.Block

Blocks of a matrix: **writing and reading are inverse**, and a write has a frame.

Design points:

* A block is read by inclusive bounds and through the checked entries, and written by its
  first entry and its shape. `window` is where both meet: the places of a block in the
  matrix, of which a block that is read shows the entries (`Stores.block`) and a block that
  is written replaces them (`Patches`).
* What is stored determines a matrix (`Stores.eq`). Therefore both directions are equalities
  of matrices: the block that is read is the one that was written, and writing back what was
  read leaves the matrix itself.
-/

namespace DenseFactor

variable {α : Type} {r c p q row col : ℕ} {m m' block : DenseMatrix α}
  {M M' : Matrix (Fin r) (Fin c) α} {N : Matrix (Fin p) (Fin q) α}

/-! ### Entries -/

namespace Patches

/-- In its place the block is all there is. -/
theorem submatrix_window (h : Patches row col N (fun _ _ => True) M M') (hrow : row + p ≤ r)
    (hcol : col + q ≤ c) : M'.submatrix (window row hrow) (window col hcol) = N := by
  ext i j
  exact h.inside i j _ _ rfl rfl trivial

/-- A block that is there already changes nothing. -/
theorem eq_self {hrow : row + p ≤ r} {hcol : col + q ≤ c}
    (h : Patches row col (M.submatrix (window row hrow) (window col hcol)) (fun _ _ => True)
      M M') : M' = M := by
  ext i' j'
  by_cases hin : ∃ (i : Fin p) (j : Fin q), (i' : ℕ) = row + i ∧ (j' : ℕ) = col + j
  · obtain ⟨i, j, hi, hj⟩ := hin
    have hi' : window row hrow i = i' := Fin.ext hi.symm
    have hj' : window col hcol j = j' := Fin.ext hj.symm
    rw [h.inside i j i' j' hi hj trivial, Matrix.submatrix_apply, hi', hj']
  · exact h.outside i' j' fun i j _ hij => hin ⟨i, j, hij⟩

end Patches

/-! ### Matrices -/

/-- The matrix `m'` is `m` with the block in the place that starts at `(row, col)`. -/
structure Overwrites (row col : ℕ) (block m m' : DenseMatrix α) : Prop where
  wellFormed : m'.WellFormed
  shape : m'.shape = m.shape
  /-- The block can be read again. -/
  inside (hrows : 0 < block.nrows) (hcols : 0 < block.ncols) :
    m'.block row (row + block.nrows - 1) col (col + block.ncols - 1) = .ok block
  /-- Every other position answers as before. -/
  outside (i j : ℕ)
    (h : ¬ (row ≤ i ∧ i < row + block.nrows ∧ col ≤ j ∧ j < col + block.ncols)) :
    m'.entry i j = m.entry i j

theorem Patches.overwrites (hm : m.Stores M) (hm' : m'.Stores M')
    (hblock : block.Stores N) (hrow : row + p ≤ r) (hcol : col + q ≤ c)
    (h : Patches row col N (fun _ _ => True) M M') : Overwrites row col block m m' where
  wellFormed := hm'.wellFormed
  shape := hm'.shape_eq.trans hm.shape_eq.symm
  inside hrows hcols := by
    rw [hblock.nrows] at hrows ⊢
    rw [hblock.ncols] at hcols ⊢
    obtain ⟨again, hagain, hstores⟩ := Ends.never_iff.1 (hm'.block hrows hcols hrow hcol)
    rw [h.submatrix_window] at hstores
    rw [hagain, hstores.eq hblock]
  outside i j hout := by
    rw [hblock.nrows, hblock.ncols] at hout
    refine hm'.entry_congr hm fun hi hj => h.outside _ _ fun k l _ hkl => hout ?_
    simp only at hkl
    omega

/-- A block that was just read can be written back, which changes nothing. -/
theorem DenseMatrix.Stores.writeBlock_block (hm : m.Stores M) (hp : 0 < p) (hq : 0 < q)
    (hrow : row + p ≤ r) (hcol : col + q ≤ c) :
    ∃ block, m.block row (row + p - 1) col (col + q - 1) = .ok block ∧
      (Edit.writeBlock row col block).perform m = (.ok (), m) := by
  obtain ⟨block, hread, hblock⟩ := Ends.never_iff.1 (hm.block hp hq hrow hcol)
  obtain ⟨m', hperform, M', hm', hpatch⟩ :=
    Edit.exists_perform (hm.writeBlock hblock hrow hcol)
  rw [hpatch.eq_self] at hm'
  exact ⟨block, hread, by rw [hperform, hm'.eq hm]⟩

/-- **Blocks.** A block that fits is written; it is then read from its place, and every other
entry is as before. A block that does not fit fails with that message, and the matrix is as
before. A block of the matrix that is read and written back changes nothing. -/
theorem writeBlock_overwrites_or_fails (hm : m.WellFormed) (hblock : block.WellFormed)
    (row col : ℕ) :
    (row + block.nrows ≤ m.nrows ∧ col + block.ncols ≤ m.ncols →
      ∃ m', (Edit.writeBlock row col block).perform m = (.ok (), m') ∧
        Overwrites row col block m m') ∧
    (¬ (row + block.nrows ≤ m.nrows ∧ col + block.ncols ≤ m.ncols) →
      (Edit.writeBlock row col block).perform m =
        (.error (.misuse (.blockDoesNotFit block.shape row col m.shape)), m)) ∧
    ∀ firstRow lastRow firstCol lastCol : ℕ, firstRow ≤ lastRow → lastRow < m.nrows →
      firstCol ≤ lastCol → lastCol < m.ncols →
      ∃ read, m.block firstRow lastRow firstCol lastCol = .ok read ∧
        (Edit.writeBlock firstRow firstCol read).perform m = (.ok (), m) := by
  obtain ⟨M, hM⟩ := hm.exists_stores
  obtain ⟨N, hN⟩ := hblock.exists_stores
  refine ⟨?fits, ?out, ?back⟩
  case fits =>
    rintro ⟨hrow, hcol⟩
    obtain ⟨m', hperform, M', hM', hpatch⟩ := Edit.exists_perform (hM.writeBlock hN hrow hcol)
    exact ⟨m', hperform, hpatch.overwrites hM hM' hN hrow hcol⟩
  case out =>
    intro hout
    obtain ⟨e, after, hperform, rfl, rfl⟩ :=
      (Edit.writeBlock_leaves_of_not_fits hout).exists_perform
    exact hperform
  case back =>
    intro firstRow lastRow firstCol lastCol hrows hlastRow hcols hlastCol
    have hfitsRow : firstRow + (lastRow - firstRow + 1) ≤ m.nrows := by omega
    have hfitsCol : firstCol + (lastCol - firstCol + 1) ≤ m.ncols := by omega
    have hback := hM.writeBlock_block (Nat.succ_pos _) (Nat.succ_pos _) hfitsRow hfitsCol
    have hrow : firstRow + (lastRow - firstRow + 1) - 1 = lastRow := by omega
    have hcol : firstCol + (lastCol - firstCol + 1) - 1 = lastCol := by omega
    rwa [hrow, hcol] at hback

/-- A row of two elements in the lower right corner, and one that reaches past it. -/
theorem writeBlock_overwrites_or_fails_corner :
    let m : DenseMatrix ℕ := ⟨2, 3, #[1, 2, 3, 4, 5, 6]⟩
    let pair : DenseMatrix ℕ := ⟨1, 2, #[7, 8]⟩
    (∃ m', (Edit.writeBlock 1 1 pair).perform m = (.ok (), m') ∧
      m'.block 1 1 1 2 = .ok pair ∧ m'.entry 0 2 = .ok 3) ∧
      (Edit.writeBlock 1 2 pair).perform m =
        (.error (.misuse (.blockDoesNotFit ⟨1, 2⟩ 1 2 ⟨2, 3⟩)), m) ∧
      ∃ read, m.block 0 1 1 1 = .ok read ∧ (Edit.writeBlock 0 1 read).perform m = (.ok (), m) := by
  intro m pair
  have hm : m.WellFormed := rfl
  have hpair : pair.WellFormed := rfl
  obtain ⟨hfits, -, hback⟩ := writeBlock_overwrites_or_fails hm hpair 1 1
  obtain ⟨-, hout, -⟩ := writeBlock_overwrites_or_fails hm hpair 1 2
  obtain ⟨m', hperform, hover⟩ := hfits (by decide)
  refine ⟨⟨m', hperform, hover.inside (by decide) (by decide), ?_⟩, hout (by decide),
    hback 0 1 1 1 (by decide) (by decide) (by decide) (by decide)⟩
  rw [hover.outside 0 2 (by decide)]
  rfl

end DenseFactor
