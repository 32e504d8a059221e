import Mathlib
import DenseFactor.Matrix.Block
import DenseFactor.Proofs.Edit

/-!
# DenseFactor.Proofs.Shape

The **shape** of computed matrices, and that computing them stays inside their operands.

Design points:

* `m.HasShape r c` says that `m` is well formed with `r` rows and `c` columns. Nothing is
  said of its entries: they may be NaNs, and comparisons of them may answer anything.
* `FailsOnly E x` says how `x` may fail and nothing of its result. With `E := Never` this is
  the statement that no position was outside a matrix and no test of operands failed.
* There is one rule for each way the library builds a matrix. An algorithm keeps a shape by
  these rules alone, for every element type.
-/

namespace DenseFactor

variable {α β : Type} {E : Failure → Prop} {r c n : ℕ}

/-- The computation has a result, or a failure that meets `E`. -/
abbrev FailsOnly (E : Failure → Prop) (x : Except Failure α) : Prop := Ends E (fun _ => True) x

/-- A loop keeps an invariant that does not count positions. -/
theorem Ends.foldlM_mem {I : β → Prop} {step : β → ℕ → Except Failure β} {l : List ℕ} {b : β}
    (h0 : I b) (hstep : ∀ k ∈ l, ∀ b, I b → Ends E I (step b k)) : Ends E I (l.foldlM step b) := by
  induction l generalizing b with
  | nil => exact h0
  | cons k l ih =>
      rw [List.foldlM_cons]
      refine (hstep k List.mem_cons_self b h0).bind fun b' hb' => ?_
      exact ih hb' fun k' hk' => hstep k' (List.mem_cons_of_mem k hk')

/-- A sum over positions fails as its terms do. -/
theorem FailsOnly.foldPositions {step : β → ℕ → Except Failure β} {start stop : ℕ} {b : β}
    (h : ∀ k b, start ≤ k → k < stop → FailsOnly E (step b k)) :
    FailsOnly E (foldPositions start stop b step) := by
  refine Ends.foldlM_mem trivial fun k hk b _ => ?_
  obtain ⟨hle, hlt⟩ := mem_positions.1 hk
  exact h k b hle hlt

theorem FailsOnly.findM? {p : ℕ → Except Failure Bool} {l : List ℕ}
    (h : ∀ i ∈ l, FailsOnly E (p i)) : FailsOnly E (l.findM? p) :=
  (Ends.findM?_mem h).imp fun _ _ => trivial

theorem FailsOnly.findSomeM? {f : ℕ → Except Failure (Option β)} {l : List ℕ}
    (h : ∀ i ∈ l, FailsOnly E (f i)) : FailsOnly E (l.findSomeM? f) := by
  induction l with
  | nil => exact trivial
  | cons i l ih =>
      rw [List.findSomeM?]
      refine (h i List.mem_cons_self).bind fun found _ => ?_
      cases found with
      | some b => exact trivial
      | none => exact ih fun j hj => h j (List.mem_cons_of_mem i hj)

theorem FailsOnly.anyM {p : ℕ → Except Failure Bool} {l : List ℕ}
    (h : ∀ i ∈ l, FailsOnly E (p i)) : FailsOnly E (l.anyM p) := by
  induction l with
  | nil => exact trivial
  | cons i l ih =>
      rw [List.anyM]
      refine (h i List.mem_cons_self).bind fun found _ => ?_
      cases found with
      | true => exact trivial
      | false => exact ih fun j hj => h j (List.mem_cons_of_mem i hj)

/-! ### Runs of elements -/

namespace Storage

theorem failsOnly_read {xs : Array α} {i : ℕ} (h : i < xs.size) : FailsOnly E (read xs i) := by
  rw [read_of_lt h]
  exact trivial

theorem ends_write_size {xs : Array α} {i : ℕ} {x : α} (h : i < xs.size) :
    Ends E (·.size = xs.size) (write xs i x) := by
  rw [write_of_lt h]
  exact Array.size_set h

theorem ends_exchange_size {xs : Array α} {i j : ℕ} (hi : i < xs.size) (hj : j < xs.size) :
    Ends E (·.size = xs.size) (exchange xs i j) := by
  rw [exchange_of_lt hi hj]
  exact Array.size_swap

theorem ends_collect_size {f : ℕ → Except Failure α} (h : ∀ i < n, FailsOnly E (f i)) :
    Ends E (·.size = n) (collect n f) := by
  cases hc : collect n f with
  | ok xs => exact (collect_eq_ok_iff.1 hc).1
  | error e =>
      obtain ⟨i, hi, he⟩ := exists_error_of_collect hc
      exact (h i hi).of_error he

end Storage

/-! ### Shapes -/

/-- A well-formed matrix of `r` rows and `c` columns. -/
structure DenseMatrix.HasShape (m : DenseMatrix α) (r c : ℕ) : Prop where
  nrows : m.nrows = r
  ncols : m.ncols = c
  wellFormed : m.WellFormed

namespace DenseMatrix

variable {m : DenseMatrix α}

theorem Stores.hasShape {M : Matrix (Fin r) (Fin c) α} (h : m.Stores M) : m.HasShape r c :=
  ⟨h.nrows, h.ncols, h.wellFormed⟩

namespace HasShape

theorem exists_stores (h : m.HasShape r c) : ∃ M : Matrix (Fin r) (Fin c) α, m.Stores M := by
  obtain ⟨rfl, rfl, wf⟩ := h
  exact wf.exists_stores

/-- Every entry of the shape can be read. -/
theorem failsOnly_entry (h : m.HasShape r c) {i j : ℕ} (hi : i < r) (hj : j < c) :
    FailsOnly E (m.entry i j) := by
  obtain ⟨x, hx⟩ := h.wellFormed.exists_entry (h.nrows ▸ hi) (h.ncols ▸ hj)
  rw [hx]
  exact trivial

theorem readable (h : m.HasShape r c) : m.view.Readable := h.wellFormed.view_readable

end HasShape

/-! ### Building -/

theorem ends_tabulate_shape {f : ℕ → ℕ → Except Failure α}
    (h : ∀ i j, i < r → j < c → FailsOnly E (f i j)) :
    Ends E (·.HasShape r c) (tabulate r c f) := by
  refine (Ends.tabulate fun (i : Fin r) (j : Fin c) => h i j i.isLt j.isLt).imp ?_
  intro m hm
  obtain ⟨M, hM, -⟩ := hm
  exact hM.hasShape

theorem HasShape.mapEntries (hm : m.HasShape r c) {f : ℕ → ℕ → α → Except Failure β}
    (h : ∀ i j x, i < r → j < c → FailsOnly E (f i j x)) :
    Ends E (·.HasShape r c) (m.mapEntries f) := by
  unfold DenseMatrix.mapEntries
  rw [hm.nrows, hm.ncols]
  refine ends_tabulate_shape fun i j hi hj => ?_
  exact (hm.failsOnly_entry hi hj).bind fun x _ => h i j x hi hj

theorem ends_ofView_shape {v : MatrixView α} (h : v.Readable) :
    Ends E (·.HasShape v.nrows v.ncols) (ofView v) := by
  obtain ⟨V, hV⟩ := h.exists_shows rfl rfl
  exact hV.ofView.imp fun m hm => hm.hasShape

theorem HasShape.transpose (hm : m.HasShape r c) : Ends E (·.HasShape c r) m.transpose := by
  unfold DenseMatrix.transpose
  rw [hm.nrows, hm.ncols]
  exact ends_tabulate_shape fun i j hi hj => hm.failsOnly_entry hj hi

theorem HasShape.adjoint {ρ : Type} [EuclideanScalar α ρ] (hm : m.HasShape r c) :
    Ends E (·.HasShape c r) m.adjoint := by
  unfold DenseMatrix.adjoint
  rw [hm.nrows, hm.ncols]
  exact ends_tabulate_shape fun i j hi hj => (hm.failsOnly_entry hj hi).bind fun _ _ => trivial

/-- A block inside the shape. -/
theorem HasShape.block (hm : m.HasShape r c) {firstRow lastRow firstCol lastCol : ℕ}
    (hrows : firstRow ≤ lastRow) (hr : lastRow < r) (hcols : firstCol ≤ lastCol)
    (hc : lastCol < c) :
    Ends E (·.HasShape (lastRow - firstRow + 1) (lastCol - firstCol + 1))
      (m.block firstRow lastRow firstCol lastCol) := by
  unfold DenseMatrix.block
  rw [hm.nrows, hm.ncols, if_pos ⟨hrows, hr, hcols, hc⟩]
  refine ends_tabulate_shape fun i j hi hj => hm.failsOnly_entry ?_ ?_
  · omega
  · omega

section Scalar

variable [Scalar α]

theorem hasShape_zeros (r c : ℕ) : (zeros r c : DenseMatrix α).HasShape r c :=
  (stores_zeros r c).hasShape

theorem ends_identity_shape (n : ℕ) : Ends E (·.HasShape n n) (identity (α := α) n) :=
  ends_tabulate_shape fun _ _ _ _ => trivial

theorem ends_diagonal_shape (entries : Array α) :
    Ends E (·.HasShape entries.size entries.size) (diagonal entries) := by
  refine ends_tabulate_shape fun i j hi _ => ?_
  by_cases hij : i = j
  · rw [if_pos hij]
    exact Storage.failsOnly_read hi
  · rw [if_neg hij]
    exact trivial

end Scalar

/-! ### Editing -/

theorem HasShape.swapRows (hm : m.HasShape r c) {a b : ℕ} (ha : a < r) (hb : b < r) :
    Ends E (·.HasShape r c) ((Edit.swapRows a b).apply m) := by
  obtain ⟨M, hM⟩ := hm.exists_stores
  exact ((hM.swapRows ⟨a, ha⟩ ⟨b, hb⟩).imp fun _ h => h.hasShape).of_never

theorem HasShape.swapCols (hm : m.HasShape r c) {a b : ℕ} (ha : a < c) (hb : b < c) :
    Ends E (·.HasShape r c) ((Edit.swapCols a b).apply m) := by
  obtain ⟨M, hM⟩ := hm.exists_stores
  exact ((hM.swapCols ⟨a, ha⟩ ⟨b, hb⟩).imp fun _ h => h.hasShape).of_never

/-- A row of the matrix, as a matrix. -/
theorem HasShape.rowSlice (hm : m.HasShape r c) {i : ℕ} (hi : i < r) :
    Ends E (fun values => (⟨1, c, values⟩ : DenseMatrix α).HasShape 1 c) (m.rowSlice i) := by
  obtain ⟨M, hM⟩ := hm.exists_stores
  refine (hM.rowSlice ⟨i, hi⟩).imp ?_
  intro values hvalues
  exact (stores_row hvalues.1 hvalues.2).hasShape

theorem HasShape.writeBlock (hm : m.HasShape r c) {block : DenseMatrix α} {p q row col : ℕ}
    (hblock : block.HasShape p q) (hrow : row + p ≤ r) (hcol : col + q ≤ c) :
    Ends E (·.HasShape r c) ((Edit.writeBlock row col block).apply m) := by
  obtain ⟨M, hM⟩ := hm.exists_stores
  obtain ⟨N, hN⟩ := hblock.exists_stores
  refine ((hM.writeBlock hN hrow hcol).imp ?_).of_never
  intro m' hm'
  obtain ⟨M', hM', -⟩ := hm'
  exact hM'.hasShape

/-! ### Multiplying -/

section Products

variable [Scalar α] {k : ℕ} {m' : DenseMatrix α}

theorem failsOnly_addProduct (hE : FailsBy α E fun _ => True) (sum x y : α) :
    FailsOnly E (addProduct sum x y) :=
  (hE.ends_mul x y).bind fun p _ => hE.ends_add sum p

theorem failsOnly_sumProducts (hE : FailsBy α E fun _ => True)
    {left right : ℕ → Except Failure α} (hleft : ∀ i < n, FailsOnly E (left i))
    (hright : ∀ i < n, FailsOnly E (right i)) : FailsOnly E (sumProducts n left right) := by
  refine FailsOnly.foldPositions fun i sum _ hi => ?_
  refine (hleft i hi).bind fun x _ => (hright i hi).bind fun y _ => ?_
  exact failsOnly_addProduct hE sum x y

theorem HasShape.mul (hE : FailsBy α E fun _ => True) (hm : m.HasShape r k)
    (hm' : m'.HasShape k c) : Ends E (·.HasShape r c) (m.mul m') := by
  unfold DenseMatrix.mul
  rw [hm.nrows, hm.ncols, hm'.nrows, hm'.ncols, if_neg (not_not.2 rfl)]
  refine ends_tabulate_shape fun i j hi hj => FailsOnly.foldPositions fun t sum _ ht => ?_
  refine (hm.failsOnly_entry hi ht).bind fun x _ => ?_
  by_cases hzero : Scalar.isZero x = true
  · rw [if_pos hzero]
    exact trivial
  · rw [if_neg hzero]
    exact (hm'.failsOnly_entry ht hj).bind fun y _ => failsOnly_addProduct hE sum x y

theorem HasShape.mulTranspose (hE : FailsBy α E fun _ => True) (hm : m.HasShape r k)
    (hm' : m'.HasShape c k) : Ends E (·.HasShape r c) (m.mulTranspose m') := by
  unfold DenseMatrix.mulTranspose
  rw [hm.nrows, hm.ncols, hm'.nrows, hm'.ncols, if_neg (not_not.2 rfl)]
  refine ends_tabulate_shape fun i j hi hj => ?_
  exact failsOnly_sumProducts hE (fun t ht => hm.failsOnly_entry hi ht)
    fun t ht => hm'.failsOnly_entry hj ht

theorem HasShape.transposeMul (hE : FailsBy α E fun _ => True) (hm : m.HasShape k r)
    (hm' : m'.HasShape k c) : Ends E (·.HasShape r c) (m.transposeMul m') := by
  unfold DenseMatrix.transposeMul
  rw [hm.nrows, hm.ncols, hm'.nrows, hm'.ncols, if_neg (not_not.2 rfl)]
  refine ends_tabulate_shape fun i j hi hj => ?_
  exact failsOnly_sumProducts hE (fun t ht => hm.failsOnly_entry ht hi)
    fun t ht => hm'.failsOnly_entry ht hj

end Products

end DenseMatrix

/-! ### Columns -/

/-- A well-formed column vector of `n` elements. -/
structure ColumnVector.HasLength (v : ColumnVector α) (n : ℕ) : Prop where
  length : v.length = n
  wellFormed : v.WellFormed

theorem ColumnVector.WellFormed.view_readable {v : ColumnVector α} (wf : v.WellFormed) :
    v.view.Readable := by
  intro i hi j hj
  have hj : j < v.column.ncols := by
    rw [wf.1]
    exact hj
  exact wf.2.view_readable i hi j hj

theorem ColumnVector.ends_ofColumn_length {v : MatrixView α} (hv : v.Readable) {j : ℕ}
    (hj : j < v.ncols) : Ends E (·.HasLength v.nrows) (ColumnVector.ofColumn v j) := by
  unfold ColumnVector.ofColumn
  refine Ends.bind (Storage.ends_collect_size fun i hi => ?_) fun data hdata => ?_
  · obtain ⟨x, hx⟩ := hv i hi j hj
    rw [hx]
    exact trivial
  · exact ⟨hdata, rfl, (Nat.mul_one _).symm⟩

end DenseFactor
