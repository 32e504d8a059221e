import Mathlib
import DenseFactor.Matrix.Block
import DenseFactor.Matrix.Edit
import DenseFactor.Matrix.Product
import DenseFactor.Proofs.Scalar.Exact

/-!
# DenseFactor.Proofs.Stored

Stored matrices and views as **matrices in the mathematical sense**.

Design points:

* `m.Stores M` says that `m` is well formed and has the shape and the entries of
  `M`; `v.Shows M` says that a view reads as `M` inside its shape, and nothing about
  what it answers elsewhere.
* Each way to build a matrix has one lemma that says which matrix is stored
  afterwards: `Ends.tabulate` and `Ends.mapEntries` for a pass whose entries each
  end well, `Stores.exchangeRows` for an exchange.
* The entries are elements of the library, not numbers. What they mean is said by
  a map on them, so one lemma about a pass serves rounded and exact elements.
-/

namespace DenseFactor

variable {α β : Type} {E : Failure → Prop} {r c : ℕ}

/-- The matrix has the shape and the entries of `M`. -/
structure DenseMatrix.Stores (m : DenseMatrix α) (M : Matrix (Fin r) (Fin c) α) : Prop where
  nrows : m.nrows = r
  ncols : m.ncols = c
  wellFormed : m.WellFormed
  entry (i : Fin r) (j : Fin c) : m.entry i j = .ok (M i j)

/-- The view has the shape of `M` and reads as `M` inside it. -/
structure MatrixView.Shows (v : MatrixView α) (M : Matrix (Fin r) (Fin c) α) : Prop where
  nrows : v.nrows = r
  ncols : v.ncols = c
  entry (i : Fin r) (j : Fin c) : v.entry i j = .ok (M i j)

/-- A matrix as a view, with nothing outside its shape. -/
def MatrixView.ofMatrix (M : Matrix (Fin r) (Fin c) α) : MatrixView α where
  nrows := r
  ncols := c
  entry i j :=
    if h : i < r ∧ j < c then .ok (M ⟨i, h.1⟩ ⟨j, h.2⟩)
    else .error (.misuse (.noEntry i j ⟨r, c⟩))

theorem MatrixView.ofMatrix_shows (M : Matrix (Fin r) (Fin c) α) : (ofMatrix M).Shows M where
  nrows := rfl
  ncols := rfl
  entry i j := dif_pos ⟨i.isLt, j.isLt⟩

namespace DenseMatrix

variable {m : DenseMatrix α} {M : Matrix (Fin r) (Fin c) α}

/-! ### Reading -/

/-- Inside the shape the flat position leads to the entry. -/
theorem Stores.storedAt (h : m.Stores M) (i : Fin r) (j : Fin c) :
    m.storedAt i j = .ok (M i j) := by
  rw [← h.entry i j, entry_eq_storedAt (h.nrows ▸ i.isLt) (h.ncols ▸ j.isLt)]

theorem Stores.lt_of_mem_positions (h : m.Stores M) {i : ℕ} (hi : i ∈ positions 0 m.nrows) :
    i < r :=
  h.nrows ▸ (mem_positions.1 hi).2

theorem Stores.position_lt (h : m.Stores M) (i : Fin r) (j : Fin c) :
    (i : ℕ) * m.ncols + j < m.data.size :=
  h.wellFormed.position_lt_size (h.nrows ▸ i.isLt) (h.ncols ▸ j.isLt)

theorem Stores.getElem? (h : m.Stores M) (i : Fin r) (j : Fin c) :
    m.data[(i : ℕ) * m.ncols + j]? = some (M i j) := by
  have hentry := h.storedAt i j
  rw [storedAt_of_lt (h.position_lt i j)] at hentry
  rw [Array.getElem?_eq_getElem (h.position_lt i j), Except.ok.inj hentry]

/-- A stored matrix is seen by its view. -/
theorem Stores.view (h : m.Stores M) : m.view.Shows M where
  nrows := h.nrows
  ncols := h.ncols
  entry := h.storedAt

/-- A matrix stores one matrix only. -/
theorem Stores.unique {M' : Matrix (Fin r) (Fin c) α} (h : m.Stores M) (h' : m.Stores M') :
    M = M' := by
  ext i j
  have hij := (h.entry i j).symm.trans (h'.entry i j)
  exact Except.ok.inj hij

theorem Stores.shape_eq (h : m.Stores M) : m.shape = ⟨r, c⟩ := by
  rw [DenseMatrix.shape, h.nrows, h.ncols]

/-- Matrices of one shape answer alike wherever they store the same, and outside. -/
theorem Stores.entry_congr {m' : DenseMatrix α} {M' : Matrix (Fin r) (Fin c) α} (h : m.Stores M)
    (h' : m'.Stores M') {i j : ℕ}
    (heq : ∀ (hi : i < r) (hj : j < c), M ⟨i, hi⟩ ⟨j, hj⟩ = M' ⟨i, hi⟩ ⟨j, hj⟩) :
    m.entry i j = m'.entry i j := by
  by_cases hin : i < r ∧ j < c
  · have hentry := h.entry ⟨i, hin.1⟩ ⟨j, hin.2⟩
    rw [heq hin.1 hin.2] at hentry
    exact hentry.trans (h'.entry ⟨i, hin.1⟩ ⟨j, hin.2⟩).symm
  · simp [DenseMatrix.entry, checkEntry, h.shape_eq, h'.shape_eq, h.nrows, h.ncols, h'.nrows,
      h'.ncols, hin, bind, Except.bind]

/-- Every flat position is the place of an entry. -/
theorem exists_place {k : ℕ} (hk : k < r * c) : ∃ (i : Fin r) (j : Fin c), (i : ℕ) * c + j = k := by
  have hpos : 0 < c := Nat.pos_of_ne_zero fun h => by simp [h] at hk
  refine ⟨⟨k / c, (Nat.div_lt_iff_lt_mul hpos).2 hk⟩, ⟨k % c, Nat.mod_lt _ hpos⟩, ?_⟩
  show k / c * c + k % c = k
  rw [mul_comm]
  exact Nat.div_add_mod k c

/-- The element at a flat position is the entry there. -/
theorem Stores.exists_getElem (h : m.Stores M) {k : ℕ} (hk : k < m.data.size) :
    ∃ (i : Fin r) (j : Fin c), (i : ℕ) * c + j = k ∧ m.data[k] = M i j := by
  have hlt : k < r * c := by
    rw [← h.nrows, ← h.ncols, ← h.wellFormed]
    exact hk
  obtain ⟨i, j, hplace⟩ := exists_place hlt
  have hget := h.getElem? i j
  rw [h.ncols, hplace, Array.getElem?_eq_getElem hk] at hget
  exact ⟨i, j, hplace, Option.some.inj hget⟩

/-- Every stored element is an entry. -/
theorem Stores.exists_of_mem (h : m.Stores M) {x : α} (hx : x ∈ m.data) : ∃ i j, M i j = x := by
  obtain ⟨k, hk, rfl⟩ := Array.mem_iff_getElem.1 hx
  obtain ⟨i, j, -, hget⟩ := h.exists_getElem hk
  exact ⟨i, j, hget.symm⟩

theorem Stores.mem (h : m.Stores M) (i : Fin r) (j : Fin c) : M i j ∈ m.data :=
  Array.mem_of_getElem? (h.getElem? i j)

/-- The elements are stored row by row. -/
theorem Stores.toList_eq (h : m.Stores M) :
    m.data.toList = List.ofFn fun k : Fin (r * c) => M k.divNat k.modNat := by
  have hsize : m.data.size = r * c := by
    rw [h.wellFormed, h.nrows, h.ncols]
  refine List.ext_getElem (by rw [Array.length_toList, List.length_ofFn, hsize]) fun k hk hk' => ?_
  obtain ⟨i, j, hplace, hget⟩ := h.exists_getElem (Array.length_toList ▸ hk)
  rw [Array.getElem_toList, hget, List.getElem_ofFn]
  have hk : (⟨k, hsize ▸ hk⟩ : Fin (r * c)) = finProdFinEquiv (i, j) := by
    refine Fin.ext (hplace.symm.trans ?_)
    show (i : ℕ) * c + j = j + c * i
    ring
  have hplaced := finProdFinEquiv.symm_apply_eq.2 hk
  exact (congrArg (fun p : Fin r × Fin c => M p.1 p.2) hplaced).symm

/-- What is stored determines the matrix. -/
theorem Stores.eq {m' : DenseMatrix α} (h : m.Stores M) (h' : m'.Stores M) : m = m' := by
  have hdata : m.data = m'.data := Array.toList_inj.1 (h.toList_eq.trans h'.toList_eq.symm)
  obtain ⟨nrows, ncols, data⟩ := m
  obtain ⟨nrows', ncols', data'⟩ := m'
  obtain rfl : nrows = nrows' := h.nrows.trans h'.nrows.symm
  obtain rfl : ncols = ncols' := h.ncols.trans h'.ncols.symm
  obtain rfl : data = data' := hdata
  rfl

/-- A sum over the stored elements is one over all entries. -/
theorem Stores.sum_data [AddCommMonoid β] (h : m.Stores M) (f : α → β) :
    (m.data.toList.map f).sum = ∑ i, ∑ j, f (M i j) := by
  rw [h.toList_eq, List.map_ofFn, List.sum_ofFn, ← Fintype.sum_prod_type']
  exact Equiv.sum_comp finProdFinEquiv.symm fun p : Fin r × Fin c => f (M p.1 p.2)

/-- Matrices of one shape are equal, as the elements compare, if their entries are. -/
theorem Stores.beq [Scalar α] {m' : DenseMatrix α} {M' : Matrix (Fin r) (Fin c) α}
    (h : m.Stores M) (h' : m'.Stores M') (hentries : ∀ i j, Scalar.beq (M i j) (M' i j) = true) :
    m.beq m' = true := by
  have hsize : m.data.size = m'.data.size := by
    rw [h.wellFormed, h'.wellFormed, h.nrows, h.ncols, h'.nrows, h'.ncols]
  have hplaces (k : ℕ) (hk : k < (m.data.zip m'.data).size) :
      Scalar.beq (m.data.zip m'.data)[k].1 (m.data.zip m'.data)[k].2 = true := by
    have hk' : k < m.data.size := by
      rw [Array.size_zip, ← hsize, min_self] at hk
      exact hk
    obtain ⟨i, j, hplace, hget⟩ := h.exists_getElem hk'
    have hget' := h'.getElem? i j
    rw [h'.ncols, hplace, Array.getElem?_eq_getElem (hsize ▸ hk')] at hget'
    rw [Array.getElem_zip]
    show Scalar.beq m.data[k] m'.data[k] = true
    rw [hget, Option.some.inj hget']
    exact hentries i j
  unfold DenseMatrix.beq
  rw [Array.all_eq_true.2 hplaces, h.nrows, h.ncols, h'.nrows, h'.ncols, hsize]
  simp

/-- The stored elements of a row are its entries. -/
theorem Stores.rowSlice (h : m.Stores M) (i : Fin r) :
    Ends E (fun values => values.size = c ∧ ∀ j : Fin c, values[j]? = some (M i j))
      (m.rowSlice i) := by
  have hend : ((i : ℕ) + 1) * m.ncols ≤ m.data.size := by
    rw [h.wellFormed, h.nrows]
    exact Nat.mul_le_mul_right _ i.isLt
  have hlength : ((i : ℕ) + 1) * m.ncols - i * m.ncols = c := by
    rw [Nat.succ_mul, Nat.add_sub_cancel_left, h.ncols]
  unfold DenseMatrix.rowSlice
  rw [if_pos hend]
  refine ⟨?_, fun j => ?_⟩
  · rw [Array.size_extract, min_eq_left hend, hlength]
  · have hlt : (j : ℕ) < min (((i : ℕ) + 1) * m.ncols) m.data.size - i * m.ncols := by
      rw [min_eq_left hend, hlength]
      exact j.isLt
    rw [Fin.getElem?_fin, Array.getElem?_extract, if_pos hlt, h.getElem? i j]

/-- Every well-formed matrix stores a matrix of its shape. -/
theorem WellFormed.exists_stores (wf : m.WellFormed) :
    ∃ M : Matrix (Fin m.nrows) (Fin m.ncols) α, m.Stores M := by
  have hread (i : Fin m.nrows) (j : Fin m.ncols) : ∃ x, m.entry i j = .ok x :=
    wf.exists_entry i.isLt j.isLt
  choose M hM using hread
  exact ⟨M, rfl, rfl, wf, hM⟩

/-! ### Building -/

/-- Only the entries of the shape count, failures included. -/
theorem tabulate_congr {nrows ncols : ℕ} {f g : ℕ → ℕ → Except Failure α}
    (h : ∀ i < nrows, ∀ j < ncols, f i j = g i j) :
    tabulate nrows ncols f = tabulate nrows ncols g := by
  unfold tabulate
  rw [Storage.collect_congr fun k hk => ?_]
  have hpos : 0 < ncols := Nat.pos_of_ne_zero fun hzero => by simp [hzero] at hk
  exact h _ ((Nat.div_lt_iff_lt_mul hpos).2 hk) _ (Nat.mod_lt _ hpos)

/-- Tabulating fails with the failure of one of the entries. -/
theorem exists_error_of_tabulate {nrows ncols : ℕ} {f : ℕ → ℕ → Except Failure α} {e : Failure}
    (h : tabulate nrows ncols f = .error e) : ∃ i < nrows, ∃ j < ncols, f i j = .error e := by
  cases hc : Storage.collect (nrows * ncols) fun k => f (k / ncols) (k % ncols) with
  | ok data => simp [tabulate, hc, bind, Except.bind, pure, Except.pure] at h
  | error e' =>
      have he : e' = e := by simpa [tabulate, hc, bind, Except.bind] using h
      obtain ⟨k, hk, hke⟩ := Storage.exists_error_of_collect (he ▸ hc)
      have hpos : 0 < ncols := Nat.pos_of_ne_zero fun h0 => by simp [h0] at hk
      exact ⟨k / ncols, (Nat.div_lt_iff_lt_mul hpos).2 hk, k % ncols, Nat.mod_lt _ hpos, hke⟩

end DenseMatrix

/-- A tabulated matrix stores the entries, if each of them ends well. -/
theorem Ends.tabulate {f : ℕ → ℕ → Except Failure α} {P : Fin r → Fin c → α → Prop}
    (h : ∀ (i : Fin r) (j : Fin c), Ends E (P i j) (f i j)) :
    Ends E (fun m => ∃ M : Matrix (Fin r) (Fin c) α, m.Stores M ∧ ∀ i j, P i j (M i j))
      (DenseMatrix.tabulate r c f) := by
  cases ht : DenseMatrix.tabulate r c f with
  | error e =>
      obtain ⟨i, hi, j, hj, he⟩ := DenseMatrix.exists_error_of_tabulate ht
      exact (h ⟨i, hi⟩ ⟨j, hj⟩).of_error he
  | ok m =>
      obtain ⟨rfl, rfl, wf, hentry⟩ := DenseMatrix.tabulate_eq_ok_iff.1 ht
      obtain ⟨M, hM⟩ := wf.exists_stores
      refine ⟨M, hM, fun i j => (h i j).of_ok ?_⟩
      rw [hentry i i.isLt j j.isLt, hM.entry]

/-- A tabulated matrix whose entries are known stores these. -/
theorem Ends.tabulate_of_ok {f : ℕ → ℕ → Except Failure α} {M : Matrix (Fin r) (Fin c) α}
    (h : ∀ (i : Fin r) (j : Fin c), f i j = .ok (M i j)) :
    Ends E (·.Stores M) (DenseMatrix.tabulate r c f) := by
  have hentry (i : Fin r) (j : Fin c) : Ends E (· = M i j) (f i j) := by
    rw [h i j]
    rfl
  refine (Ends.tabulate hentry).imp ?_
  intro m hm
  obtain ⟨M', hM', heq⟩ := hm
  have hM : M' = M := by
    ext i j
    exact heq i j
  exact hM ▸ hM'

/-- A pass over a stored matrix stores the new entries, if each of them ends
well. -/
theorem Ends.mapEntries {m : DenseMatrix α} {M : Matrix (Fin r) (Fin c) α}
    {f : ℕ → ℕ → α → Except Failure β} {P : Fin r → Fin c → β → Prop} (hm : m.Stores M)
    (h : ∀ (i : Fin r) (j : Fin c), Ends E (P i j) (f i j (M i j))) :
    Ends E (fun m' => ∃ M' : Matrix (Fin r) (Fin c) β, m'.Stores M' ∧ ∀ i j, P i j (M' i j))
      (m.mapEntries f) := by
  obtain rfl := hm.nrows
  obtain rfl := hm.ncols
  refine Ends.tabulate fun i j => ?_
  rw [hm.entry i j]
  exact h i j

/-- A pass whose new entries are known stores these. -/
theorem Ends.mapEntries_of_ok {m : DenseMatrix α} {M : Matrix (Fin r) (Fin c) α}
    {f : ℕ → ℕ → α → Except Failure β} {N : Matrix (Fin r) (Fin c) β} (hm : m.Stores M)
    (h : ∀ (i : Fin r) (j : Fin c), f i j (M i j) = .ok (N i j)) :
    Ends E (·.Stores N) (m.mapEntries f) := by
  obtain rfl := hm.nrows
  obtain rfl := hm.ncols
  refine Ends.tabulate_of_ok fun i j => ?_
  rw [hm.entry i j]
  exact h i j

/-- A pass whose new entries are known by what they mean. -/
theorem Ends.mapEntries_map {γ : Type} {m : DenseMatrix α} {M : Matrix (Fin r) (Fin c) α}
    {f : ℕ → ℕ → α → Except Failure β} {v : β → γ} {N : Matrix (Fin r) (Fin c) γ}
    (hm : m.Stores M)
    (h : ∀ (i : Fin r) (j : Fin c), Ends E (fun y => v y = N i j) (f i j (M i j))) :
    Ends E (fun m' => ∃ M' : Matrix (Fin r) (Fin c) β, m'.Stores M' ∧ M'.map v = N)
      (m.mapEntries f) := by
  refine (Ends.mapEntries hm h).imp ?_
  intro m' hm'
  obtain ⟨M', hM', hentries⟩ := hm'
  refine ⟨M', hM', ?_⟩
  ext i j
  exact hentries i j

/-- A view of a square matrix passes the test for one. -/
theorem MatrixView.Shows.square {n : ℕ} {v : MatrixView α} {M : Matrix (Fin n) (Fin n) α}
    (h : v.Shows M) : ¬ v.nrows ≠ v.ncols := by
  rw [h.nrows, h.ncols]
  exact fun hne => hne rfl

/-- The dense copy of a view stores what the view shows. -/
theorem MatrixView.Shows.ofView {v : MatrixView α} {M : Matrix (Fin r) (Fin c) α}
    (h : v.Shows M) : Ends E (·.Stores M) (DenseMatrix.ofView v) := by
  rw [DenseMatrix.ofView, h.nrows, h.ncols]
  exact Ends.tabulate_of_ok h.entry

theorem MatrixView.Shows.readable {v : MatrixView α} {M : Matrix (Fin r) (Fin c) α}
    (h : v.Shows M) : v.Readable := fun i hi j hj =>
  ⟨_, h.entry ⟨i, h.nrows ▸ hi⟩ ⟨j, h.ncols ▸ hj⟩⟩

/-- A readable view shows a matrix. -/
theorem MatrixView.Readable.exists_shows {v : MatrixView α} (h : v.Readable)
    (hr : v.nrows = r) (hc : v.ncols = c) : ∃ M : Matrix (Fin r) (Fin c) α, v.Shows M := by
  subst hr hc
  have hread (i : Fin v.nrows) (j : Fin v.ncols) : ∃ x, v.entry i j = .ok x :=
    h i i.isLt j j.isLt
  choose M hM using hread
  exact ⟨M, rfl, rfl, hM⟩

/-- A well-formed matrix is its own dense copy. -/
theorem DenseMatrix.WellFormed.ofView_view {m : DenseMatrix α} (wf : m.WellFormed) :
    DenseMatrix.ofView m.view = .ok m :=
  tabulate_eq_ok_iff.2 ⟨rfl, rfl, wf, fun _ hi _ hj => (entry_eq_storedAt hi hj).symm⟩

/-- Only a readable view has a dense copy. -/
theorem DenseMatrix.ends_ofView_readable {v : MatrixView α} :
    Ends Always (fun _ => v.Readable) (DenseMatrix.ofView v) := by
  refine Ends.always.self.imp ?_
  intro m hm i hi j hj
  obtain ⟨hrows, hcols, wf, hentry⟩ := tabulate_eq_ok_iff.1 hm.1
  rw [hentry i hi j hj]
  exact wf.exists_entry (hrows ▸ hi) (hcols ▸ hj)

/-- One row, given by its elements. -/
theorem DenseMatrix.stores_row {values : Array α} {x : Fin c → α} (hsize : values.size = c)
    (hx : ∀ j : Fin c, values[j]? = some (x j)) :
    (⟨1, c, values⟩ : DenseMatrix α).Stores (Matrix.of fun (_ : Fin 1) j => x j) := by
  have wf : (⟨1, c, values⟩ : DenseMatrix α).WellFormed := by
    rw [DenseMatrix.WellFormed, hsize, one_mul]
  refine ⟨rfl, rfl, wf, fun i j => ?_⟩
  have hfirst : (i : ℕ) * c + j = j := by
    rw [Fin.val_eq_zero i, zero_mul, zero_add]
  have hread : Storage.read values j = .ok (x j) := by
    unfold Storage.read
    rw [← Fin.getElem?_fin, hx j]
  rw [DenseMatrix.entry_eq_storedAt i.isLt j.isLt, DenseMatrix.storedAt]
  simp only [hfirst]
  exact hread

theorem DenseMatrix.stores_zeros [Scalar α] (r c : ℕ) :
    (DenseMatrix.zeros r c : DenseMatrix α).Stores
      (Matrix.of fun (_ : Fin r) (_ : Fin c) => Scalar.zero) := by
  have wf : (DenseMatrix.zeros r c : DenseMatrix α).WellFormed := Array.size_replicate
  refine ⟨rfl, rfl, wf, fun i j => ?_⟩
  have hlt := wf.position_lt_size (i := i) (j := j) i.isLt j.isLt
  rw [DenseMatrix.entry_eq_storedAt i.isLt j.isLt, DenseMatrix.storedAt_of_lt hlt]
  simp [DenseMatrix.zeros]

/-- The transpose of a stored matrix is stored. -/
theorem DenseMatrix.Stores.transpose {m : DenseMatrix α} {M : Matrix (Fin r) (Fin c) α}
    (hm : m.Stores M) : Ends E (·.Stores M.transpose) m.transpose := by
  rw [DenseMatrix.transpose, hm.nrows, hm.ncols]
  exact Ends.tabulate_of_ok fun i j => hm.entry j i

/-- The positions of a block that starts at `first`. -/
def window {p : ℕ} (first : ℕ) (h : first + p ≤ r) (i : Fin p) : Fin r :=
  ⟨first + i, by omega⟩

/-- A block inside a stored matrix is stored. -/
theorem DenseMatrix.Stores.block {m : DenseMatrix α} {M : Matrix (Fin r) (Fin c) α}
    (hm : m.Stores M) {p q row col : ℕ} (hp : 0 < p) (hq : 0 < q) (hrow : row + p ≤ r)
    (hcol : col + q ≤ c) :
    Ends E (·.Stores (M.submatrix (window row hrow) (window col hcol)))
      (m.block row (row + p - 1) col (col + q - 1)) := by
  have hp' : row + p - 1 - row + 1 = p := by omega
  have hq' : col + q - 1 - col + 1 = q := by omega
  unfold DenseMatrix.block
  rw [hm.nrows, hm.ncols, if_pos ⟨by omega, by omega, by omega, by omega⟩, hp', hq']
  exact Ends.tabulate_of_ok fun i j => hm.entry (window row hrow i) (window col hcol j)

/-- The identity matrix, in exact elements. -/
theorem DenseMatrix.ends_identity {K : Type} [Field K] [Scalar α] [ExactScalar α K] (n : ℕ) :
    Ends E (fun m => ∃ I : Matrix (Fin n) (Fin n) α, m.Stores I ∧
        I.map ExactScalar.value = 1) (DenseMatrix.identity (α := α) n) := by
  let I : Matrix (Fin n) (Fin n) α := Matrix.of fun i j =>
    if i = j then Scalar.one else Scalar.zero
  have hone : I.map ExactScalar.value = 1 := by
    ext i j
    by_cases hij : i = j
    · subst hij
      simp [I, ExactScalar.value_one]
    · simp [I, hij, ExactScalar.value_zero]
  refine (Ends.tabulate_of_ok (M := I) fun i j => ?_).imp fun m hm => ⟨I, hm, hone⟩
  simp [I, Fin.ext_iff]

end DenseFactor
