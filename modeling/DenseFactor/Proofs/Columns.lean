import Mathlib
import DenseFactor.Proofs.Edit
import DenseFactor.Solver

/-!
# DenseFactor.Proofs.Columns

A computation on a whole matrix and the same computation **on one of its columns**.

Design points:

* `Follows R x y` says that `y` has a result whenever `x` has one, and that the two are
  related. It is kept by every way the library builds computations, so a program is followed
  step by step; where the first fails, nothing is asked of the second.
* `IsColumn j x y` says that `y` is a stored matrix of one column, and that this is column
  `j` of `x`. A pass is followed by the same pass over the column, if its entries in column
  `j` are computed from that column alone.
* Nothing is known of the arithmetic. What is related is equal, not equal in value, so this
  holds of rounded elements down to the last bit.
-/

namespace DenseFactor

variable {α β γ δ : Type}

/-- Where the first computation has a result, the second has a related one. -/
def Follows (R : α → β → Prop) (x : Except Failure α) (y : Except Failure β) : Prop :=
  ∀ a, x = .ok a → ∃ b, y = .ok b ∧ R a b

namespace Follows

variable {R : α → β → Prop} {S : γ → δ → Prop} {x : Except Failure α} {y : Except Failure β}

theorem refl (x : Except Failure α) : Follows Eq x x := fun a ha => ⟨a, ha, rfl⟩

theorem ok {a : α} {b : β} (h : R a b) : Follows R (.ok a) (.ok b) := by
  intro a' ha
  obtain rfl := Except.ok.inj ha
  exact ⟨b, rfl, h⟩

theorem error (e : Failure) : Follows R (.error e) y := by
  intro a ha
  cases ha

/-- A result of the first is one of the second. -/
theorem eq_ok {x y : Except Failure α} (h : Follows Eq x y) {a : α} (ha : x = .ok a) :
    y = .ok a := by
  obtain ⟨b, hb, rfl⟩ := h a ha
  exact hb

/-- Two sequences, step by step. -/
theorem bind {f : α → Except Failure γ} {g : β → Except Failure δ} (h : Follows R x y)
    (hf : ∀ a b, R a b → Follows S (f a) (g b)) : Follows S (x >>= f) (y >>= g) := by
  intro c hc
  cases hx : x with
  | error e => simp [hx, Bind.bind, Except.bind] at hc
  | ok a =>
      obtain ⟨b, rfl, hab⟩ := h a hx
      rw [hx] at hc
      exact hf a b hab c hc

/-- A sequence whose first steps have equal results. -/
theorem bind_eq {x y : Except Failure α} {f : α → Except Failure γ} {g : α → Except Failure δ}
    (h : Follows Eq x y) (hf : ∀ a, Follows S (f a) (g a)) : Follows S (x >>= f) (y >>= g) :=
  h.bind fun a _ hab => hab ▸ hf a

/-- The same condition on either side. -/
theorem ite {C : Prop} [Decidable C] {x' : Except Failure α} {y' : Except Failure β}
    (h : C → Follows R x y) (h' : ¬ C → Follows R x' y') :
    Follows R (if C then x else x') (if C then y else y') := by
  by_cases hC : C
  · rw [if_pos hC, if_pos hC]
    exact h hC
  · rw [if_neg hC, if_neg hC]
    exact h' hC

/-- Two loops over one list. -/
theorem foldlM {f : α → ℕ → Except Failure α} {g : β → ℕ → Except Failure β} (l : List ℕ)
    {a : α} {b : β} (h : R a b) (hstep : ∀ k ∈ l, ∀ a b, R a b → Follows R (f a k) (g b k)) :
    Follows R (l.foldlM f a) (l.foldlM g b) := by
  induction l generalizing a b with
  | nil => exact ok h
  | cons k l ih =>
      rw [List.foldlM_cons, List.foldlM_cons]
      refine (hstep k List.mem_cons_self a b h).bind fun a' b' hab => ?_
      exact ih hab fun k' hk' => hstep k' (List.mem_cons_of_mem k hk')

/-- Two sums over one range of positions, of equal terms. -/
theorem foldPositions {f g : α → ℕ → Except Failure α} {start stop : ℕ} {a : α}
    (hstep : ∀ k a, start ≤ k → k < stop → Follows Eq (f a k) (g a k)) :
    Follows Eq (foldPositions start stop a f) (DenseFactor.foldPositions start stop a g) := by
  refine foldlM _ rfl ?_
  rintro k hk a _ rfl
  obtain ⟨hle, hlt⟩ := mem_positions.1 hk
  exact hstep k a hle hlt

/-- Element `j` of one run is the only element of another. -/
theorem collect {c j : ℕ} {f g : ℕ → Except Failure α} (hj : j < c)
    (h : Follows Eq (f j) (g 0)) :
    Follows (fun xs ys => Follows Eq (Storage.read xs j) (Storage.read ys 0))
      (Storage.collect c f) (Storage.collect 1 g) := by
  intro xs hxs
  obtain ⟨hsize, hentry⟩ := Storage.collect_eq_ok_iff.1 hxs
  have hlt : j < xs.size := hsize ▸ hj
  have hfirst : g 0 = .ok xs[j] := h.eq_ok (hentry j hlt)
  refine ⟨#[xs[j]], Storage.collect_eq_ok_iff.2 ⟨rfl, ?_⟩, ?_⟩
  · intro i hi
    have hzero : i = 0 := by
      have hone : i < 1 := hi
      omega
    subst hzero
    exact hfirst
  · show Follows Eq (Storage.read xs j) (.ok xs[j])
    rw [Storage.read_of_lt hlt]
    exact refl _

end Follows

/-! ### Columns of stored matrices -/

section Columns

variable {r c : ℕ} {j : Fin c} {x y : DenseMatrix α}

/-- The one column of `y` is column `j` of `x`. -/
def DenseMatrix.IsColumn (r : ℕ) (j : Fin c) (x y : DenseMatrix α) : Prop :=
  ∃ X : Matrix (Fin r) (Fin c) α, x.Stores X ∧ y.Stores (X.submatrix id fun _ : Fin 1 => j)

namespace DenseMatrix.IsColumn

theorem nrows (h : IsColumn r j x y) : x.nrows = r ∧ y.nrows = r := by
  obtain ⟨X, hx, hy⟩ := h
  exact ⟨hx.nrows, hy.nrows⟩

theorem ncols (h : IsColumn r j x y) : x.ncols = c ∧ y.ncols = 1 := by
  obtain ⟨X, hx, hy⟩ := h
  exact ⟨hx.ncols, hy.ncols⟩

/-- An entry of the column. -/
theorem entry (h : IsColumn r j x y) (i : ℕ) : Follows Eq (x.entry i j) (y.entry i 0) := by
  obtain ⟨X, hx, hy⟩ := h
  by_cases hi : i < r
  · have hxi := hx.entry ⟨i, hi⟩ j
    have hyi := hy.entry ⟨i, hi⟩ 0
    simp only [Fin.val_zero] at hxi hyi
    rw [hxi, hyi]
    exact .ok rfl
  · intro a ha
    have hout : ¬ (i < x.nrows ∧ (j : ℕ) < x.ncols) := fun hin => hi (hx.nrows ▸ hin.1)
    simp [DenseMatrix.entry, checkEntry, hout, Bind.bind, Except.bind] at ha

end DenseMatrix.IsColumn

namespace Follows

/-- A matrix and one of its columns, built by the same entries. -/
theorem tabulate {f g : ℕ → ℕ → Except Failure α} (j : Fin c)
    (h : ∀ i : Fin r, Follows Eq (f i j) (g i 0)) :
    Follows (DenseMatrix.IsColumn r j) (DenseMatrix.tabulate r c f)
      (DenseMatrix.tabulate r 1 g) := by
  intro x hx
  have hentries : Ends Always (fun x => ∃ X : Matrix (Fin r) (Fin c) α, x.Stores X ∧
      ∀ (i : Fin r) (j : Fin c), f i j = .ok (X i j)) (DenseMatrix.tabulate r c f) :=
    Ends.tabulate fun i j => (Ends.always.self).imp fun _ h => h.1
  obtain ⟨X, hX, hf⟩ := hentries.of_ok hx
  have hcolumn (i : Fin r) (k : Fin 1) :
      g i k = .ok (X.submatrix id (fun _ : Fin 1 => j) i k) := by
    rw [Fin.val_eq_zero k]
    exact (h i).eq_ok (hf i j)
  obtain ⟨y, hy, hY⟩ := Ends.never_iff.1 (Ends.tabulate_of_ok hcolumn)
  exact ⟨y, hy, X, hX, hY⟩

/-- A pass over a matrix and the same pass over one of its columns. -/
theorem mapEntries {f g : ℕ → ℕ → α → Except Failure α} (hxy : DenseMatrix.IsColumn r j x y)
    (h : ∀ (i : Fin r) (v : α), Follows Eq (f i j v) (g i 0 v)) :
    Follows (DenseMatrix.IsColumn r j) (x.mapEntries f) (y.mapEntries g) := by
  unfold DenseMatrix.mapEntries
  rw [hxy.nrows.1, hxy.nrows.2, hxy.ncols.1, hxy.ncols.2]
  exact tabulate j fun i => (hxy.entry i).bind_eq fun v => h i v

/-- A row of a matrix, and of one of its columns, each as a matrix of one row. -/
theorem rowSlice (hxy : DenseMatrix.IsColumn r j x y) (i : ℕ) :
    Follows (fun us vs => DenseMatrix.IsColumn 1 j ⟨1, x.ncols, us⟩ ⟨1, y.ncols, vs⟩)
      (x.rowSlice i) (y.rowSlice i) := by
  obtain ⟨X, hx, hy⟩ := hxy
  by_cases hi : i < r
  · intro us hus
    obtain ⟨husize, hu⟩ := (hx.rowSlice (E := Always) ⟨i, hi⟩).of_ok hus
    obtain ⟨vs, hvs, hvsize, hv⟩ := Ends.never_iff.1 (hy.rowSlice ⟨i, hi⟩)
    refine ⟨vs, hvs, Matrix.of fun _ k => X ⟨i, hi⟩ k, ?_, ?_⟩
    · rw [hx.ncols]
      exact DenseMatrix.stores_row husize hu
    · rw [hy.ncols]
      exact DenseMatrix.stores_row hvsize hv
  · intro us hus
    -- the matrix has a column, so a row past the last one is not stored
    have hout : ¬ (i + 1) * x.ncols ≤ x.data.size := by
      rw [hx.wellFormed, hx.nrows, hx.ncols]
      intro hle
      exact hi (Nat.le_of_mul_le_mul_right hle j.pos)
    rw [DenseMatrix.rowSlice, if_neg hout] at hus
    cases hus

/-- A block that is written over all columns is written over each of them. -/
theorem writeBlock {p row : ℕ} {u v : DenseMatrix α} (hxy : DenseMatrix.IsColumn r j x y)
    (huv : DenseMatrix.IsColumn p j u v) :
    Follows (DenseMatrix.IsColumn r j) ((Edit.writeBlock row 0 u).apply x)
      ((Edit.writeBlock row 0 v).apply y) := by
  intro x' hx'
  obtain ⟨X, hx, hy⟩ := hxy
  obtain ⟨U, hu, hv⟩ := huv
  have hrow : row + p ≤ r := by
    have hfits := (Edit.writeBlock_fits hx').1
    rwa [hu.nrows, hx.nrows] at hfits
  obtain ⟨X', hX', hpatch⟩ := (hx.writeBlock hu hrow (Nat.zero_add c).le).of_ok hx'
  obtain ⟨y', hy', Y', hY', hpatch'⟩ := Ends.never_iff.1 (hy.writeBlock hv hrow le_rfl)
  have hcolumn : Y' = X'.submatrix id fun _ : Fin 1 => j := by
    ext i k
    have hj : (j : ℕ) = 0 + j := (Nat.zero_add _).symm
    have hk : (k : ℕ) = 0 + k := (Nat.zero_add _).symm
    show Y' i k = X' i j
    by_cases hin : ∃ a : Fin p, (i : ℕ) = row + a
    · obtain ⟨a, ha⟩ := hin
      exact (hpatch'.inside a k i k ha hk trivial).trans
        (hpatch.inside a j i j ha hj trivial).symm
    · have hout (a : Fin p) (h : (i : ℕ) = row + a) : False := hin ⟨a, h⟩
      exact (hpatch'.outside i k fun a _ _ hab => hout a hab.1).trans
        (hpatch.outside i j fun a _ _ hab => hout a hab.1).symm
  exact ⟨y', hy', X', hX', hcolumn ▸ hY'⟩

end Follows

/-- Zeros in every column. -/
theorem DenseMatrix.isColumn_zeros [Scalar α] (r : ℕ) (j : Fin c) :
    DenseMatrix.IsColumn r j (DenseMatrix.zeros r c : DenseMatrix α) (DenseMatrix.zeros r 1) :=
  ⟨_, stores_zeros r c, stores_zeros r 1⟩

/-! ### Columns of right-hand sides -/

/-- A view of one column, which is column `j` of another view. -/
structure MatrixView.IsColumn (b : MatrixView α) (j : Fin b.ncols) (v : MatrixView α) :
    Prop where
  nrows : v.nrows = b.nrows
  ncols : v.ncols = 1
  entry (i : ℕ) (hi : i < b.nrows) : v.entry i 0 = b.entry i j

namespace MatrixView.IsColumn

variable {b v : MatrixView α} {j : Fin b.ncols}

/-- The dense copy of a view and that of its column. -/
theorem ofView (h : b.IsColumn j v) :
    Follows (DenseMatrix.IsColumn b.nrows j) (DenseMatrix.ofView b) (DenseMatrix.ofView v) := by
  unfold DenseMatrix.ofView
  rw [h.nrows, h.ncols]
  refine Follows.tabulate j fun i => ?_
  rw [h.entry i i.isLt]
  exact .refl _

end MatrixView.IsColumn

/-- The column that is read from a view. -/
theorem ColumnVector.ofColumn_isColumn {b : MatrixView α} {j : Fin b.ncols}
    {v : ColumnVector α} (hv : ofColumn b j = .ok v) : b.IsColumn j v.view := by
  unfold ofColumn at hv
  cases hc : Storage.collect b.nrows fun i => b.entry i j with
  | error e => simp [hc, Bind.bind, Except.bind] at hv
  | ok data =>
      simp only [hc, Bind.bind, Except.bind, Pure.pure, Except.pure, Except.ok.injEq] at hv
      subst hv
      obtain ⟨hsize, hentry⟩ := Storage.collect_eq_ok_iff.1 hc
      refine ⟨hsize, rfl, fun i hi => ?_⟩
      have hlt : i < data.size := hsize ▸ hi
      rw [hentry i hlt]
      simp [ColumnVector.view, ColumnVector.ofArray, DenseMatrix.storedAt, hlt]

/-- A column can be read if its entries can. -/
theorem ColumnVector.exists_ofColumn {b : MatrixView α} {j : ℕ}
    (h : ∀ i < b.nrows, ∃ x, b.entry i j = .ok x) : ∃ v, ofColumn b j = .ok v := by
  obtain ⟨data, hdata⟩ := Storage.exists_collect_eq_ok h
  exact ⟨ofArray data, by simp [ofColumn, hdata, Bind.bind, Except.bind, Pure.pure, Except.pure]⟩

/-- The column of a result, read from either. -/
theorem DenseMatrix.IsColumn.ofColumn (h : DenseMatrix.IsColumn r j x y) :
    ∃ v, ColumnVector.ofColumn x.view j = .ok v ∧ ColumnVector.ofColumn y.view 0 = .ok v := by
  obtain ⟨X, hx, hy⟩ := h
  have hread (i : ℕ) (hi : i < r) : x.view.entry i j = y.view.entry i 0 :=
    (hx.storedAt ⟨i, hi⟩ j).trans (hy.storedAt ⟨i, hi⟩ 0).symm
  obtain ⟨data, hdata⟩ : ∃ data, Storage.collect r (fun i => x.view.entry i j) = .ok data :=
    Storage.exists_collect_eq_ok fun i hi => ⟨_, hx.storedAt ⟨i, hi⟩ j⟩
  have hdata' : Storage.collect r (fun i => y.view.entry i 0) = .ok data := by
    obtain ⟨hsize, hentry⟩ := Storage.collect_eq_ok_iff.1 hdata
    refine Storage.collect_eq_ok_iff.2 ⟨hsize, fun i hi => ?_⟩
    rw [← hread i (hsize ▸ hi), hentry i hi]
  have hrows : x.view.nrows = r ∧ y.view.nrows = r := ⟨hx.nrows, hy.nrows⟩
  refine ⟨.ofArray data, ?_, ?_⟩
  · rw [ColumnVector.ofColumn, hrows.1, hdata]
    rfl
  · rw [ColumnVector.ofColumn, hrows.2, hdata']
    rfl

end Columns

end DenseFactor
