import Mathlib
import DenseFactor.Proofs.Order
import DenseFactor.Proofs.Stored

/-!
# DenseFactor.Proofs.Edit

What an edit **leaves behind**, whether it succeeds or fails on the way.

Design points:

* `Edit.Leaves E P` is the judgment for edits as `Ends E P` is for computations, but
  both predicates also see the matrix, because a failed edit leaves one too.
* A write of an entry changes that entry and no other (`Stores.write`), an exchange of two
  stored elements exchanges their entries (`Stores.exchange`). Both elements are read before
  either is written, so the two exchanges of rows are one program
  (`Edit.exchangeRows_eq_swapRows`).
* Whole edits are loops of these. The invariant of an exchange of rows or columns counts
  the lines that are done (`exchangedBefore`), that of a block says which of its entries
  are written (`Patches`). A loop that writes whole rows to the places of a permutation ends
  with the rows in the order of these places (`Stores.foldlM_updateRow`).
-/

namespace DenseFactor

variable {α β γ : Type} {r c : ℕ}

namespace Edit

/-- Performed on the matrix, the edit succeeds with a result and a matrix that meet
`P`, or fails with a cause and a matrix that meet `E`. -/
def Leaves (E : Failure → DenseMatrix α → Prop) (P : β → DenseMatrix α → Prop)
    (edit : Edit α β) (m : DenseMatrix α) : Prop :=
  match StateT.run (ExceptT.run edit) m with
  | (.ok b, after) => P b after
  | (.error e, after) => E e after

namespace Leaves

variable {E : Failure → DenseMatrix α → Prop} {P : β → DenseMatrix α → Prop}
  {m : DenseMatrix α}

theorem pure {b : β} (h : P b m) : Leaves E P (Pure.pure b) m := h

theorem bind {Q : γ → DenseMatrix α → Prop} {x : Edit α β} {f : β → Edit α γ}
    (hx : Leaves E P x m) (hf : ∀ b after, P b after → Leaves E Q (f b) after) :
    Leaves E Q (x >>= f) m := by
  unfold Leaves at hx
  have hrun : StateT.run (ExceptT.run (x >>= f)) m =
      match StateT.run (ExceptT.run x) m with
      | (.ok b, after) => StateT.run (ExceptT.run (f b)) after
      | (.error e, after) => (.error e, after) := by
    simp only [ExceptT.run_bind, StateT.run_bind]
    rcases StateT.run (ExceptT.run x) m with ⟨outcome, after⟩
    cases outcome <;> rfl
  unfold Leaves
  rw [hrun]
  rcases hx' : StateT.run (ExceptT.run x) m with ⟨outcome, after⟩
  rw [hx'] at hx
  cases outcome with
  | ok b => exact hf b after hx
  | error e => exact hx

theorem imp {Q : β → DenseMatrix α → Prop} {edit : Edit α β} (h : Leaves E P edit m)
    (hPQ : ∀ b after, P b after → Q b after) : Leaves E Q edit m := by
  unfold Leaves at h ⊢
  rcases hrun : StateT.run (ExceptT.run edit) m with ⟨outcome, after⟩
  rw [hrun] at h
  cases outcome with
  | ok b => exact hPQ b after h
  | error e => exact h

theorem weaken {E' : Failure → DenseMatrix α → Prop} {edit : Edit α β} (h : Leaves E P edit m)
    (hE : ∀ e after, E e after → E' e after) : Leaves E' P edit m := by
  unfold Leaves at h ⊢
  rcases hrun : StateT.run (ExceptT.run edit) m with ⟨outcome, after⟩
  rw [hrun] at h
  cases outcome with
  | ok b => exact h
  | error e => exact hE e after h

theorem get {P : DenseMatrix α → DenseMatrix α → Prop} (h : P m m) :
    Leaves E P MonadState.get m := h

theorem set {m' : DenseMatrix α} {P : PUnit → DenseMatrix α → Prop} (h : P ⟨⟩ m') :
    Leaves E P (MonadStateOf.set m') m := h

theorem throw {e : Failure} (h : E e m) : Leaves E P (MonadExcept.throw e) m := h

/-- A condition that is met changes nothing. -/
theorem require {check : DenseMatrix α → Except Failure Unit} (h : check m = .ok ()) :
    Leaves E (fun _ after => after = m) (require check) m := by
  unfold Edit.require
  refine (get (P := fun b after => b = m ∧ after = m) ⟨rfl, rfl⟩).bind ?_
  intro before after hafter
  obtain ⟨rfl, rfl⟩ := hafter
  rw [h]
  exact pure rfl

/-- A condition that is not met ends the edit. -/
theorem require_error {P : Unit → DenseMatrix α → Prop}
    {check : DenseMatrix α → Except Failure Unit} {e : Failure} (h : check m = .error e)
    (he : E e m) : Leaves E P (Edit.require check) m := by
  unfold Edit.require
  refine (get (P := fun b after => m = b ∧ m = after) ⟨rfl, rfl⟩).bind ?_
  intro before after hafter
  obtain ⟨rfl, rfl⟩ := hafter
  rw [h]
  exact throw he

/-- New storage replaces the old; without any, the matrix is as it was. -/
theorem modifyData {P : Unit → DenseMatrix α → Prop}
    {f : DenseMatrix α → Except Failure (Array α)}
    (h : Ends (E · m) (fun data => P () { m with data }) (f m)) :
    Leaves E P (modifyData f) m := by
  unfold Edit.modifyData
  refine (get (P := fun b after => m = b ∧ m = after) ⟨rfl, rfl⟩).bind ?_
  intro before after hafter
  obtain ⟨rfl, rfl⟩ := hafter
  split
  · next data hf => exact set (h.of_ok hf)
  · next e hf => exact throw (h.of_error hf)

/-- A loop over consecutive positions keeps an invariant that counts them. -/
theorem forM_positions {step : ℕ → Edit α Unit} {I : ℕ → DenseMatrix α → Prop} {n : ℕ}
    (h0 : I 0 m) (hstep : ∀ k m, k < n → I k m → Leaves E (fun _ => I (k + 1)) (step k) m) :
    Leaves E (fun _ => I n) ((positions 0 n).forM step) m := by
  have loop (start n : ℕ) (m : DenseMatrix α) (h0 : I start m)
      (hstep : ∀ k m, k < start + n → I k m → Leaves E (fun _ => I (k + 1)) (step k) m) :
      Leaves E (fun _ => I (start + n)) ((List.range' start n).forM step) m := by
    induction n generalizing start m with
    | zero => exact pure h0
    | succ n ih =>
        rw [List.range'_succ, List.forM_eq_forM, List.forM_cons]
        refine (hstep start m (by omega) h0).bind fun _ after hafter => ?_
        have hend : start + 1 + n = start + (n + 1) := by omega
        rw [← hend]
        exact ih (start + 1) after hafter fun k m hk => hstep k m (by omega)
  have hall := loop 0 n m h0 fun k m hk => hstep k m (by omega)
  rw [Nat.zero_add] at hall
  exact hall

/-- A loop over consecutive positions keeps an invariant up to the position at which it
fails. -/
theorem forM_positions_stop {step : ℕ → Edit α Unit} {I : ℕ → DenseMatrix α → Prop}
    {P : Unit → DenseMatrix α → Prop} {k n : ℕ}
    (hk : k < n) (h0 : I 0 m)
    (hstep : ∀ t m, t < k → I t m → Leaves E (fun _ => I (t + 1)) (step t) m)
    (hstop : ∀ m, I k m → Leaves E (fun _ _ => False) (step k) m) :
    Leaves E P ((positions 0 n).forM step) m := by
  have hsplit : positions 0 n = positions 0 k ++ k :: positions (k + 1) n := by
    have hn : n = k + (1 + (n - (k + 1))) := by omega
    rw [positions_zero, positions_zero, positions]
    conv_lhs => rw [hn, ← List.range'_append_1, ← List.range'_append_1]
    simp
  rw [hsplit, List.forM_eq_forM, List.forM_append, List.forM_cons]
  refine (forM_positions h0 hstep).bind fun _ after hafter => ?_
  exact (hstop after hafter).bind fun _ _ h => h.elim

/-- An exchange of two different lines is the loop over the lines across them. -/
theorem exchange {P : Unit → DenseMatrix α → Prop} {a b : ℕ} (hab : a ≠ b)
    {lines : DenseMatrix α → ℕ} {step : ℕ → Edit α Unit}
    (h : Leaves E P ((positions 0 (lines m)).forM step) m) :
    Leaves E P (do
      if a ≠ b then
        let count := lines (← MonadState.get)
        (positions 0 count).forM step) m := by
  rw [if_pos hab]
  refine (get (P := fun before after => m = before ∧ m = after) ⟨rfl, rfl⟩).bind ?_
  intro before after hafter
  obtain ⟨rfl, rfl⟩ := hafter
  exact h

/-- An edit run for its result alone. -/
theorem apply {E : Failure → Prop} {P : DenseMatrix α → Prop} {edit : Edit α Unit}
    (h : Leaves (fun e _ => E e) (fun _ => P) edit m) : Ends E P (edit.apply m) := by
  unfold Edit.apply Edit.perform
  unfold Leaves at h
  rcases hrun : StateT.run (ExceptT.run edit) m with ⟨outcome, after⟩
  rw [hrun] at h
  cases outcome with
  | ok _ => exact h
  | error e => exact h

/-- An edit that cannot succeed fails, and leaves what its failures leave. -/
theorem exists_perform {edit : Edit α Unit} (h : Leaves E (fun _ _ => False) edit m) :
    ∃ e m', edit.perform m = (.error e, m') ∧ E e m' := by
  unfold Leaves at h
  unfold Edit.perform
  rcases hrun : StateT.run (ExceptT.run edit) m with ⟨outcome, after⟩
  rw [hrun] at h
  cases outcome with
  | ok _ => exact h.elim
  | error e => exact ⟨e, after, rfl, h⟩

end Leaves

/-- An edit whose result is sure succeeds and leaves this result. -/
theorem exists_perform {m : DenseMatrix α} {P : DenseMatrix α → Prop} {edit : Edit α Unit}
    (h : Ends Never P (edit.apply m)) : ∃ m', edit.perform m = (.ok (), m') ∧ P m' := by
  obtain ⟨m', hm', hP⟩ := Ends.never_iff.1 h
  refine ⟨m', ?_, hP⟩
  unfold Edit.apply at hm'
  split at hm'
  · next after hperform =>
      obtain rfl := Except.ok.inj hm'
      exact hperform
  · cases hm'

end Edit

/-! ### The two exchanges of rows -/

/-- An exchange reads both elements, then writes both. -/
theorem Storage.exchange_eq_reads (xs : Array α) (i j : ℕ) :
    (do
      let x ← read xs i
      let y ← read xs j
      let ys ← write xs i y
      write ys j x) = exchange xs i j := by
  by_cases hi : i < xs.size
  · by_cases hj : j < xs.size
    · rw [read_of_lt hi, read_of_lt hj, exchange_of_lt hi hj, Array.swap_def]
      simp [bind, Except.bind, hi, hj]
    · have hfail : read xs j = .error .outOfBounds := by simp [read, hj]
      simp [exchange, hfail, hi, hj, bind, Except.bind]
  · have hfail : read xs i = .error .outOfBounds := by simp [read, hi]
    simp [exchange, hfail, hi, bind, Except.bind]

/-- Both elements are read before either is written, so that both exchanges of rows are one
program. -/
theorem Edit.exchangeRows_eq_swapRows (a b : ℕ) :
    (Edit.exchangeRows a b : Edit α Unit) = Edit.swapRows a b := by
  unfold exchangeRows swapRows
  have hstep (j : ℕ) (m : DenseMatrix α) :
      (do
        let x ← m.storedAt a j
        let y ← m.storedAt b j
        let data ← Storage.write m.data (a * m.ncols + j) y
        Storage.write data (b * m.ncols + j) x) =
      Storage.exchange m.data (a * m.ncols + j) (b * m.ncols + j) :=
    Storage.exchange_eq_reads m.data _ _
  simp only [hstep]

namespace DenseMatrix.Stores

variable {m : DenseMatrix α} {M : Matrix (Fin r) (Fin c) α}

/-! ### Places in storage -/

/-- Distinct entries have distinct places. -/
theorem position_injective (hm : m.Stores M) :
    Function.Injective fun z : Fin r × Fin c => (z.1 : ℕ) * m.ncols + z.2 := by
  intro z z' hz
  have hcol (j : Fin c) : (j : ℕ) < m.ncols := hm.ncols ▸ j.isLt
  obtain ⟨hi, hj⟩ := position_inj (hcol z.2) (hcol z'.2) hz
  exact Prod.ext (Fin.ext hi) (Fin.ext hj)

/-- Storage of the same size in which every place shows an entry of `M'` stores `M'`. -/
theorem replace (hm : m.Stores M) {data : Array α} {M' : Matrix (Fin r) (Fin c) α}
    (hsize : data.size = m.data.size)
    (hread : ∀ (i : Fin r) (j : Fin c),
      Storage.read data (i * m.ncols + j) = .ok (M' i j)) :
    ({ m with data } : DenseMatrix α).Stores M' where
  nrows := hm.nrows
  ncols := hm.ncols
  wellFormed := hsize.trans hm.wellFormed
  entry i j := by
    rw [entry_eq_storedAt (hm.nrows ▸ i.isLt) (hm.ncols ▸ j.isLt)]
    exact hread i j

/-- Writing an entry changes this entry and no other. -/
theorem write (hm : m.Stores M) (i : Fin r) (j : Fin c) (x : α) :
    Ends Never (fun data => ({ m with data } : DenseMatrix α).Stores
        (Matrix.of fun i' j' => if i' = i ∧ j' = j then x else M i' j'))
      (Storage.write m.data (i * m.ncols + j) x) := by
  rw [Storage.write_of_lt (hm.position_lt i j)]
  refine hm.replace (Array.size_set _) fun i' j' => ?_
  have hold := hm.storedAt i' j'
  rw [storedAt_of_lt (hm.position_lt i' j')] at hold
  rw [Storage.read_of_lt (by simpa using hm.position_lt i' j'), Array.getElem_set,
    Matrix.of_apply]
  by_cases hsame : i' = i ∧ j' = j
  · simp [hsame.1, hsame.2]
  · have hne : ¬ (i : ℕ) * m.ncols + j = i' * m.ncols + j' := fun heq => by
      have hpair : (i, j) = (i', j') := hm.position_injective heq
      obtain ⟨rfl, rfl⟩ := Prod.mk.inj hpair
      exact hsame ⟨rfl, rfl⟩
    rw [if_neg hne, if_neg hsame]
    exact hold

/-- Exchanging two stored elements exchanges the entries at their places. -/
theorem exchange (hm : m.Stores M) (x y : Fin r × Fin c) :
    Ends Never (fun data => ({ m with data } : DenseMatrix α).Stores
        (Matrix.of fun i j => M (Equiv.swap x y (i, j)).1 (Equiv.swap x y (i, j)).2))
      (Storage.exchange m.data (x.1 * m.ncols + x.2) (y.1 * m.ncols + y.2)) := by
  rw [Storage.exchange_of_lt (hm.position_lt x.1 x.2) (hm.position_lt y.1 y.2)]
  refine hm.replace Array.size_swap fun i j => ?_
  have hplace := hm.position_injective.swap_apply x y (i, j)
  rw [read_swap, hplace]
  exact hm.storedAt _ _

/-! ### Exchanged rows and columns -/

section Lines

variable {N : ℕ} {line : Fin r × Fin c → Fin N} {σ : Fin r × Fin c → Fin r × Fin c}

/-- The matrix with the entries of one line taken from where `σ` leads. -/
def exchangedAt (M : Matrix (Fin r) (Fin c) α) (line : Fin r × Fin c → Fin N)
    (σ : Fin r × Fin c → Fin r × Fin c) (t : Fin N) : Matrix (Fin r) (Fin c) α :=
  Matrix.of fun i j => if line (i, j) = t then M (σ (i, j)).1 (σ (i, j)).2 else M i j

/-- The entries after the first lines were exchanged. -/
def exchangedBefore (M : Matrix (Fin r) (Fin c) α) (line : Fin r × Fin c → Fin N)
    (σ : Fin r × Fin c → Fin r × Fin c) (k : ℕ) : Matrix (Fin r) (Fin c) α :=
  Matrix.of fun i j => if (line (i, j) : ℕ) < k then M (σ (i, j)).1 (σ (i, j)).2 else M i j

/-- Line by line the exchange goes on, because it does not leave the line. -/
theorem exchangedBefore_succ (M : Matrix (Fin r) (Fin c) α) (hσ : ∀ z, line (σ z) = line z)
    (t : Fin N) : exchangedBefore M line σ (t + 1) =
      exchangedAt (exchangedBefore M line σ t) line σ t := by
  ext i j
  unfold exchangedBefore exchangedAt
  simp only [Matrix.of_apply, Prod.mk.eta, hσ]
  by_cases ht : line (i, j) = t
  · simp [ht]
  · have hlt : (line (i, j) : ℕ) < t + 1 ↔ (line (i, j) : ℕ) < t := by omega
    simp [ht, hlt]

/-- A loop over the lines that exchanges entries in each of them exchanges all of them. -/
theorem forM_exchangedAt (hm : m.Stores M) (hσ : ∀ z, line (σ z) = line z)
    {f : ℕ → DenseMatrix α → Except Failure (Array α)}
    (hf : ∀ (t : Fin N) {m' : DenseMatrix α} {M' : Matrix (Fin r) (Fin c) α}, m'.Stores M' →
      Ends Never (fun data => ({ m' with data } : DenseMatrix α).Stores
        (exchangedAt M' line σ t)) (f t m')) :
    Edit.Leaves (fun e _ => Never e)
      (fun _ after => after.Stores (Matrix.of fun i j => M (σ (i, j)).1 (σ (i, j)).2))
      ((positions 0 N).forM fun t => Edit.modifyData (f t)) m := by
  have hend : exchangedBefore M line σ N = Matrix.of fun i j => M (σ (i, j)).1 (σ (i, j)).2 := by
    ext i j
    simp [exchangedBefore]
  rw [← hend]
  refine Edit.Leaves.forM_positions
    (I := fun k after => after.Stores (exchangedBefore M line σ k)) ?_ ?_
  · have hstart : exchangedBefore M line σ 0 = M := by
      ext i j
      simp [exchangedBefore]
    exact hstart ▸ hm
  · intro k after hk hafter
    refine Edit.Leaves.modifyData ((hf ⟨k, hk⟩ hafter).imp fun data hdata => ?_)
    rw [exchangedBefore_succ M hσ ⟨k, hk⟩]
    exact hdata

variable (line) in
/-- An exchange of two rows or columns exchanges exactly these, whatever it does in a
line. -/
theorem ends_exchange (hm : m.Stores M) (lines : DenseMatrix α → ℕ) (hlines : lines m = N)
    (hσ : ∀ z, line (σ z) = line z) {a b : ℕ} (hsame : a = b → σ = id)
    {f : ℕ → DenseMatrix α → Except Failure (Array α)}
    (hf : ∀ (t : Fin N) {m' : DenseMatrix α} {M' : Matrix (Fin r) (Fin c) α}, m'.Stores M' →
      a ≠ b → Ends Never (fun data => ({ m' with data } : DenseMatrix α).Stores
        (exchangedAt M' line σ t)) (f t m')) :
    Ends Never (·.Stores (Matrix.of fun i j => M (σ (i, j)).1 (σ (i, j)).2))
      (Edit.apply (do
        if a ≠ b then
          let count := lines (← get)
          (positions 0 count).forM fun t => Edit.modifyData (f t)) m) := by
  refine Edit.Leaves.apply ?_
  by_cases hab : a = b
  · rw [if_neg (not_not.2 hab), hsame hab]
    exact hm
  refine Edit.Leaves.exchange hab ?_
  rw [hlines]
  exact hm.forM_exchangedAt hσ fun t m' M' hm' => hf t hm' hab

/-- Exchanging two places of a line exchanges its entries. -/
theorem exchange_line (hm : m.Stores M) {x y : Fin r × Fin c} {t : Fin N} (hx : line x = t)
    (hy : line y = t) (hσ : ∀ z, line z = t → σ z = Equiv.swap x y z) :
    Ends Never (fun data => ({ m with data } : DenseMatrix α).Stores (exchangedAt M line σ t))
      (Storage.exchange m.data (x.1 * m.ncols + x.2) (y.1 * m.ncols + y.2)) := by
  refine (hm.exchange x y).imp fun data hdata => ?_
  have hexchanged : exchangedAt M line σ t = Matrix.of fun i j =>
      M (Equiv.swap x y (i, j)).1 (Equiv.swap x y (i, j)).2 := by
    ext i j
    simp only [exchangedAt, Matrix.of_apply]
    by_cases ht : line (i, j) = t
    · rw [if_pos ht, hσ _ ht]
    · have hother {z : Fin r × Fin c} (hz : line z = t) : (i, j) ≠ z := fun h => ht (h ▸ hz)
      rw [if_neg ht, Equiv.swap_apply_of_ne_of_ne (hother hx) (hother hy)]
  rw [hexchanged]
  exact hdata

end Lines

theorem swap_eq_id {N : ℕ} {a b : Fin N} (h : (a : ℕ) = b) (i : Fin N) : Equiv.swap a b i = i := by
  rw [Fin.ext h, Equiv.swap_self, Equiv.refl_apply]

/-- An exchange of two rows in storage. -/
theorem swapRows (hm : m.Stores M) (a b : Fin r) :
    Ends Never (·.Stores (M.submatrix (Equiv.swap a b) id))
      ((Edit.swapRows (a : ℕ) b).apply m) := by
  refine hm.ends_exchange Prod.snd DenseMatrix.ncols hm.ncols
    (σ := fun z => (Equiv.swap a b z.1, z.2)) (fun z => rfl)
    (fun h => funext fun z => Prod.ext (swap_eq_id h z.1) rfl) fun j m' M' hm' _ => ?_
  refine hm'.exchange_line (x := (a, j)) (y := (b, j)) rfl rfl fun z hz => ?_
  obtain ⟨i, l⟩ := z
  obtain rfl : l = j := hz
  exact ((Prod.mk_left_injective l).swap_apply a b i).symm

/-- An exchange of two rows through their entries. -/
theorem exchangeRows (hm : m.Stores M) (a b : Fin r) :
    Ends Never (·.Stores (M.submatrix (Equiv.swap a b) id))
      ((Edit.exchangeRows (a : ℕ) b).apply m) := by
  rw [Edit.exchangeRows_eq_swapRows]
  exact hm.swapRows a b

/-- An exchange of two columns in storage. -/
theorem swapCols (hm : m.Stores M) (a b : Fin c) :
    Ends Never (·.Stores (M.submatrix id (Equiv.swap a b)))
      ((Edit.swapCols (a : ℕ) b).apply m) := by
  refine hm.ends_exchange Prod.fst DenseMatrix.nrows hm.nrows
    (σ := fun z => (z.1, Equiv.swap a b z.2)) (fun z => rfl)
    (fun h => funext fun z => Prod.ext rfl (swap_eq_id h z.2)) fun i m' M' hm' _ => ?_
  refine hm'.exchange_line (x := (i, a)) (y := (i, b)) rfl rfl fun z hz => ?_
  obtain ⟨l, j⟩ := z
  obtain rfl : l = i := hz
  exact ((Prod.mk_right_injective l).swap_apply a b j).symm

end DenseMatrix.Stores

/-! ### Blocks -/

section Blocks

variable {p q row col : ℕ} {M M' : Matrix (Fin r) (Fin c) α} {N : Matrix (Fin p) (Fin q) α}

/-- The matrix `M'` is `M` with those entries of the block `N` at `(row, col)` that are
`written`. -/
structure Patches (row col : ℕ) (N : Matrix (Fin p) (Fin q) α) (written : Fin p → Fin q → Prop)
    (M M' : Matrix (Fin r) (Fin c) α) : Prop where
  inside (i : Fin p) (j : Fin q) (i' : Fin r) (j' : Fin c) (hi : (i' : ℕ) = row + i)
    (hj : (j' : ℕ) = col + j) (h : written i j) : M' i' j' = N i j
  outside (i' : Fin r) (j' : Fin c)
    (h : ∀ i j, written i j → ¬ ((i' : ℕ) = row + i ∧ (j' : ℕ) = col + j)) : M' i' j' = M i' j'

namespace Patches

variable {written written' : Fin p → Fin q → Prop}

theorem start (M : Matrix (Fin r) (Fin c) α) (N : Matrix (Fin p) (Fin q) α)
    (h : ∀ i j, ¬ written i j) : Patches row col N written M M where
  inside i j _ _ _ _ hij := absurd hij (h i j)
  outside _ _ _ := rfl

theorem congr (h : Patches row col N written M M') (hiff : ∀ i j, written' i j ↔ written i j) :
    Patches row col N written' M M' where
  inside i j i' j' hi hj hij := h.inside i j i' j' hi hj ((hiff i j).1 hij)
  outside i' j' hout := h.outside i' j' fun i j hij => hout i j ((hiff i j).2 hij)

/-- One more entry of the block. -/
theorem write (h : Patches row col N written M M') {i : Fin p} {j : Fin q} {i' : Fin r}
    {j' : Fin c} (hi : (i' : ℕ) = row + i) (hj : (j' : ℕ) = col + j)
    (hiff : ∀ a b, written' a b ↔ written a b ∨ (a = i ∧ b = j)) :
    Patches row col N written' M
      (Matrix.of fun a b => if a = i' ∧ b = j' then N i j else M' a b) where
  inside a b a' b' ha hb hab := by
    rw [Matrix.of_apply]
    by_cases hsame : a' = i' ∧ b' = j'
    · have hai : a = i := by omega
      have hbj : b = j := by omega
      rw [if_pos hsame, hai, hbj]
    · have hwritten : written a b := ((hiff a b).1 hab).resolve_right (by omega)
      rw [if_neg hsame, h.inside a b a' b' ha hb hwritten]
  outside a' b' hout := by
    have hother : ¬ (a' = i' ∧ b' = j') := by
      intro hsame
      refine hout i j ((hiff i j).2 (Or.inr ⟨rfl, rfl⟩)) ?_
      rw [hsame.1, hsame.2]
      exact ⟨hi, hj⟩
    rw [Matrix.of_apply, if_neg hother]
    exact h.outside a' b' fun a b hab => hout a b ((hiff a b).2 (Or.inl hab))

end Patches

/-- A block that does not fit is not written at all. -/
theorem Edit.writeBlock_leaves_of_not_fits {m block : DenseMatrix α}
    (hout : ¬ (row + block.nrows ≤ m.nrows ∧ col + block.ncols ≤ m.ncols)) :
    Edit.Leaves
      (fun e after => e = .misuse (.blockDoesNotFit block.shape row col m.shape) ∧ after = m)
      (fun _ _ => False) (Edit.writeBlock row col block) m := by
  unfold Edit.writeBlock
  refine (Edit.Leaves.require_error (P := fun _ _ => False) (if_neg hout) ⟨rfl, rfl⟩).bind ?_
  exact fun _ _ h => h.elim

/-- Only a block that fits is written. -/
theorem Edit.writeBlock_fits {m m' block : DenseMatrix α}
    (h : (Edit.writeBlock row col block).apply m = .ok m') :
    row + block.nrows ≤ m.nrows ∧ col + block.ncols ≤ m.ncols := by
  by_contra hout
  have hfails : Edit.Leaves (fun e _ => Always e) (fun _ _ => False)
      (Edit.writeBlock row col block) m :=
    (Edit.writeBlock_leaves_of_not_fits hout).weaken fun _ _ _ => trivial
  exact hfails.apply.of_ok h

/-- A block that fits replaces exactly the entries in its place. -/
theorem DenseMatrix.Stores.writeBlock {m block : DenseMatrix α} (hm : m.Stores M)
    (hN : block.Stores N) (hrow : row + p ≤ r) (hcol : col + q ≤ c) :
    Ends Never (fun m' => ∃ M' : Matrix (Fin r) (Fin c) α, m'.Stores M' ∧
        Patches row col N (fun _ _ => True) M M')
      ((Edit.writeBlock row col block).apply m) := by
  have hfits : row + block.nrows ≤ m.nrows ∧ col + block.ncols ≤ m.ncols := by
    rw [hN.nrows, hN.ncols, hm.nrows, hm.ncols]
    exact ⟨hrow, hcol⟩
  refine Edit.Leaves.apply ?_
  unfold Edit.writeBlock
  refine (Edit.Leaves.require (if_pos hfits)).bind ?_
  intro _ before hbefore
  subst hbefore
  rw [hN.nrows, hN.ncols]
  -- the rows before `i` are written, and of row `i` the columns before `j`
  let I (i j : ℕ) (after : DenseMatrix α) : Prop := ∃ M' : Matrix (Fin r) (Fin c) α,
    after.Stores M' ∧
      Patches row col N (fun a b => (a : ℕ) < i ∨ ((a : ℕ) = i ∧ (b : ℕ) < j)) M M'
  refine (Edit.Leaves.forM_positions (I := fun i after => I i 0 after) ?_ ?_).imp ?_
  · exact ⟨M, hm, Patches.start M N fun a b => by omega⟩
  · intro i before hi hbefore
    refine (Edit.Leaves.forM_positions (I := fun j after => I i j after) hbefore ?_).imp ?_
    · intro j before hj hbefore
      obtain ⟨M', hM', hpatch⟩ := hbefore
      let i' : Fin r := ⟨row + i, by omega⟩
      let j' : Fin c := ⟨col + j, by omega⟩
      refine Edit.Leaves.modifyData ?_
      have hentry := hN.storedAt ⟨i, hi⟩ ⟨j, hj⟩
      simp only at hentry
      rw [hentry, Ends.ok_bind_iff]
      refine (hM'.write i' j' _).imp fun data hdata => ⟨_, hdata, ?_⟩
      exact hpatch.write rfl rfl fun a b => by simp only [Fin.ext_iff]; omega
    · intro _ after hafter
      obtain ⟨M', hM', hpatch⟩ := hafter
      exact ⟨M', hM', hpatch.congr fun a b => by omega⟩
  · intro _ after hafter
    obtain ⟨M', hM', hpatch⟩ := hafter
    exact ⟨M', hM', hpatch.congr fun a b => by simp⟩

end Blocks

/-! ### Rows -/

section Rows

variable {m block : DenseMatrix α} {M : Matrix (Fin r) (Fin c) α} {E : Failure → Prop}

/-- A block of one whole row replaces this row. -/
theorem DenseMatrix.Stores.writeRow (hm : m.Stores M) {x : Fin c → α}
    (hx : block.Stores (Matrix.of fun (_ : Fin 1) j => x j)) (i : Fin r) :
    Ends Never (·.Stores (M.updateRow i x)) ((Edit.writeBlock i 0 block).apply m) := by
  refine (hm.writeBlock hx (Nat.succ_le_of_lt i.isLt) (Nat.zero_add c).le).imp ?_
  rintro m' ⟨M', hM', hpatch⟩
  have hrow : M' = M.updateRow i x := by
    ext i' j
    by_cases hi : i' = i
    · rw [hi, Matrix.updateRow_self]
      exact hpatch.inside 0 j i j (Nat.add_zero _).symm (Nat.zero_add _).symm trivial
    · rw [Matrix.updateRow_ne hi]
      exact hpatch.outside i' j fun a b _ hab => hi (Fin.ext (by omega))
  exact hrow ▸ hM'

/-- A loop that writes one row after the other, each to the place a permutation gives it,
ends with the rows in the order of these places. -/
theorem DenseMatrix.Stores.foldlM_updateRow
    {step : DenseMatrix α → ℕ → Except Failure (DenseMatrix α)}
    (σ : Equiv.Perm (Fin r)) {Y : Matrix (Fin r) (Fin c) α} (hm : m.Stores M)
    (hstep : ∀ (i : Fin r) {m' : DenseMatrix α} {M' : Matrix (Fin r) (Fin c) α}, m'.Stores M' →
      Ends E (·.Stores (M'.updateRow (σ i) (Y i))) (step m' i)) :
    Ends E (·.Stores (Y.submatrix σ.symm id)) ((positions 0 r).foldlM step m) := by
  refine (Ends.foldlM_positions (I := fun k m' => ∃ M' : Matrix (Fin r) (Fin c) α, m'.Stores M' ∧
    ∀ (i : Fin r) (j : Fin c), (i : ℕ) < k → M' (σ i) j = Y i j) (Nat.zero_le r) ?_ ?_).imp ?_
  · exact ⟨M, hm, fun i j hi => absurd hi (Nat.not_lt_zero _)⟩
  · rintro k m' - hk ⟨M', hM', hdone⟩
    refine (hstep ⟨k, hk⟩ hM').imp fun m'' hm'' => ⟨_, hm'', fun i j hi => ?_⟩
    by_cases hik : i = ⟨k, hk⟩
    · rw [hik, Matrix.updateRow_self]
    · have hbefore : (i : ℕ) < k :=
        lt_of_le_of_ne (Nat.lt_succ_iff.1 hi) fun heq => hik (Fin.ext heq)
      rw [Matrix.updateRow_ne (σ.injective.ne hik), hdone i j hbefore]
  · rintro m' ⟨M', hM', hdone⟩
    have hall : M' = Y.submatrix σ.symm id := by
      ext i j
      rw [Matrix.submatrix_apply, ← hdone _ _ (σ.symm i).isLt, Equiv.apply_symm_apply, id]
    exact hall ▸ hM'

end Rows

end DenseFactor
