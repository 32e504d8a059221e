import Mathlib
import DenseFactor.Proofs.Shape
import DenseFactor.SVD.Basic

/-!
# DenseFactor.Proofs.SVD.Shape

The singular value decomposition stays **inside its matrices**, whatever the arithmetic
answers: all it can fail by is that its passes run out.

Design points:

* `b.HasShape m n` fixes the sizes of all parts of a bidiagonal form. The matrix is tall, so
  every column of the form is also a column of `U`.
* Which rows a pass touches depends on comparisons, but only through the bounds `lo` and `hi`
  of its block. Each lemma asks that these are rows, with `lo` before `hi` where there is a
  block, and nothing of the numbers.
-/

namespace DenseFactor

variable {ρ : Type} [RealScalar ρ] {E : Failure → Prop} {m n : ℕ}

/-! ### Rotations and reflections -/

theorem Rotation.ends_columns_shape (g : Rotation ρ) {x : DenseMatrix ρ} (hx : x.HasShape m n)
    {j k : ℕ} (hj : j < n) (hk : k < n) : Ends E (·.HasShape m n) (g.columns x j k) := by
  refine hx.mapEntries ?_
  intro row col _ hrow _
  by_cases hfirst : col = j
  · rw [if_pos hfirst]
    exact (hx.failsOnly_entry hrow hk).bind fun _ _ => trivial
  · rw [if_neg hfirst]
    by_cases hsecond : col = k
    · rw [if_pos hsecond]
      exact (hx.failsOnly_entry hrow hj).bind fun _ _ => trivial
    · rw [if_neg hsecond]
      exact trivial

namespace Reflection

/-- The reflection is of the coordinates from `i` up to, and not including, `j`. -/
structure Spans (h : Reflection ρ) (i j : ℕ) : Prop where
  head : h.head = i
  stop : h.stop = j
  tail : h.tail.size = j

theorem ends_ofVector?_spans {vector : ℕ → Except Failure ρ} {head stop : ℕ} (hhead : head < stop)
    (hvector : ∀ i, head ≤ i → i < stop → FailsOnly E (vector i)) :
    Ends E (fun h? => ∀ h ∈ h?, Spans h head stop) (ofVector? vector head stop) := by
  unfold ofVector?
  refine Ends.bind (FailsOnly.foldPositions ?_) fun squares _ => ?_
  · intro i sum hle hlt
    exact (hvector i hle hlt).bind fun _ _ => trivial
  by_cases hlong : RealScalar.minPositive < squares
  · rw [if_pos hlong]
    refine (hvector head le_rfl hhead).bind fun first _ => ?_
    refine Ends.bind (Storage.ends_collect_size ?_) fun tail htail => ?_
    · intro i hi
      by_cases hafter : head < i
      · rw [if_pos hafter]
        exact (hvector i hafter.le hi).bind fun _ _ => trivial
      · rw [if_neg hafter]
        exact trivial
    · intro h hh
      obtain rfl := Option.some.inj hh
      exact ⟨rfl, rfl, htail⟩
  · rw [if_neg hlong]
    exact fun h hh => absurd hh (Option.not_mem_none h)

variable {h : Reflection ρ} {x : DenseMatrix ρ} {head start : ℕ}

theorem Spans.rows (hh : h.Spans head n) (hhead : head < n) (hx : x.HasShape m n) :
    Ends E (·.HasShape m n) (h.rows x start) := by
  unfold Reflection.rows
  rw [hx.nrows, hh.head, hh.stop]
  refine Ends.bind (Storage.ends_collect_size (n := m) ?_) fun dots hdots => hx.mapEntries ?_
  · intro i hi
    by_cases hlater : start ≤ i
    · rw [if_pos hlater]
      refine (hx.failsOnly_entry hi hhead).bind fun first _ => ?_
      refine Ends.bind (FailsOnly.foldPositions ?_) fun _ _ => trivial
      intro j sum _ hj
      refine (hx.failsOnly_entry hi hj).bind fun _ _ => ?_
      exact (Storage.failsOnly_read (hh.tail ▸ hj)).bind fun _ _ => trivial
    · rw [if_neg hlater]
      exact trivial
  · intro i j _ hi hj
    have hdot : FailsOnly E (Storage.read dots i) := Storage.failsOnly_read (hdots ▸ hi)
    by_cases hfirst : start ≤ i ∧ j = head
    · rw [if_pos hfirst]
      exact hdot.bind fun _ _ => trivial
    rw [if_neg hfirst]
    by_cases hrest : start ≤ i ∧ head < j ∧ j < n
    · rw [if_pos hrest]
      refine hdot.bind fun _ _ => ?_
      exact (Storage.failsOnly_read (hh.tail ▸ hj)).bind fun _ _ => trivial
    · rw [if_neg hrest]
      exact trivial

theorem Spans.columns (hh : h.Spans head m) (hhead : head < m) (hx : x.HasShape m n) :
    Ends E (·.HasShape m n) (h.columns x start) := by
  unfold Reflection.columns
  rw [hx.ncols, hh.head, hh.stop]
  refine Ends.bind (Storage.ends_collect_size (n := n) ?_) fun dots hdots => hx.mapEntries ?_
  · intro j hj
    by_cases hlater : start ≤ j
    · rw [if_pos hlater]
      refine (hx.failsOnly_entry hhead hj).bind fun first _ => ?_
      refine Ends.bind (FailsOnly.foldPositions ?_) fun _ _ => trivial
      intro i sum _ hi
      refine (Storage.failsOnly_read (hh.tail ▸ hi)).bind fun _ _ => ?_
      exact (hx.failsOnly_entry hi hj).bind fun _ _ => trivial
    · rw [if_neg hlater]
      exact trivial
  · intro i j _ hi hj
    have hdot : FailsOnly E (Storage.read dots j) := Storage.failsOnly_read (hdots ▸ hj)
    by_cases hfirst : start ≤ j ∧ i = head
    · rw [if_pos hfirst]
      exact hdot.bind fun _ _ => trivial
    rw [if_neg hfirst]
    by_cases hrest : start ≤ j ∧ head < i ∧ i < m
    · rw [if_pos hrest]
      refine hdot.bind fun _ _ => ?_
      exact (Storage.failsOnly_read (hh.tail ▸ hi)).bind fun _ _ => trivial
    · rw [if_neg hrest]
      exact trivial

end Reflection

namespace SVD

namespace Bidiagonal

/-! ### Bidiagonal forms -/

/-- The form of an `m x n` matrix with at least as many rows as columns. -/
structure HasShape (b : Bidiagonal ρ) (m n : ℕ) : Prop where
  diag : b.diag.size = n
  offDiag : b.offDiag.size = n - 1
  u : b.u.HasShape m m
  v : b.v.HasShape n n

/-- The reduction of an `m x n` matrix after `k` columns and `l` rows. -/
structure Reduction.HasShape (s : Reduction ρ) (m n k l : ℕ) : Prop where
  rest : s.rest.HasShape m n
  diag : s.form.diag.size = k
  offDiag : s.form.offDiag.size = l
  u : s.form.u.HasShape m m
  v : s.form.v.HasShape n n

theorem failsOnly_absoluteSum {vector : ℕ → Except Failure ρ} {start stop : ℕ}
    (hvector : ∀ i, start ≤ i → i < stop → FailsOnly E (vector i)) :
    FailsOnly E (absoluteSum vector start stop) := by
  refine FailsOnly.foldPositions ?_
  intro i sum hle hlt
  exact (hvector i hle hlt).bind fun _ _ => trivial

theorem Reduction.HasShape.reflectColumn {s : Reduction ρ} {k l : ℕ} (hs : s.HasShape m n k l)
    (hm : k < m) (hn : k < n) : Ends E (·.HasShape m n (k + 1) l) (s.reflectColumn k) := by
  unfold Reduction.reflectColumn
  rw [hs.rest.nrows]
  have hcolumn (i : ℕ) (hi : i < m) : FailsOnly E (s.rest.entry i k) :=
    hs.rest.failsOnly_entry hi hn
  have hpush (d : ρ) : (s.form.diag.push d).size = k + 1 := by
    rw [Array.size_push, hs.diag]
  refine (Reflection.ends_ofVector?_spans hm fun i _ hi => hcolumn i hi).bind fun h? hh => ?_
  cases h? with
  | some h =>
      have hspans := hh h rfl
      refine (hspans.columns hm hs.rest).bind fun rest hrest => ?_
      refine (hspans.rows hm hs.u).bind fun u hu => ?_
      exact ⟨hrest, hpush _, hs.offDiag, hu, hs.v⟩
  | none =>
      refine (failsOnly_absoluteSum fun i _ hi => hcolumn i hi).bind fun skipped _ => ?_
      refine (hcolumn k hm).bind fun d _ => ?_
      exact ⟨hs.rest, hpush _, hs.offDiag, hs.u, hs.v⟩

theorem Reduction.HasShape.reflectRow {s : Reduction ρ} {k l : ℕ} (hs : s.HasShape m n (k + 1) l)
    (hm : k < m) (hn : k + 1 < n) :
    Ends E (·.HasShape m n (k + 1) (l + 1)) (s.reflectRow k) := by
  unfold Reduction.reflectRow
  rw [hs.rest.ncols]
  have hrow (j : ℕ) (hj : j < n) : FailsOnly E (s.rest.entry k j) := hs.rest.failsOnly_entry hm hj
  have hpush (e : ρ) : (s.form.offDiag.push e).size = l + 1 := by
    rw [Array.size_push, hs.offDiag]
  have hreflection : Ends E (fun h? => ∀ h ∈ h?, Reflection.Spans h (k + 1) n)
      (if k + 2 < n then Reflection.ofVector? (fun j => s.rest.entry k j) (k + 1) n
        else pure none) := by
    by_cases hlong : k + 2 < n
    · rw [if_pos hlong]
      exact Reflection.ends_ofVector?_spans hn fun j _ hj => hrow j hj
    · rw [if_neg hlong]
      exact fun h hh => absurd hh (Option.not_mem_none h)
  refine Ends.ite_bind hreflection fun h? hh => ?_
  cases h? with
  | some h =>
      have hspans := hh h rfl
      refine (hspans.rows hn hs.rest).bind fun rest hrest => ?_
      refine (hspans.rows hn hs.v).bind fun v hv => ?_
      exact ⟨hrest, hs.diag, hpush _, hs.u, hv⟩
  | none =>
      refine (failsOnly_absoluteSum fun j _ hj => hrow j hj).bind fun skipped _ => ?_
      refine (hrow (k + 1) hn).bind fun e _ => ?_
      exact ⟨hs.rest, hs.diag, hpush _, hs.u, hs.v⟩

/-- Every column is put on the diagonal, and every row but the last beside it. -/
theorem Reduction.HasShape.step {s : Reduction ρ} {k : ℕ}
    (hs : s.HasShape m n k (min k (n - 1))) (hm : k < m) (hn : k < n) :
    Ends E (·.HasShape m n (k + 1) (min (k + 1) (n - 1))) (s.step k) := by
  unfold Reduction.step
  refine (hs.reflectColumn hm hn).bind fun s hs => ?_
  rw [hs.rest.ncols]
  by_cases hlast : k + 1 < n
  · rw [if_pos hlast]
    have hnext : min (k + 1) (n - 1) = min k (n - 1) + 1 := by omega
    rw [hnext]
    exact hs.reflectRow hm hlast
  · rw [if_neg hlast]
    have hsame : min (k + 1) (n - 1) = min k (n - 1) := by omega
    rw [hsame]
    exact hs

theorem ends_ofTall_shape {a : DenseMatrix ρ} (ha : a.HasShape m n) (htall : n ≤ m) :
    Ends E (·.HasShape m n) (ofTall a) := by
  unfold ofTall
  rw [ha.nrows, ha.ncols]
  refine (DenseMatrix.ends_identity_shape m).bind fun u hu => ?_
  refine (DenseMatrix.ends_identity_shape n).bind fun v hv => ?_
  have hstart : Reduction.HasShape (⟨a, ⟨#[], #[], u, v, 0⟩⟩ : Reduction ρ) m n 0
      (min 0 (n - 1)) := ⟨ha, rfl, (Nat.zero_min _).symm, hu, hv⟩
  refine Ends.bind (Ends.foldlM_positions
    (I := fun k (s : Reduction ρ) => s.HasShape m n k (min k (n - 1))) (Nat.zero_le n) hstart ?_) ?_
  · intro k s _ hk hs
    exact hs.step (hk.trans_le htall) hk
  · intro s hs
    exact ⟨hs.diag, hs.offDiag.trans (min_eq_right (Nat.sub_le n 1)), hs.u, hs.v⟩

/-! ### Deflation -/

namespace HasShape

variable {b : Bidiagonal ρ}

section Entries

omit [RealScalar ρ]

theorem failsOnly_diag (h : b.HasShape m n) {i : ℕ} (hi : i < n) :
    FailsOnly E (Storage.read b.diag i) := Storage.failsOnly_read (h.diag ▸ hi)

theorem failsOnly_offDiag (h : b.HasShape m n) {i : ℕ} (hi : i + 1 < n) :
    FailsOnly E (Storage.read b.offDiag i) :=
  Storage.failsOnly_read (h.offDiag ▸ Nat.lt_sub_of_add_lt hi)

theorem ends_write_diag (h : b.HasShape m n) {i : ℕ} (hi : i < n) (x : ρ) :
    Ends E (·.size = n) (Storage.write b.diag i x) :=
  (Storage.ends_write_size (h.diag ▸ hi)).imp fun _ hsize => hsize.trans h.diag

theorem ends_write_offDiag (h : b.HasShape m n) {i : ℕ} (hi : i + 1 < n) (x : ρ) :
    Ends E (·.size = n - 1) (Storage.write b.offDiag i x) :=
  (Storage.ends_write_size (h.offDiag ▸ Nat.lt_sub_of_add_lt hi)).imp fun _ hsize =>
    hsize.trans h.offDiag

end Entries

theorem failsOnly_isNegligible (h : b.HasShape m n) {i : ℕ} (hi : i + 1 < n) :
    FailsOnly E (b.isNegligible i) := by
  unfold isNegligible
  refine (h.failsOnly_offDiag hi).bind fun _ _ => ?_
  refine (h.failsOnly_diag (Nat.lt_of_succ_lt hi)).bind fun _ _ => ?_
  exact (h.failsOnly_diag hi).bind fun _ _ => trivial

theorem split (h : b.HasShape m n) {i : ℕ} (hi : i + 1 < n) :
    Ends E (·.HasShape m n) (b.split i) := by
  unfold Bidiagonal.split
  refine (h.failsOnly_offDiag hi).bind fun _ _ => ?_
  refine (h.ends_write_offDiag hi 0).bind fun offDiag hsize => ?_
  exact ⟨h.diag, hsize, h.u, h.v⟩

/-- The block that ends after row `last` starts at `last` or before. -/
theorem blockStart (h : b.HasShape m n) {last : ℕ} (hlast : last < n) :
    Ends E (fun found => found.1.HasShape m n ∧ found.2 ≤ last) (b.blockStart last) := by
  induction last with
  | zero => exact ⟨h, le_rfl⟩
  | succ lo ih =>
      rw [Bidiagonal.blockStart]
      refine (h.failsOnly_isNegligible hlast).bind fun negligible _ => ?_
      cases negligible with
      | true => exact (h.split hlast).bind fun b' hb' => ⟨hb', le_rfl⟩
      | false =>
          refine (ih (Nat.lt_of_succ_lt hlast)).imp ?_
          intro found hfound
          exact ⟨hfound.1, hfound.2.trans (Nat.le_succ lo)⟩

end HasShape

/-! ### Passes -/

variable {b : Bidiagonal ρ} {lo hi : ℕ}

theorem Chase.ends_step_shape {s : Chase ρ} (hs : s.form.HasShape m n) (htall : n ≤ m) {row j : ℕ}
    (hrow : row < hi) (hhi : hi < n) (hj : j ≤ hi) :
    Ends E (·.form.HasShape m n) (s.step row hi j) := by
  have hjn : j < n := hj.trans_lt hhi
  unfold Chase.step
  refine (hs.failsOnly_diag hjn).bind fun d _ => ?_
  refine (hs.ends_write_diag hjn _).bind fun diag hdiag => ?_
  refine (Rotation.ends_columns_shape _ hs.u (hjn.trans_le htall)
    ((hrow.trans hhi).trans_le htall)).bind fun u hu => ?_
  by_cases hlt : j < hi
  · rw [if_pos hlt]
    have hbeside : j + 1 < n := (Nat.succ_le_of_lt hlt).trans_lt hhi
    refine (hs.failsOnly_offDiag hbeside).bind fun e _ => ?_
    refine (hs.ends_write_offDiag hbeside _).bind fun offDiag hoffDiag => ?_
    exact ⟨hdiag, hoffDiag, hu, hs.v⟩
  · rw [if_neg hlt]
    exact ⟨hdiag, hs.offDiag, hu, hs.v⟩

theorem HasShape.chase (h : b.HasShape m n) (htall : n ≤ m) {row : ℕ} (hrow : row < hi)
    (hhi : hi < n) : Ends E (·.HasShape m n) (b.chase row hi) := by
  have hrown : row < n := hrow.trans hhi
  have hbeside : row + 1 < n := (Nat.succ_le_of_lt hrow).trans_lt hhi
  unfold Bidiagonal.chase
  refine (h.failsOnly_diag hrown).bind fun d _ => ?_
  refine (h.failsOnly_offDiag hbeside).bind fun moved _ => ?_
  refine (h.ends_write_diag hrown 0).bind fun diag hdiag => ?_
  refine (h.ends_write_offDiag hbeside 0).bind fun offDiag hoffDiag => ?_
  refine Ends.bind (P := fun s : Chase ρ => s.form.HasShape m n) (Ends.foldlM_mem ?_ ?_) ?_
  · exact ⟨hdiag, hoffDiag, h.u, h.v⟩
  · intro j hj s hs
    exact Chase.ends_step_shape hs htall hrow hhi (Nat.le_of_lt_succ (mem_positions.1 hj).2)
  · intro s hs
    exact hs

theorem Sweep.ends_step_shape {s : Sweep ρ} (hs : s.form.HasShape m n) (htall : n ≤ m) {k : ℕ}
    (hk : k < hi) (hhi : hi < n) : Ends E (·.form.HasShape m n) (s.step lo hi k) := by
  have hkn : k < n := hk.trans hhi
  have hbeside : k + 1 < n := (Nat.succ_le_of_lt hk).trans_lt hhi
  unfold Sweep.step
  have hbefore (x : ρ) : Ends E (fun offDiag : Array ρ => offDiag.size = n - 1)
      (if lo < k then Storage.write s.form.offDiag (k - 1) x else pure s.form.offDiag) := by
    by_cases hlo : lo < k
    · rw [if_pos hlo]
      have hprevious : k - 1 + 1 < n := (Nat.sub_add_cancel (Nat.one_le_of_lt hlo)).symm ▸ hkn
      exact hs.ends_write_offDiag hprevious x
    · rw [if_neg hlo]
      exact hs.offDiag
  refine Ends.ite_bind (hbefore _) fun offDiag hoffDiag => ?_
  have hk' : k < n - 1 := Nat.lt_sub_of_add_lt hbeside
  refine (hs.failsOnly_diag hkn).bind fun d _ => ?_
  refine (Storage.failsOnly_read (hoffDiag ▸ hk')).bind fun e _ => ?_
  refine (hs.failsOnly_diag hbeside).bind fun next _ => ?_
  refine (Rotation.ends_columns_shape _ hs.v hkn hbeside).bind fun v hv => ?_
  refine (hs.ends_write_diag hkn _).bind fun diag hdiag => ?_
  refine (Storage.ends_write_size (hoffDiag ▸ hk')).bind fun offDiag' hoffDiag' => ?_
  have hoffDiag' : offDiag'.size = n - 1 := hoffDiag'.trans hoffDiag
  refine (Storage.ends_write_size (hdiag ▸ hbeside)).bind fun diag' hdiag' => ?_
  refine (Rotation.ends_columns_shape _ hs.u (hkn.trans_le htall)
    (hbeside.trans_le htall)).bind fun u hu => ?_
  by_cases hlt : k + 1 < hi
  · rw [if_pos hlt]
    have hnext : k + 1 < n - 1 := Nat.lt_sub_of_add_lt ((Nat.succ_le_of_lt hlt).trans_lt hhi)
    refine (Storage.failsOnly_read (hoffDiag' ▸ hnext)).bind fun beside _ => ?_
    refine (Storage.failsOnly_read (hoffDiag' ▸ hk')).bind fun x _ => ?_
    refine (Storage.ends_write_size (hoffDiag' ▸ hnext)).bind fun offDiag'' hoffDiag'' => ?_
    exact ⟨hdiag'.trans hdiag, hoffDiag''.trans hoffDiag', hu, hv⟩
  · rw [if_neg hlt]
    exact ⟨hdiag'.trans hdiag, hoffDiag', hu, hv⟩

theorem HasShape.failsOnly_corner (h : b.HasShape m n) (hlo : lo < hi) (hhi : hi < n) :
    FailsOnly E (b.corner lo hi) := by
  unfold Bidiagonal.corner
  have hprevious : hi - 1 + 1 < n := (Nat.sub_add_cancel (Nat.one_le_of_lt hlo)).symm ▸ hhi
  refine (h.failsOnly_diag hhi).bind fun _ _ => ?_
  refine (h.failsOnly_diag (Nat.lt_of_succ_lt hprevious)).bind fun _ _ => ?_
  refine (h.failsOnly_offDiag hprevious).bind fun _ _ => ?_
  have habove : FailsOnly E (if lo + 2 ≤ hi then Storage.read b.offDiag (hi - 2) else pure 0) := by
    by_cases hlong : lo + 2 ≤ hi
    · rw [if_pos hlong]
      exact h.failsOnly_offDiag (by omega)
    · rw [if_neg hlong]
      exact trivial
  refine Ends.ite_bind habove fun _ _ => ?_
  refine (h.failsOnly_diag (hlo.trans hhi)).bind fun _ _ => ?_
  exact (h.failsOnly_offDiag ((Nat.succ_le_of_lt hlo).trans_lt hhi)).bind fun _ _ => trivial

theorem HasShape.sweep (h : b.HasShape m n) (htall : n ≤ m) (hlo : lo < hi) (hhi : hi < n) :
    Ends E (·.HasShape m n) (b.sweep lo hi) := by
  unfold Bidiagonal.sweep
  refine (h.failsOnly_corner hlo hhi).bind fun entries _ => ?_
  refine Ends.bind (P := fun s : Sweep ρ => s.form.HasShape m n) (Ends.foldlM_mem h ?_) ?_
  · intro k hk s hs
    exact Sweep.ends_step_shape hs htall (mem_positions.1 hk).2 hhi
  · intro s hs
    exact hs

/-- A pass over a block of at least two rows. -/
theorem HasShape.pass (h : b.HasShape m n) (htall : n ≤ m) (small : ρ) (hlo : lo < hi)
    (hhi : hi < n) : Ends E (·.HasShape m n) (b.pass small lo hi) := by
  unfold Bidiagonal.pass
  have hsearch : Ends E (fun zero => ∀ row ∈ zero, row ∈ positions lo hi ∧ True)
      ((positions lo hi).findM? fun i => do
        return decide (RealScalar.abs (← Storage.read b.diag i) ≤ small)) := by
    refine Ends.findM?_mem (Q := fun _ _ => True) ?_
    intro i hi'
    have hin : i < n := (mem_positions.1 hi').2.trans hhi
    exact (h.failsOnly_diag hin).bind fun _ _ => trivial
  refine hsearch.bind fun zero hzero => ?_
  cases zero with
  | some row => exact h.chase htall (mem_positions.1 (hzero row rfl).1).2 hhi
  | none => exact h.sweep htall hlo hhi

/-! ### Iteration -/

/-- The iteration keeps the shape, or runs out of passes. -/
theorem HasShape.iterate (h : b.HasShape m n) (htall : n ≤ m) (small : ρ) (budget : ℕ)
    (hhi : hi = 0 ∨ hi < n) :
    Ends (· = .noConvergence) (·.HasShape m n) (Bidiagonal.iterate small b budget hi) := by
  -- a pass spends the budget, and with the same budget the block only shrinks
  induction budget using Nat.strong_induction_on generalizing b hi with
  | _ budget ihbudget =>
    induction hi generalizing b with
    | zero =>
        rw [Bidiagonal.iterate]
        exact h
    | succ last ih =>
        have hlast : last + 1 < n := hhi.resolve_left (Nat.succ_ne_zero last)
        rw [Bidiagonal.iterate]
        refine (h.failsOnly_isNegligible hlast).bind fun negligible _ => ?_
        cases negligible with
        | true =>
            refine (h.split hlast).bind fun b' hb' => ih hb' (Or.inr (Nat.lt_of_succ_lt hlast))
        | false =>
            refine (h.blockStart (Nat.lt_of_succ_lt hlast)).bind fun found hfound => ?_
            cases budget with
            | zero => rfl
            | succ budget =>
                refine (hfound.1.pass htall small (Nat.lt_succ_of_le hfound.2) hlast).bind
                  fun b' hb' => ?_
                exact ihbudget budget (Nat.lt_succ_self budget) hb' (Or.inr hlast)

/-! ### Signs and order -/

theorem HasShape.makeNonNegative (h : b.HasShape m n) {i : ℕ} (hi : i < n) :
    Ends E (·.HasShape m n) (b.makeNonNegative i) := by
  unfold Bidiagonal.makeNonNegative
  refine (h.failsOnly_diag hi).bind fun d _ => ?_
  by_cases hneg : d < 0
  · rw [if_pos hneg]
    refine (h.ends_write_diag hi _).bind fun diag hdiag => ?_
    refine Ends.bind (h.u.mapEntries fun _ _ _ _ _ => trivial) fun u hu => ?_
    exact ⟨hdiag, h.offDiag, hu, h.v⟩
  · rw [if_neg hneg]
    exact h

theorem HasShape.selectLargest (h : b.HasShape m n) (htall : n ≤ m) {i : ℕ} (hi : i < n) :
    Ends E (·.HasShape m n) (b.selectLargest i) := by
  unfold Bidiagonal.selectLargest
  rw [h.diag]
  have hsearch : Ends E (fun best => best < n) (foldPositions (i + 1) n i fun best j => do
      return if (← Storage.read b.diag best) < (← Storage.read b.diag j) then j else best) := by
    refine Ends.foldlM_mem hi ?_
    intro j hj best hbest
    have hj : j < n := (mem_positions.1 hj).2
    refine (h.failsOnly_diag hbest).bind fun x _ => (h.failsOnly_diag hj).bind fun y _ => ?_
    by_cases hlt : x < y
    · rw [if_pos hlt]
      exact hj
    · rw [if_neg hlt]
      exact hbest
  refine hsearch.bind fun best hbest => ?_
  by_cases hsame : best = i
  · rw [if_pos hsame]
    exact h
  · rw [if_neg hsame]
    refine (Storage.ends_exchange_size (h.diag ▸ hi) (h.diag ▸ hbest)).bind fun diag hdiag => ?_
    refine (h.u.swapCols (hi.trans_le htall) (hbest.trans_le htall)).bind fun u hu => ?_
    refine (h.v.swapCols hi hbest).bind fun v hv => ?_
    exact ⟨hdiag.trans h.diag, h.offDiag, hu, hv⟩

theorem HasShape.diagonalize (h : b.HasShape m n) (htall : n ≤ m) (budget : ℕ) :
    Ends (· = .noConvergence) (·.HasShape m n) (b.diagonalize budget) := by
  unfold Bidiagonal.diagonalize
  have hlast : b.diag.size - 1 = 0 ∨ b.diag.size - 1 < n := by
    rw [h.diag]
    omega
  refine (h.iterate htall _ budget hlast).bind fun b hb => ?_
  rw [hb.diag]
  refine Ends.bind (P := fun b : Bidiagonal ρ => b.HasShape m n) (Ends.foldlM_mem hb ?_) ?_
  · intro i hi b hb
    exact hb.makeNonNegative (mem_positions.1 hi).2
  · intro b hb
    refine Ends.foldlM_mem hb ?_
    intro i hi b hb
    exact hb.selectLargest htall (mem_positions.1 hi).2

end Bidiagonal

/-! ### Decompositions -/

/-- The compact factors of an `m x n` matrix with `p` singular values. -/
structure Factors.HasShape (f : Factors ρ) (m n p : ℕ) : Prop where
  u : f.u.HasShape m p
  v : f.v.HasShape n p
  values : f.values.size = p

theorem size_scaledUp (values : Array ρ) (scale? : Option ρ) :
    (scaledUp values scale?).size = values.size := by
  cases scale? with
  | none => rfl
  | some scale => exact Array.size_map

theorem hasShape_scaledDown {a : DenseMatrix ρ} (ha : a.HasShape m n) (scale? : Option ρ) :
    (scaledDown a scale?).HasShape m n := by
  cases scale? with
  | none => exact ha
  | some scale => exact ⟨ha.nrows, ha.ncols, Array.size_map.trans ha.wellFormed⟩

theorem ends_ofTall_shape {a : DenseMatrix ρ} (ha : a.HasShape m n) (htall : n ≤ m) :
    Ends (· = .noConvergence) (·.HasShape m n n) (ofTall a) := by
  unfold ofTall
  refine (Bidiagonal.ends_ofTall_shape (hasShape_scaledDown ha _) htall).bind fun b hb => ?_
  have hentry {form : Bidiagonal ρ} (hform : form.HasShape m n) :
      Ends (· = .noConvergence) (·.HasShape m n)
        (DenseMatrix.tabulate a.nrows a.ncols form.u.entry) := by
    rw [ha.nrows, ha.ncols]
    refine DenseMatrix.ends_tabulate_shape ?_
    intro i j hi hj
    exact hform.u.failsOnly_entry hi (hj.trans_le htall)
  by_cases hnan : b.hasNaN = true
  · rw [if_pos hnan]
    refine (hentry hb).bind fun u hu => ⟨hu, hb.v, ?_⟩
    rw [Array.size_map, hb.diag]
  · rw [if_neg hnan]
    refine (hb.diagonalize htall _).bind fun form hform => ?_
    refine (hentry hform).bind fun u hu => ⟨hu, hform.v, ?_⟩
    rw [size_scaledUp, hform.diag]

/-- A wide matrix is decomposed through its transpose. -/
theorem ends_factorize_shape {a : DenseMatrix ρ} (ha : a.HasShape m n) :
    Ends (· = .noConvergence) (·.HasShape m n (min m n)) (factorize a) := by
  unfold factorize
  rw [ha.nrows, ha.ncols]
  by_cases htall : n ≤ m
  · rw [if_pos htall, min_eq_right htall]
    exact ends_ofTall_shape ha htall
  · rw [if_neg htall, min_eq_left (Nat.le_of_not_le htall)]
    refine ha.transpose.bind fun a' ha' => ?_
    refine (ends_ofTall_shape ha' (Nat.le_of_not_le htall)).bind fun f hf => ?_
    exact ⟨hf.v, hf.u, hf.values⟩

/-- The decomposition of an `m x n` matrix with `p` singular values. -/
structure HasShape (s : SVD ρ) (m n p : ℕ) : Prop where
  u : s.u.HasShape m p
  v : s.v.HasShape n p
  values : s.values.size = p

/-- Every matrix of any shape has a singular value decomposition, or its iteration does not
converge. -/
theorem ends_ofTolerance?_shape {a : MatrixView ρ} (ha : a.Readable) (tolerance? : Option ρ) :
    Ends (· = .noConvergence) (·.HasShape a.nrows a.ncols (min a.nrows a.ncols))
      (ofTolerance? tolerance? a) := by
  unfold ofTolerance?
  refine (DenseMatrix.ends_ofView_shape ha).bind fun dense hdense => ?_
  refine (ends_factorize_shape hdense).bind fun f hf => ?_
  exact ⟨hf.u, hf.v, hf.values⟩

/-- Only a readable matrix has one. -/
theorem ends_ofTolerance?_readable {a : MatrixView ρ} (tolerance? : Option ρ) :
    Ends Always (fun _ => a.Readable) (ofTolerance? tolerance? a) := by
  unfold ofTolerance?
  exact DenseMatrix.ends_ofView_readable.bind fun _ h => Ends.always.imp fun _ _ => h

theorem HasShape.pseudoInverse {s : SVD ρ} {p : ℕ} (hs : s.HasShape m n p) :
    Ends E (·.HasShape n m) s.pseudoInverse := by
  unfold SVD.pseudoInverse
  refine Ends.bind (hs.v.mapEntries ?_) fun scaled hscaled => ?_
  · intro i j x _ hj
    exact (Storage.failsOnly_read (hs.values ▸ hj)).bind fun _ _ => trivial
  · exact hscaled.mulTranspose failsBy_total hs.u

omit [RealScalar ρ] in
theorem HasShape.uTranspose {s : SVD ρ} {p : ℕ} (hs : s.HasShape m n p) :
    Ends E (·.HasShape p m) s.uTranspose :=
  hs.u.transpose

omit [RealScalar ρ] in
theorem HasShape.vTranspose {s : SVD ρ} {p : ℕ} (hs : s.HasShape m n p) :
    Ends E (·.HasShape p n) s.vTranspose :=
  hs.v.transpose

theorem HasShape.diagonal {s : SVD ρ} {p : ℕ} (hs : s.HasShape m n p) :
    Ends E (·.HasShape p p) s.diagonal := by
  have hdiagonal := DenseMatrix.ends_diagonal_shape (E := E) s.values
  rwa [hs.values] at hdiagonal

/-- The covariance is refused for a cutoff that no leading singular value reaches. -/
theorem HasShape.covariance {s : SVD ρ} {p : ℕ} (hs : s.HasShape m n p) (cutoff : ρ) :
    Ends Refusal (·.HasShape n n) (s.covariance cutoff) := by
  have hkept : (s.values.toList.takeWhile fun x => decide (cutoff ≤ x)).length ≤ p := by
    rw [← hs.values, ← Array.length_toList]
    exact (List.takeWhile_prefix _).length_le
  unfold SVD.covariance
  dsimp only
  generalize (s.values.toList.takeWhile fun x => decide (cutoff ≤ x)).length = kept at hkept ⊢
  by_cases hnone : kept = 0
  · rw [if_pos hnone]
    rfl
  · rw [if_neg hnone]
    refine hs.vTranspose.bind fun vt hvt => ?_
    rw [hvt.ncols]
    refine Ends.bind (P := (·.HasShape kept n)) (DenseMatrix.ends_tabulate_shape ?_) fun j hj => ?_
    · intro i c hi hc
      have hip : i < p := hi.trans_le hkept
      refine (hvt.failsOnly_entry hip hc).bind fun _ _ => ?_
      exact (Storage.failsOnly_read (hs.values ▸ hip)).bind fun _ _ => trivial
    · exact hj.transposeMul failsBy_total hj

end SVD

end DenseFactor
