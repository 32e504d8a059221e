import Mathlib
import DenseFactor.Proofs.Cholesky.Pivoted
import DenseFactor.Proofs.Shape

/-!
# DenseFactor.Proofs.Cholesky.PivotedShape

The pivoted Cholesky decomposition stays **inside its matrices**, whatever the arithmetic
answers: it refuses a matrix, or it has a root with a column for every eliminated position.

Design points:

* The position that is moved into place is chosen by comparisons of diagonal entries.
  Whatever these say, it is one of the positions that are left, so the order of the rows stays
  a permutation.
* The order is part of the shape of a state: the root is put into the order of the matrix by
  writing row `i` to row `order[i]`, which is in bounds for this reason alone.
-/

namespace DenseFactor.PivotedCholesky

variable {ρ : Type} [RealScalar ρ] {E : Failure → Prop} {n : ℕ}

/-! ### States -/

/-- The matrices of a state are `n x n`, and its rows stand in some order. -/
structure Reduction.HasShape (s : Reduction ρ) (n : ℕ) : Prop where
  work : s.work.HasShape n n
  root : s.root.HasShape n n
  order : ∃ σ : Equiv.Perm (Fin n), Lists s.order σ

namespace Reduction.HasShape

variable {s : Reduction ρ}

omit [RealScalar ρ] in
theorem size (h : s.HasShape n) : s.order.size = n := by
  obtain ⟨σ, hσ⟩ := h.order
  exact hσ.size

omit [RealScalar ρ] in
theorem exists_holds (h : s.HasShape n) :
    ∃ (σ : Equiv.Perm (Fin n)) (W L : Matrix (Fin n) (Fin n) ρ), s.Holds σ W L := by
  obtain ⟨W, hW⟩ := h.work.exists_stores
  obtain ⟨L, hL⟩ := h.root.exists_stores
  obtain ⟨σ, hσ⟩ := h.order
  exact ⟨σ, W, L, hW, hL, hσ⟩

/-- A position that is left, whatever the comparisons answer. -/
theorem ends_largestDiagonal_range (h : s.HasShape n) {r : ℕ} (hr : r < n) :
    Ends E (fun p => p < n) (s.largestDiagonal r) := by
  unfold largestDiagonal
  rw [h.size]
  refine Ends.foldlM_mem hr fun i hi best hbest => ?_
  have hi : i < n := (mem_positions.1 hi).2
  refine (h.work.failsOnly_entry hbest hbest).bind fun x _ => ?_
  refine (h.work.failsOnly_entry hi hi).bind fun y _ => ?_
  by_cases hlarger : x < y
  · rw [if_pos hlarger]
    exact hi
  · rw [if_neg hlarger]
    exact hbest

omit [RealScalar ρ] in
theorem exchange (h : s.HasShape n) {a b : ℕ} (ha : a < n) (hb : b < n) :
    Ends E (·.HasShape n) (s.exchange a b) := by
  obtain ⟨σ, W, L, hholds⟩ := h.exists_holds
  refine ((hholds.exchange ⟨a, ha⟩ ⟨b, hb⟩).imp ?_).of_never
  intro s' hs'
  exact ⟨hs'.work.hasShape, hs'.root.hasShape, _, hs'.order⟩

theorem failsOnly_hasNegative (h : s.HasShape n) (r : ℕ) (small : ρ) :
    FailsOnly E (s.hasNegative r small) := by
  unfold hasNegative
  rw [h.size]
  refine FailsOnly.anyM fun i hi => ?_
  have hi : i < n := (mem_positions.1 hi).2
  exact (h.work.failsOnly_entry hi hi).bind fun _ _ => trivial

theorem ends_column_size (h : s.HasShape n) {r : ℕ} (hr : r < n) (root : ρ) :
    Ends E (·.size = n) (s.column r root) := by
  unfold column
  rw [h.size]
  refine Storage.ends_collect_size fun i hi => ?_
  by_cases hbelow : r < i
  · rw [if_pos hbelow]
    exact (h.work.failsOnly_entry hi hr).bind fun _ _ => trivial
  · rw [if_neg hbelow]
    exact trivial

theorem eliminate (h : s.HasShape n) {r : ℕ} (hr : r < n) :
    Ends E (·.HasShape n) (s.eliminate r) := by
  unfold Reduction.eliminate
  refine (h.work.failsOnly_entry hr hr).bind fun pivot _ => ?_
  refine (h.ends_column_size hr _).bind fun column hsize => ?_
  refine Ends.bind (h.root.mapEntries fun i j x hi _ => ?_) fun root hroot => ?_
  · by_cases hdiag : j = r ∧ i = r
    · rw [if_pos hdiag]
      exact trivial
    · rw [if_neg hdiag]
      by_cases hbelow : j = r ∧ r < i
      · rw [if_pos hbelow]
        exact Storage.failsOnly_read (hsize ▸ hi)
      · rw [if_neg hbelow]
        exact trivial
  refine Ends.bind (h.work.mapEntries fun i j x hi hj => ?_) fun work hwork => ?_
  · by_cases hrest : r < i ∧ r < j
    · rw [if_pos hrest]
      by_cases hij : i = j
      · rw [if_pos hij]
        exact (h.work.failsOnly_entry hi hr).bind fun _ _ => trivial
      · rw [if_neg hij]
        have hmax : max i j < n := max_lt hi hj
        have hmin : min i j < n := (min_le_left i j).trans_lt hi
        refine (h.work.failsOnly_entry hmax hmin).bind fun _ _ => ?_
        refine (Storage.failsOnly_read (hsize ▸ hmax)).bind fun _ _ => ?_
        exact (Storage.failsOnly_read (hsize ▸ hmin)).bind fun _ _ => trivial
    · rw [if_neg hrest]
      exact trivial
  · exact ⟨hwork, hroot, h.order⟩

end Reduction.HasShape

/-! ### Runs -/

/-- The induction over the positions that are left. -/
theorem Reduction.ends_run_shape (small : ρ) {l : List ℕ} (hl : ∀ r ∈ l, r < n) {s : Reduction ρ}
    (hs : s.HasShape n) :
    Ends Refusal (fun out => out.1.HasShape n ∧ out.2 ≤ n) (Reduction.run small l s) := by
  induction l generalizing s with
  | nil => exact ⟨hs, hs.size.le⟩
  | cons r l ih =>
      have hr : r < n := hl r List.mem_cons_self
      rw [Reduction.run]
      refine (hs.ends_largestDiagonal_range hr).bind fun best hbest => ?_
      refine (hs.exchange hr hbest).bind fun s hs => ?_
      refine (hs.work.failsOnly_entry hr hr).bind fun pivot _ => ?_
      by_cases hstop : pivot ≤ small
      · rw [if_pos hstop]
        by_cases hfirst : r = 0
        · rw [if_pos hfirst]
          rfl
        · rw [if_neg hfirst]
          refine (hs.failsOnly_hasNegative r small).bind fun negative _ => ?_
          cases negative with
          | true => rfl
          | false => exact ⟨hs, hr.le⟩
      · rw [if_neg hstop]
        refine (hs.eliminate hr).bind fun s hs => ?_
        exact ih (fun i hi => hl i (List.mem_cons_of_mem r hi)) hs

omit [RealScalar ρ] in
theorem Reduction.HasShape.start [Scalar ρ] {work : DenseMatrix ρ} (hwork : work.HasShape n n) :
    Reduction.HasShape { work, root := .zeros n n, order := Array.range n } n :=
  ⟨hwork, DenseMatrix.hasShape_zeros n n, 1, Lists.range n⟩

/-- The root in the order of the matrix. -/
theorem Reduction.HasShape.ends_inMatrixOrder_shape {s : Reduction ρ} (hs : s.HasShape n)
    {rank : ℕ} (hrank : rank ≤ n) : Ends E (·.HasShape n rank) (s.inMatrixOrder rank) := by
  obtain ⟨σ, W, L, hholds⟩ := hs.exists_holds
  exact ((hholds.ends_inMatrixOrder hrank).imp fun _ h => h.hasShape).of_never

/-- A matrix is refused, or it is square and has a root with a row for each of its rows. -/
theorem ends_ofSmall_shape {a : MatrixView ρ} (ha : a.Readable) (small : ρ) :
    Ends Refusal (fun c => a.ncols = a.nrows ∧ c.root.HasShape a.nrows c.rank ∧ c.rank ≤ a.nrows)
      (ofSmall small a) := by
  unfold ofSmall
  by_cases hsquare : a.nrows = a.ncols
  · rw [if_neg (not_not.2 hsquare)]
    refine (DenseMatrix.ends_ofView_shape ha).bind fun work hwork => ?_
    rw [← hsquare] at hwork
    have hpositions : ∀ r ∈ positions 0 a.nrows, r < a.nrows := fun r hr => (mem_positions.1 hr).2
    refine (Reduction.ends_run_shape small hpositions (.start hwork)).bind fun out hout => ?_
    obtain ⟨hs, hrank⟩ := hout
    exact (hs.ends_inMatrixOrder_shape hrank).bind fun root hroot => ⟨hsquare.symm, hroot, hrank⟩
  · rw [if_pos hsquare]
    rfl

end DenseFactor.PivotedCholesky
