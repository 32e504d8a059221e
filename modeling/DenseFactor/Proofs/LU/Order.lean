import Mathlib
import DenseFactor.Proofs.LU.Shape

/-!
# DenseFactor.Proofs.LU.Order

The rows of an elimination stay **in some order**, whatever the rule chooses.

Design points:

* Nothing is asked of the rule: it may answer with any row or with none, and fail. What it
  answers enters through an exchange, and an exchange that succeeds is one of two rows.
* `s.Orders σ` is kept by every step, so it holds where a column was rejected as well as after
  the last one.
-/

namespace DenseFactor.LU

variable {α : Type} {n : ℕ}

/-- The pivots of an `n x n` elimination list the permutation `σ`, and the parity is its
sign. -/
structure Elimination.Orders (s : Elimination α) (σ : Equiv.Perm (Fin n)) : Prop where
  packed : s.packed.HasShape n n
  lists : Lists s.pivot σ
  sign : Equiv.Perm.sign σ = if s.even then 1 else -1

namespace Elimination.Orders

variable {s : Elimination α} {σ : Equiv.Perm (Fin n)}

theorem start {m : DenseMatrix α} (hm : m.HasShape n n) :
    Elimination.Orders
      { packed := m, pivot := Array.range m.nrows, even := true, singular := false }
      (1 : Equiv.Perm (Fin n)) where
  packed := hm
  lists := hm.nrows ▸ Lists.range n
  sign := by simp

/-- The parity tells whether the sign is positive. -/
theorem even_iff (h : s.Orders σ) : s.even = true ↔ Equiv.Perm.sign σ = 1 := by
  rw [h.sign]
  cases s.even with
  | true => simp
  | false => simp

theorem ends_exchange (h : s.Orders σ) (a b : ℕ) :
    Ends Always (fun s' => ∃ σ' : Equiv.Perm (Fin n), s'.Orders σ') (s.exchange a b) := by
  unfold Elimination.exchange
  by_cases hab : a = b
  · rw [if_pos hab]
    exact ⟨σ, h⟩
  rw [if_neg hab]
  -- the packed matrix is edited before the pivots show that both rows are there
  have hpacked : Ends Always (fun m => a < n → b < n → m.HasShape n n)
      ((Edit.exchangeRows a b).apply s.packed) := by
    by_cases hlt : a < n ∧ b < n
    · obtain ⟨W, hW⟩ := h.packed.exists_stores
      refine ((hW.exchangeRows ⟨a, hlt.1⟩ ⟨b, hlt.2⟩).imp ?_).of_never
      intro m hm _ _
      exact hm.hasShape
    · exact Ends.always.imp fun m _ ha hb => absurd ⟨ha, hb⟩ hlt
  refine hpacked.bind fun packed hpacked => ?_
  refine (h.lists.ends_exchange a b).bind ?_
  rintro pivot ⟨i, j, rfl, rfl, hpivot⟩
  have hij : i ≠ j := fun heq => hab (congrArg Fin.val heq)
  refine ⟨_, hpacked i.isLt j.isLt, hpivot, ?_⟩
  rw [Equiv.Perm.sign_mul, Equiv.Perm.sign_swap hij, h.sign]
  cases s.even with
  | true => rfl
  | false => rfl

variable [Scalar α]

/-- **One step.** Reducing a column exchanges two rows at most. -/
theorem ends_reduce (h : s.Orders σ) (col row : ℕ) :
    Ends Always (fun s' => ∃ σ' : Equiv.Perm (Fin n), s'.Orders σ') (s.reduce col row) := by
  unfold Elimination.reduce
  refine (h.ends_exchange col row).bind ?_
  rintro s₁ ⟨σ₁, h₁⟩
  have hdivided : Ends Always (·.HasShape n n) (divideColumn col s₁.packed) :=
    Ends.always.bind fun pivot _ => h₁.packed.mapEntries fun _ _ _ _ _ => Ends.always
  refine hdivided.bind fun m₂ hm₂ => ?_
  have hreduced : Ends Always (·.HasShape n n) (subtractPivotRow col m₂) :=
    hm₂.mapEntries fun _ _ _ _ _ => Ends.always
  exact hreduced.bind fun m₃ hm₃ => ⟨σ₁, hm₃, h₁.lists, h₁.sign⟩

/-- **All steps.** The run may end at a rejected column. -/
theorem ends_run (rule : PivotRule α) (l : List ℕ) (h : s.Orders σ) :
    Ends Always (fun s' => ∃ σ' : Equiv.Perm (Fin n), s'.Orders σ')
      (Elimination.run rule l s) := by
  induction l generalizing s σ with
  | nil => exact ⟨σ, h⟩
  | cons col l ih =>
      rw [Elimination.run]
      refine Ends.always.bind fun choice _ => ?_
      cases choice with
      | none => exact ⟨σ, h.packed, h.lists, h.sign⟩
      | some row =>
          refine (h.ends_reduce col row).bind ?_
          rintro s' ⟨σ', h'⟩
          exact ih h'

end Elimination.Orders

/-- The pivots of every decomposition are a permutation of the rows, whose sign is the parity. -/
theorem ends_ofRule_orders [Scalar α] (rule : PivotRule α) (threshold : Option Float)
    (a : MatrixView α) :
    Ends Always (fun lu => ∃ σ : Equiv.Perm (Fin a.nrows), lu.elimination.Orders σ)
      (ofRule rule threshold a) := by
  unfold ofRule
  by_cases hsquare : a.nrows = a.ncols
  · rw [if_neg (not_not.2 hsquare)]
    refine Ends.always.self.bind fun m hm => ?_
    obtain ⟨hrows, hcols, wf, -⟩ := DenseMatrix.tabulate_eq_ok_iff.1 hm.1
    have hshape : m.HasShape a.nrows a.nrows := ⟨hrows, hcols.trans hsquare.symm, wf⟩
    exact ((Elimination.Orders.start hshape).ends_run rule _).bind fun s hs => hs
  · rw [if_pos hsquare]
    exact trivial

end DenseFactor.LU
