import Mathlib
import DenseFactor.Proofs.Edit

/-!
# DenseFactor.Proofs.Frame

What **no edit changes**: the shape of the matrix and the number of its stored elements.

Design points:

* The judgment is about success and failure alike (`Edit.KeepsShape`), since a failed edit
  leaves what it changed before.
* An edit is built of replacements of the storage, tests, and loops of these. It is enough to
  count the elements of one replacement; the rest is the same for all edits.
-/

namespace DenseFactor

variable {α β : Type}

/-- Two matrices of one shape with equally many stored elements. -/
def SameShape (m m' : DenseMatrix α) : Prop := m'.shape = m.shape ∧ m'.data.size = m.data.size

namespace SameShape

variable {m m' m'' : DenseMatrix α}

theorem refl (m : DenseMatrix α) : SameShape m m := ⟨rfl, rfl⟩

theorem trans (h : SameShape m m') (h' : SameShape m' m'') : SameShape m m'' :=
  ⟨h'.1.trans h.1, h'.2.trans h.2⟩

theorem wellFormed (h : SameShape m m') (hm : m.WellFormed) : m'.WellFormed := by
  have hrows : m'.nrows = m.nrows := congrArg Shape.rows h.1
  have hcols : m'.ncols = m.ncols := congrArg Shape.cols h.1
  rw [DenseMatrix.WellFormed, h.2, hrows, hcols, hm]

end SameShape

namespace Edit

/-- Whether it succeeds or fails, the edit leaves the shape and the number of stored
elements. -/
def KeepsShape (edit : Edit α β) : Prop :=
  ∀ m, Leaves (fun _ => SameShape m) (fun _ => SameShape m) edit m

namespace KeepsShape

variable {γ : Type}

theorem pure (b : β) : (Pure.pure b : Edit α β).KeepsShape := fun m => .pure (.refl m)

theorem get : (MonadState.get : Edit α (DenseMatrix α)).KeepsShape := fun m =>
  Leaves.get (P := fun _ => SameShape m) (.refl m)

theorem bind {x : Edit α β} {f : β → Edit α γ} (hx : x.KeepsShape)
    (hf : ∀ b, (f b).KeepsShape) : (x >>= f).KeepsShape := fun m =>
  (hx m).bind fun b after hafter =>
    ((hf b after).imp fun _ _ h => hafter.trans h).weaken fun _ _ h => hafter.trans h

theorem require (check : DenseMatrix α → Except Failure Unit) :
    (require check).KeepsShape := by
  intro m
  cases h : check m with
  | ok _ =>
      refine (Leaves.require h).imp ?_
      rintro _ _ rfl
      exact .refl _
  | error e => exact .require_error h (.refl m)

/-- New storage of the old size. -/
theorem modifyData {f : DenseMatrix α → Except Failure (Array α)}
    (h : ∀ m, Ends Always (·.size = m.data.size) (f m)) : (modifyData f).KeepsShape := by
  intro m
  refine Leaves.modifyData ?_
  cases hf : f m with
  | ok data => exact ⟨rfl, (h m).of_ok hf⟩
  | error e => exact SameShape.refl m

theorem forM {step : ℕ → Edit α Unit} (h : ∀ k, (step k).KeepsShape) (l : List ℕ) :
    (l.forM step).KeepsShape := by
  induction l with
  | nil => exact pure _
  | cons k l ih =>
      rw [List.forM_eq_forM, List.forM_cons]
      exact (h k).bind fun _ => ih

/-- An exchange of lines, whatever it does in each line across them. -/
theorem exchange {a b : ℕ} (lines : DenseMatrix α → ℕ) {step : ℕ → Edit α Unit}
    (h : ∀ k, (step k).KeepsShape) :
    (do
      if a ≠ b then
        let count := lines (← MonadState.get)
        (positions 0 count).forM step : Edit α Unit).KeepsShape := by
  by_cases hab : a ≠ b
  · rw [if_pos hab]
    exact get.bind fun m => forM h _
  · rw [if_neg hab]
    exact pure _

theorem perform {edit : Edit α Unit} (h : edit.KeepsShape) (m : DenseMatrix α) :
    SameShape m (edit.perform m).2 := by
  have hm := h m
  unfold Leaves at hm
  unfold Edit.perform
  rcases hrun : StateT.run (ExceptT.run edit) m with ⟨outcome, after⟩
  rw [hrun] at hm
  cases outcome with
  | ok _ => exact hm
  | error e => exact hm

end KeepsShape

theorem ends_write_size {xs : Array α} {k : ℕ} {x : α} :
    Ends Always (·.size = xs.size) (Storage.write xs k x) :=
  Storage.ends_write.imp fun _ h => h.1

/-! ### The edits -/

theorem keepsShape_writeCell (k : ℕ) (x : α) : (writeCell k x).KeepsShape :=
  .modifyData fun _ => ends_write_size

theorem keepsShape_writeStored (i j : ℕ) (x : α) : (writeStored i j x).KeepsShape :=
  .modifyData fun _ => ends_write_size

theorem keepsShape_writeEntry (i j : ℕ) (x : α) : (writeEntry i j x).KeepsShape :=
  (KeepsShape.require _).bind fun _ => keepsShape_writeStored i j x

theorem keepsShape_writeInRow (i k : ℕ) (x : α) : (writeInRow i k x).KeepsShape :=
  (KeepsShape.require _).bind fun _ => keepsShape_writeStored i k x

theorem keepsShape_swapRows (a b : ℕ) : (swapRows a b : Edit α Unit).KeepsShape :=
  .exchange DenseMatrix.ncols fun _ => .modifyData fun _ =>
    Storage.ends_exchange.imp fun _ h => h.1

theorem keepsShape_swapCols (a b : ℕ) : (swapCols a b : Edit α Unit).KeepsShape :=
  .exchange DenseMatrix.nrows fun _ => .modifyData fun _ =>
    Storage.ends_exchange.imp fun _ h => h.1

theorem keepsShape_exchangeRows (a b : ℕ) : (exchangeRows a b : Edit α Unit).KeepsShape := by
  rw [exchangeRows_eq_swapRows]
  exact keepsShape_swapRows a b

theorem keepsShape_modifyElements (f : ℕ → α → Except Failure α) :
    (modifyElements f).KeepsShape :=
  KeepsShape.get.bind fun _ => .forM (fun _ => .modifyData fun _ =>
    Ends.always.bind fun _ _ => Ends.always.bind fun _ _ => ends_write_size) _

theorem keepsShape_combine [Scalar α] (op : Entrywise) (f : α → α → Except Failure α)
    (n : DenseMatrix α) : (combine op f n).KeepsShape :=
  (KeepsShape.require _).bind fun _ => keepsShape_modifyElements _

theorem keepsShape_writeBlock (row col : ℕ) (block : DenseMatrix α) :
    (writeBlock row col block).KeepsShape :=
  (KeepsShape.require _).bind fun _ => .forM (fun _ => .forM (fun _ => .modifyData fun _ =>
    Ends.always.bind fun _ _ => ends_write_size) _) _

end Edit

end DenseFactor
