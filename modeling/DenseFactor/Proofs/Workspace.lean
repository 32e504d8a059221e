import Mathlib
import DenseFactor.Proofs.Address
import DenseFactor.Proofs.Frame
import DenseFactor.Proofs.Shape
import DenseFactor.Scalar.Bounded

/-!
# DenseFactor.Proofs.Workspace

Sequences of operations on matrices and vectors, and **what no sequence breaks**: every matrix
has one stored element for every entry of its shape.

Design points:

* A `Workspace` holds the matrices and vectors at hand. An `Operation` makes one more of them
  or changes one in place; its operands are named by their places. An operation that fails may
  leave a change it made halfway, and the next operation starts from there.
* What makes a matrix ends in a well-formed one or in a failure, given well-formed operands
  (`MatrixRecipe.ends_make`). Most of it tabulates; where the elements are put beside a shape
  without a test, their number has to be counted.
* A change in place never changes the shape or the number of stored elements
  (`Edit.KeepsShape`), whether it succeeds or fails. It is enough to know this of a single
  replacement of the storage.
* From this an address is what it should be (`DenseMatrix.Addressed`): the ways to read an
  entry agree, and a write of one leaves all others.
-/

namespace DenseFactor

variable {α β : Type}

/-! ### Operations -/

/-- The matrices and the vectors at hand, in the order in which they were made. -/
structure Workspace (α : Type) where
  matrices : Array (DenseMatrix α)
  vectors : Array (ColumnVector α)

namespace Workspace

/-- Nothing at hand. -/
def empty : Workspace α := ⟨#[], #[]⟩

/-- The matrix at a place. -/
def matrix (w : Workspace α) (k : ℕ) : Except Failure (DenseMatrix α) :=
  Storage.read w.matrices k

/-- The vector at a place. -/
def vector (w : Workspace α) (k : ℕ) : Except Failure (ColumnVector α) :=
  Storage.read w.vectors k

end Workspace

/-- The ways to make a matrix. -/
inductive MatrixRecipe (α : Type) : Type 1
  | zeros (nrows ncols : ℕ)
  | identity (n : ℕ)
  | ofArray (buffer : Buffer) (nrows ncols : ℕ) (data : Array α)
  | ofRows (rows : List (List α))
  | diagonal (entries : Array α)
  /-- Every entry is computed from its position. -/
  | tabulate (nrows ncols : ℕ) (entry : ℕ → ℕ → Except Failure α)
  /-- A dense copy of anything that can be read. -/
  | ofView (v : MatrixView α)
  /-- A dense copy of a matrix, read through its view. -/
  | ofMatrix (m : ℕ)
  /-- A dense copy of a vector, read through its view. -/
  | ofVector (v : ℕ)
  /-- The same matrix once more. -/
  | clone (m : ℕ)
  /-- The column that a vector is stored as. -/
  | column (v : ℕ)
  | add (m n : ℕ)
  | sub (m n : ℕ)
  | neg (m : ℕ)
  | scale (m : ℕ) (factor : α)
  | mul (m n : ℕ)
  | mulTranspose (m n : ℕ)
  | transposeMul (m n : ℕ)
  | transpose (m : ℕ)
  | adjoint {ρ : Type} [EuclideanScalar α ρ] (m : ℕ)
  | block (m firstRow lastRow firstCol lastCol : ℕ)

/-- The ways to make a vector. -/
inductive VectorRecipe (α : Type)
  | ofArray (data : Array α)
  | zeros (n : ℕ)
  /-- The same vector once more. -/
  | clone (v : ℕ)
  | mulVector (m v : ℕ)
  | row (m i : ℕ)
  | col (m j : ℕ)

/-- The changes of a matrix in place. -/
inductive MatrixChange (α : Type)
  | writeEntry (i j : ℕ) (x : α)
  | writeStored (i j : ℕ) (x : α)
  | writeCell (k : ℕ) (x : α)
  | writeInRow (i k : ℕ) (x : α)
  | swapRows (a b : ℕ)
  | swapCols (a b : ℕ)
  | exchangeRows (a b : ℕ)
  | add (n : ℕ)
  | sub (n : ℕ)
  | scale (factor : α)
  | writeBlock (row col n : ℕ)

/-- The changes of a vector in place. -/
inductive VectorChange (α : Type)
  | writeCell (k : ℕ) (x : α)
  | writeStored (i j : ℕ) (x : α)
  | exchangeRows (a b : ℕ)

/-- What can be done with the matrices and vectors at hand. -/
inductive Operation (α : Type) : Type 1
  | makeMatrix (recipe : MatrixRecipe α)
  | makeVector (recipe : VectorRecipe α)
  | changeMatrix (m : ℕ) (change : MatrixChange α)
  | changeVector (v : ℕ) (change : VectorChange α)

section Performing

variable [Scalar α] (w : Workspace α)

/-- The matrix that a recipe makes. -/
def MatrixRecipe.make : MatrixRecipe α → Except Failure (DenseMatrix α)
  | .zeros nrows ncols => .ok (.zeros nrows ncols)
  | .identity n => DenseMatrix.identity n
  | .ofArray buffer nrows ncols data => DenseMatrix.ofArray buffer nrows ncols data
  | .ofRows rows => DenseMatrix.ofRows rows
  | .diagonal entries => DenseMatrix.diagonal entries
  | .tabulate nrows ncols entry => DenseMatrix.tabulate nrows ncols entry
  | .ofView v => DenseMatrix.ofView v
  | .ofMatrix m => do DenseMatrix.ofView (← w.matrix m).view
  | .ofVector v => do DenseMatrix.ofView (← w.vector v).view
  | .clone m => w.matrix m
  | .column v => do return (← w.vector v).column
  | .add m n => do (← w.matrix m).add (← w.matrix n)
  | .sub m n => do (← w.matrix m).sub (← w.matrix n)
  | .neg m => do (← w.matrix m).neg
  | .scale m factor => do (← w.matrix m).scale factor
  | .mul m n => do (← w.matrix m).mul (← w.matrix n)
  | .mulTranspose m n => do (← w.matrix m).mulTranspose (← w.matrix n)
  | .transposeMul m n => do (← w.matrix m).transposeMul (← w.matrix n)
  | .transpose m => do (← w.matrix m).transpose
  | @MatrixRecipe.adjoint _ _ _ m => do (← w.matrix m).adjoint
  | .block m firstRow lastRow firstCol lastCol => do
    (← w.matrix m).block firstRow lastRow firstCol lastCol

/-- The vector that a recipe makes. -/
def VectorRecipe.make : VectorRecipe α → Except Failure (ColumnVector α)
  | .ofArray data => .ok (.ofArray data)
  | .zeros n => .ok (.zeros n)
  | .clone v => w.vector v
  | .mulVector m v => do (← w.matrix m).mulVector (← w.vector v)
  | .row m i => do (← w.matrix m).row i
  | .col m j => do (← w.matrix m).col j

/-- The edit that a change is, its operands looked up. -/
def MatrixChange.edit : MatrixChange α → Except Failure (Edit α Unit)
  | .writeEntry i j x => .ok (.writeEntry i j x)
  | .writeStored i j x => .ok (.writeStored i j x)
  | .writeCell k x => .ok (.writeCell k x)
  | .writeInRow i k x => .ok (.writeInRow i k x)
  | .swapRows a b => .ok (.swapRows a b)
  | .swapCols a b => .ok (.swapCols a b)
  | .exchangeRows a b => .ok (.exchangeRows a b)
  | .add n => do return .add (← w.matrix n)
  | .sub n => do return .sub (← w.matrix n)
  | .scale factor => .ok (.scale factor)
  | .writeBlock row col n => do return .writeBlock row col (← w.matrix n)

/-- The edit of the column that a change of a vector is. -/
def VectorChange.edit : VectorChange α → Edit α Unit
  | .writeCell k x => .writeCell k x
  | .writeStored i j x => .writeStored i j x
  | .exchangeRows a b => .exchangeRows a b

/-- Goes on with a result; a failure leaves the workspace. -/
def Workspace.attempt (x : Except Failure β)
    (next : β → Except Failure Unit × Workspace α) : Except Failure Unit × Workspace α :=
  match x with
  | .ok b => next b
  | .error failure => (.error failure, w)

/-- How an operation ends, and the workspace as it leaves it. -/
def Operation.perform : Operation α → Except Failure Unit × Workspace α
  | .makeMatrix recipe =>
    w.attempt (recipe.make w) fun m => (.ok (), { w with matrices := w.matrices.push m })
  | .makeVector recipe =>
    w.attempt (recipe.make w) fun v => (.ok (), { w with vectors := w.vectors.push v })
  | .changeMatrix k change =>
    w.attempt (w.matrix k) fun m => w.attempt (change.edit w) fun edit =>
      let (outcome, after) := edit.perform m
      (outcome, { w with matrices := w.matrices.setIfInBounds k after })
  | .changeVector k change =>
    w.attempt (w.vector k) fun v =>
      let (outcome, after) := v.edit change.edit
      (outcome, { w with vectors := w.vectors.setIfInBounds k after })

/-- The workspace after a sequence of operations, whatever becomes of them. -/
def Workspace.run (operations : List (Operation α)) : Workspace α :=
  operations.foldl (fun w operation => (operation.perform w).2) w

end Performing

/-! ### What is made -/

namespace DenseMatrix

variable {m n : DenseMatrix α}

theorem ends_tabulate_wellFormed {nrows ncols : ℕ} {f : ℕ → ℕ → Except Failure α} :
    Ends Always (·.WellFormed) (tabulate nrows ncols f) :=
  Ends.always.self.imp fun _ h => (tabulate_eq_ok_iff.1 h.1).2.2.1

theorem ends_ofArray_wellFormed {buffer : Buffer} {nrows ncols : ℕ} {data : Array α} :
    Ends Always (·.WellFormed) (ofArray buffer nrows ncols data) := by
  unfold ofArray
  split
  · next h => exact h
  · exact trivial

/-- Rows of one length have one element for every entry. -/
theorem ends_ofRows_wellFormed {rows : List (List α)} :
    Ends Always (·.WellFormed) (ofRows rows) := by
  unfold ofRows
  split
  · exact trivial
  next first rest =>
  split
  · exact trivial
  split
  · next hall =>
      have hlengths : ∀ k ∈ (first :: rest).map List.length, k = first.length := by
        simpa using hall
      have hflat : (first :: rest).flatten.length = (first :: rest).length * first.length := by
        rw [List.length_flatten, List.eq_replicate_of_mem hlengths, List.sum_replicate,
          List.length_map, smul_eq_mul]
      rw [Ends.ok_iff, WellFormed, List.size_toArray, hflat]
  · exact trivial

theorem ends_mapM_size {f : α → Except Failure β} {xs : Array α} :
    Ends Always (·.size = xs.size) (xs.mapM f) := by
  have hlist (l : List α) : Ends Always (·.length = l.length) (l.mapM f) := by
    induction l with
    | nil => exact rfl
    | cons x l ih =>
        rw [List.mapM_cons]
        refine Ends.always.bind fun y _ => ih.bind fun ys hys => ?_
        exact congrArg (· + 1) hys
  rw [Array.mapM_eq_mapM_toList, Ends.map_iff]
  exact (hlist xs.toList).imp fun ys hys => by simpa using hys

theorem ends_block_wellFormed {firstRow lastRow firstCol lastCol : ℕ} :
    Ends Always (·.WellFormed) (m.block firstRow lastRow firstCol lastCol) :=
  Ends.ite (fun _ => ends_tabulate_wellFormed) fun _ => trivial

/-- Elements are combined in pairs, of which there are as many as in either operand. -/
theorem WellFormed.entrywise (hm : m.WellFormed) (hn : n.WellFormed) {op : Entrywise}
    {f : α → α → Except Failure α} : Ends Always (·.WellFormed) (entrywise op f m n) := by
  unfold DenseMatrix.entrywise
  split
  · exact trivial
  next hshape =>
  have hsize : n.data.size = m.data.size := by
    have hrows : m.nrows = n.nrows := congrArg Shape.rows (not_not.1 hshape)
    have hcols : m.ncols = n.ncols := congrArg Shape.cols (not_not.1 hshape)
    rw [hn, hm, hrows, hcols]
  refine ends_mapM_size.bind fun data hdata => ?_
  rw [Array.size_zip, hsize, min_self] at hdata
  exact hdata.trans hm

variable [Scalar α]

theorem WellFormed.neg (hm : m.WellFormed) : Ends Always (·.WellFormed) m.neg :=
  ends_mapM_size.bind fun _ hdata => hdata.trans hm

theorem WellFormed.scale (hm : m.WellFormed) (factor : α) :
    Ends Always (·.WellFormed) (m.scale factor) :=
  ends_mapM_size.bind fun _ hdata => hdata.trans hm

theorem ends_mul_wellFormed : Ends Always (·.WellFormed) (m.mul n) :=
  Ends.ite (fun _ => trivial) fun _ => ends_tabulate_wellFormed

theorem ends_mulTranspose_wellFormed : Ends Always (·.WellFormed) (m.mulTranspose n) :=
  Ends.ite (fun _ => trivial) fun _ => ends_tabulate_wellFormed

theorem ends_transposeMul_wellFormed : Ends Always (·.WellFormed) (m.transposeMul n) :=
  Ends.ite (fun _ => trivial) fun _ => ends_tabulate_wellFormed

end DenseMatrix

namespace ColumnVector

theorem wellFormed_ofArray (data : Array α) : (ofArray data).WellFormed :=
  ⟨rfl, (Nat.mul_one _).symm⟩

theorem wellFormed_zeros [Scalar α] (n : ℕ) : (zeros n : ColumnVector α).WellFormed :=
  ⟨rfl, Array.size_replicate⟩

end ColumnVector

/-! ### Workspaces -/

/-- Everything at hand is well formed. -/
structure Workspace.WellFormed (w : Workspace α) : Prop where
  matrices : ∀ m ∈ w.matrices, m.WellFormed
  vectors : ∀ v ∈ w.vectors, v.WellFormed

namespace Workspace.WellFormed

variable {w : Workspace α}

theorem empty : (Workspace.empty : Workspace α).WellFormed :=
  ⟨fun _ hm => absurd hm (Array.not_mem_empty _), fun _ hv => absurd hv (Array.not_mem_empty _)⟩

theorem matrix (h : w.WellFormed) (k : ℕ) : Ends Always (·.WellFormed) (w.matrix k) :=
  Storage.ends_read.imp fun m hm => h.matrices m (Array.mem_of_getElem? hm)

theorem vector (h : w.WellFormed) (k : ℕ) : Ends Always (·.WellFormed) (w.vector k) :=
  Storage.ends_read.imp fun v hv => h.vectors v (Array.mem_of_getElem? hv)

theorem pushMatrix (h : w.WellFormed) {m : DenseMatrix α} (hm : m.WellFormed) :
    ({ w with matrices := w.matrices.push m } : Workspace α).WellFormed where
  matrices m' hm' := by
    obtain hm' | rfl := Array.mem_push.1 hm'
    · exact h.matrices m' hm'
    · exact hm
  vectors := h.vectors

theorem pushVector (h : w.WellFormed) {v : ColumnVector α} (hv : v.WellFormed) :
    ({ w with vectors := w.vectors.push v } : Workspace α).WellFormed where
  matrices := h.matrices
  vectors v' hv' := by
    obtain hv' | rfl := Array.mem_push.1 hv'
    · exact h.vectors v' hv'
    · exact hv

theorem setMatrix (h : w.WellFormed) (k : ℕ) {m : DenseMatrix α} (hm : m.WellFormed) :
    ({ w with matrices := w.matrices.setIfInBounds k m } : Workspace α).WellFormed where
  matrices m' hm' := by
    obtain hm' | rfl := Array.mem_or_eq_of_mem_setIfInBounds hm'
    · exact h.matrices m' hm'
    · exact hm
  vectors := h.vectors

theorem setVector (h : w.WellFormed) (k : ℕ) {v : ColumnVector α} (hv : v.WellFormed) :
    ({ w with vectors := w.vectors.setIfInBounds k v } : Workspace α).WellFormed where
  matrices := h.matrices
  vectors v' hv' := by
    obtain hv' | rfl := Array.mem_or_eq_of_mem_setIfInBounds hv'
    · exact h.vectors v' hv'
    · exact hv

/-- A workspace is well formed if it is so after every good result. -/
theorem attempt (h : w.WellFormed) {P : β → Prop} {x : Except Failure β}
    {next : β → Except Failure Unit × Workspace α} (hx : Ends Always P x)
    (hnext : ∀ b, P b → (next b).2.WellFormed) : (w.attempt x next).2.WellFormed := by
  cases x with
  | ok b => exact hnext b hx
  | error e => exact h

end Workspace.WellFormed

section Making

variable [Scalar α] {w : Workspace α}

/-- Every recipe makes a well-formed matrix of well-formed operands, or fails. -/
theorem MatrixRecipe.ends_make (hw : w.WellFormed) (recipe : MatrixRecipe α) :
    Ends Always (·.WellFormed) (recipe.make w) := by
  cases recipe with
  | zeros nrows ncols => exact (DenseMatrix.stores_zeros nrows ncols).wellFormed
  | identity n => exact (DenseMatrix.ends_identity_shape n).imp fun _ h => h.wellFormed
  | ofArray buffer nrows ncols data => exact DenseMatrix.ends_ofArray_wellFormed
  | ofRows rows => exact DenseMatrix.ends_ofRows_wellFormed
  | diagonal entries =>
      exact (DenseMatrix.ends_diagonal_shape entries).imp fun _ h => h.wellFormed
  | tabulate nrows ncols entry => exact DenseMatrix.ends_tabulate_wellFormed
  | ofView v => exact DenseMatrix.ends_tabulate_wellFormed
  | ofMatrix k => exact (hw.matrix k).bind fun m _ => DenseMatrix.ends_tabulate_wellFormed
  | ofVector k => exact (hw.vector k).bind fun v _ => DenseMatrix.ends_tabulate_wellFormed
  | clone k => exact hw.matrix k
  | column k => exact (hw.vector k).bind fun v hv => hv.2
  | add k l =>
      exact (hw.matrix k).bind fun m hm => (hw.matrix l).bind fun n hn => hm.entrywise hn
  | sub k l =>
      exact (hw.matrix k).bind fun m hm => (hw.matrix l).bind fun n hn => hm.entrywise hn
  | neg k => exact (hw.matrix k).bind fun m hm => hm.neg
  | scale k factor => exact (hw.matrix k).bind fun m hm => hm.scale factor
  | mul k l =>
      exact (hw.matrix k).bind fun m _ => (hw.matrix l).bind fun n _ =>
        DenseMatrix.ends_mul_wellFormed
  | mulTranspose k l =>
      exact (hw.matrix k).bind fun m _ => (hw.matrix l).bind fun n _ =>
        DenseMatrix.ends_mulTranspose_wellFormed
  | transposeMul k l =>
      exact (hw.matrix k).bind fun m _ => (hw.matrix l).bind fun n _ =>
        DenseMatrix.ends_transposeMul_wellFormed
  | transpose k => exact (hw.matrix k).bind fun m _ => DenseMatrix.ends_tabulate_wellFormed
  | adjoint k => exact (hw.matrix k).bind fun m _ => DenseMatrix.ends_tabulate_wellFormed
  | block k firstRow lastRow firstCol lastCol =>
      exact (hw.matrix k).bind fun m _ => DenseMatrix.ends_block_wellFormed

/-- Every recipe makes a well-formed vector of well-formed operands, or fails. -/
theorem VectorRecipe.ends_make (hw : w.WellFormed) (recipe : VectorRecipe α) :
    Ends Always (·.WellFormed) (recipe.make w) := by
  cases recipe with
  | ofArray data => exact ColumnVector.wellFormed_ofArray data
  | zeros n => exact ColumnVector.wellFormed_zeros n
  | clone k => exact hw.vector k
  | mulVector k l =>
      exact (hw.matrix k).bind fun m _ => (hw.vector l).bind fun v _ =>
        Ends.ite (fun _ => trivial) fun _ => Ends.always.bind fun data _ =>
          ColumnVector.wellFormed_ofArray data
  | row k i =>
      exact (hw.matrix k).bind fun m _ => Ends.always.bind fun data _ =>
        ColumnVector.wellFormed_ofArray data
  | col k j =>
      exact (hw.matrix k).bind fun m _ => Ends.always.bind fun data _ =>
        ColumnVector.wellFormed_ofArray data

end Making

/-! ### What is changed -/

/-- No change of a matrix in place changes its shape. -/
theorem MatrixChange.ends_edit [Scalar α] {w : Workspace α} (change : MatrixChange α) :
    Ends Always Edit.KeepsShape (change.edit w) := by
  cases change with
  | writeEntry i j x => exact Edit.keepsShape_writeEntry i j x
  | writeStored i j x => exact Edit.keepsShape_writeStored i j x
  | writeCell k x => exact Edit.keepsShape_writeCell k x
  | writeInRow i k x => exact Edit.keepsShape_writeInRow i k x
  | swapRows a b => exact Edit.keepsShape_swapRows a b
  | swapCols a b => exact Edit.keepsShape_swapCols a b
  | exchangeRows a b => exact Edit.keepsShape_exchangeRows a b
  | add k => exact Ends.always.bind fun n _ => Edit.keepsShape_combine _ _ n
  | sub k => exact Ends.always.bind fun n _ => Edit.keepsShape_combine _ _ n
  | scale factor => exact Edit.keepsShape_modifyElements _
  | writeBlock row col k => exact Ends.always.bind fun n _ => Edit.keepsShape_writeBlock row col n

/-- No change of a vector in place changes the shape of its column. -/
theorem VectorChange.keepsShape_edit (change : VectorChange α) : change.edit.KeepsShape := by
  cases change with
  | writeCell k x => exact Edit.keepsShape_writeCell k x
  | writeStored i j x => exact Edit.keepsShape_writeStored i j x
  | exchangeRows a b => exact Edit.keepsShape_exchangeRows a b

/-- A vector stays one column. -/
theorem ColumnVector.WellFormed.edit {v : ColumnVector α} (hv : v.WellFormed)
    {change : Edit α Unit} (h : change.KeepsShape) : (v.edit change).2.WellFormed := by
  have hshape := h.perform v.column
  have hcols : (change.perform v.column).2.ncols = v.column.ncols := congrArg Shape.cols hshape.1
  exact ⟨hcols.trans hv.1, hshape.wellFormed hv.2⟩

/-! ### Runs -/

section Runs

variable [Scalar α] {w : Workspace α}

/-- One operation leaves everything at hand well formed, whether it succeeds or fails. -/
theorem Operation.wellFormed_perform (hw : w.WellFormed) (operation : Operation α) :
    (operation.perform w).2.WellFormed := by
  cases operation with
  | makeMatrix recipe => exact hw.attempt (recipe.ends_make hw) fun m hm => hw.pushMatrix hm
  | makeVector recipe => exact hw.attempt (recipe.ends_make hw) fun v hv => hw.pushVector hv
  | changeMatrix k change =>
      refine hw.attempt (hw.matrix k) fun m hm => hw.attempt change.ends_edit fun edit hedit => ?_
      exact hw.setMatrix k ((hedit.perform m).wellFormed hm)
  | changeVector k change =>
      refine hw.attempt (hw.vector k) fun v hv => ?_
      exact hw.setVector k (hv.edit change.keepsShape_edit)

/-- So does every sequence of operations. -/
theorem Workspace.WellFormed.run (hw : w.WellFormed) (operations : List (Operation α)) :
    (w.run operations).WellFormed := by
  induction operations generalizing w with
  | nil => exact hw
  | cons operation operations ih => exact ih (operation.wellFormed_perform hw)

/-- **Storage.** After any operations, of which any may have failed, every matrix has one stored
element for every entry of its shape and every vector is one such column. So all ways to read an
entry read one element, distinct entries have distinct cells, and a write of one changes no
other. -/
theorem run_wellFormed_addressed (operations : List (Operation α)) :
    (∀ m ∈ (Workspace.empty.run operations).matrices, m.WellFormed ∧ m.Addressed) ∧
      ∀ v ∈ (Workspace.empty.run operations).vectors, v.WellFormed ∧ v.Addressed := by
  have hrun : (Workspace.empty.run operations).WellFormed :=
    Workspace.WellFormed.empty.run operations
  refine ⟨fun m hm => ?_, fun v hv => ?_⟩
  · have wf := hrun.matrices m hm
    exact ⟨wf, wf.addressed⟩
  · have wf := hrun.vectors v hv
    exact ⟨wf, wf.addressed⟩

end Runs

/-- An exchange of columns that fails part way, and a row read afterwards. -/
theorem run_wellFormed_addressed_failing :
    let operations : List (Operation (BoundedInt 64)) :=
      [.makeMatrix (.ofArray .copied 2 2 #[⟨1⟩, ⟨2⟩, ⟨3⟩, ⟨4⟩]), .changeMatrix 0 (.swapCols 0 2),
        .makeVector (.row 0 0)]
    let m : DenseMatrix (BoundedInt 64) := ⟨2, 2, #[⟨3⟩, ⟨2⟩, ⟨1⟩, ⟨4⟩]⟩
    let v : ColumnVector (BoundedInt 64) := ⟨2, 1, #[⟨3⟩, ⟨2⟩]⟩
    (Workspace.empty.run operations).matrices = #[m] ∧ (m.WellFormed ∧ m.Addressed) ∧
      (Workspace.empty.run operations).vectors = #[v] ∧ (v.WellFormed ∧ v.Addressed) := by
  intro operations m v
  obtain ⟨hmatrices, hvectors⟩ := run_wellFormed_addressed operations
  have hm : (Workspace.empty.run operations).matrices = #[m] := rfl
  have hv : (Workspace.empty.run operations).vectors = #[v] := rfl
  exact ⟨hm, hmatrices m (hm ▸ Array.mem_singleton.2 rfl), hv,
    hvectors v (hv ▸ Array.mem_singleton.2 rfl)⟩

end DenseFactor
