import DenseFactor.Matrix.View
import DenseFactor.Storage

/-!
# DenseFactor.Matrix.Basic

Dense matrices of any shape, stored **row by row** in one array.

Design points:

* The shape and the stored elements are separate fields. `WellFormed` says that
  they fit together. It is a predicate beside the type, so that an operation is
  defined without it and keeping it is a statement about the operation.
* There are two ways to address an entry. `entry` checks row and column against
  the shape. `storedAt` computes the flat position and checks that alone, so a
  column past the shape can reach an entry of a later row.
* Sizes and flat positions are natural numbers, here and in every edit. Products and
  sums of them are taken not to overflow a machine word; with overflow checks one that
  does would be a panic before anything is stored, not a position of its own.
* `tabulate` builds a matrix from its entries in row order; `mapEntries` derives one
  from another of the same shape. The algorithms are sequences of such passes,
  each of which states its entries by a formula.
-/

namespace DenseFactor

/-- A matrix with its elements in row order. -/
structure DenseMatrix (α : Type) where
  nrows : Nat
  ncols : Nat
  data : Array α

namespace DenseMatrix

variable {α β : Type}

/-- There is one stored element for every entry of the shape. -/
def WellFormed (m : DenseMatrix α) : Prop := m.data.size = m.nrows * m.ncols

/-- The number of rows and columns. -/
def shape (m : DenseMatrix α) : Shape := ⟨m.nrows, m.ncols⟩

/-- Whether there are as many rows as columns. -/
def isSquare (m : DenseMatrix α) : Bool := m.nrows == m.ncols

/-! ### Reading -/

/-- The element stored at the flat position of an entry. -/
def storedAt (m : DenseMatrix α) (i j : Nat) : Except Failure α :=
  Storage.read m.data (i * m.ncols + j)

/-- Row and column lie in the shape. -/
def checkEntry (m : DenseMatrix α) (i j : Nat) : Except Failure Unit :=
  if i < m.nrows ∧ j < m.ncols then .ok ()
  else .error (.misuse (.noEntry i j m.shape))

/-- The entry at a row and a column of the shape. -/
def entry (m : DenseMatrix α) (i j : Nat) : Except Failure α := do
  m.checkEntry i j
  m.storedAt i j

/-- The stored elements of row `i`. -/
def rowSlice (m : DenseMatrix α) (i : Nat) : Except Failure (Array α) :=
  if (i + 1) * m.ncols ≤ m.data.size then
    .ok (m.data.extract (i * m.ncols) ((i + 1) * m.ncols))
  else .error .outOfBounds

/-- The matrix as something readable. -/
def view (m : DenseMatrix α) : MatrixView α where
  nrows := m.nrows
  ncols := m.ncols
  entry := m.storedAt

/-! ### Building -/

/-- The matrix with the given entries, computed in row order. -/
def tabulate (nrows ncols : Nat) (entry : Nat → Nat → Except Failure α) :
    Except Failure (DenseMatrix α) := do
  let data ← Storage.collect (nrows * ncols) fun k => entry (k / ncols) (k % ncols)
  return ⟨nrows, ncols, data⟩

/-- The matrix of the same shape whose entries are computed from position and old
entry. -/
def mapEntries (m : DenseMatrix α) (f : Nat → Nat → α → Except Failure β) :
    Except Failure (DenseMatrix β) :=
  tabulate m.nrows m.ncols fun i j => do f i j (← m.entry i j)

/-- A dense copy of anything readable. -/
def ofView (v : MatrixView α) : Except Failure (DenseMatrix α) :=
  tabulate v.nrows v.ncols v.entry

/-- The matrix with the given elements in row order. -/
def ofArray (buffer : Buffer) (nrows ncols : Nat) (data : Array α) :
    Except Failure (DenseMatrix α) :=
  if data.size = nrows * ncols then .ok ⟨nrows, ncols, data⟩
  else .error (.misuse (.bufferLength buffer data.size ⟨nrows, ncols⟩))

/-- The matrix with the given rows, of which there is at least one; they are of
one length and not empty. -/
def ofRows (rows : List (List α)) : Except Failure (DenseMatrix α) :=
  match rows with
  | [] => .error (.malformed .noRows)
  | first :: _ =>
    if first.length = 0 then .error (.malformed .noColumns)
    else if rows.all fun row => row.length == first.length then
      .ok ⟨rows.length, first.length, rows.flatten.toArray⟩
    else .error (.malformed .ragged)

/-! ### Laws -/

/-- The flat position of an entry of the shape. -/
theorem position_lt {nrows ncols i j : Nat} (hi : i < nrows) (hj : j < ncols) :
    i * ncols + j < nrows * ncols :=
  calc
    i * ncols + j < i * ncols + ncols := Nat.add_lt_add_left hj _
    _ = (i + 1) * ncols := (Nat.succ_mul i ncols).symm
    _ ≤ nrows * ncols := Nat.mul_le_mul_right ncols hi

/-- Distinct entries of the shape have distinct positions. -/
theorem position_inj {ncols i j i' j' : Nat} (hj : j < ncols) (hj' : j' < ncols)
    (h : i * ncols + j = i' * ncols + j') : i = i' ∧ j = j' := by
  have hpos : 0 < ncols := Nat.lt_of_le_of_lt (Nat.zero_le j) hj
  have hi : i = i' := by
    have := congrArg (· / ncols) h
    simpa [Nat.mul_comm _ ncols, Nat.mul_add_div hpos, Nat.div_eq_of_lt hj,
      Nat.div_eq_of_lt hj'] using this
  exact ⟨hi, by subst hi; omega⟩

/-- Inside the shape the two ways to address an entry agree. -/
@[simp]
theorem entry_eq_storedAt {m : DenseMatrix α} {i j : Nat} (hi : i < m.nrows)
    (hj : j < m.ncols) : m.entry i j = m.storedAt i j := by
  simp [entry, checkEntry, hi, hj, bind, Except.bind]

/-- The element at a flat position inside the storage. -/
theorem storedAt_of_lt {m : DenseMatrix α} {i j : Nat}
    (h : i * m.ncols + j < m.data.size) :
    m.storedAt i j = .ok m.data[i * m.ncols + j] :=
  Storage.read_of_lt h

/-- A well-formed matrix has an element for every entry of the shape. -/
theorem WellFormed.position_lt_size {m : DenseMatrix α} (wf : m.WellFormed) {i j : Nat}
    (hi : i < m.nrows) (hj : j < m.ncols) : i * m.ncols + j < m.data.size := by
  rw [wf]
  exact position_lt hi hj

/-- Every entry of the shape can be read. -/
theorem WellFormed.exists_entry {m : DenseMatrix α} (wf : m.WellFormed) {i j : Nat}
    (hi : i < m.nrows) (hj : j < m.ncols) : ∃ x, m.entry i j = .ok x :=
  ⟨_, (entry_eq_storedAt hi hj).trans (storedAt_of_lt (wf.position_lt_size hi hj))⟩

/-- A well-formed matrix is a readable view. -/
theorem WellFormed.view_readable {m : DenseMatrix α} (wf : m.WellFormed) :
    m.view.Readable :=
  fun _ hi _ hj => ⟨_, storedAt_of_lt (wf.position_lt_size hi hj)⟩

/-- A matrix is tabulated iff every entry can be computed, and then has these
entries. -/
theorem tabulate_eq_ok_iff {nrows ncols : Nat} {f : Nat → Nat → Except Failure α}
    {m : DenseMatrix α} :
    tabulate nrows ncols f = .ok m ↔
      m.nrows = nrows ∧ m.ncols = ncols ∧ m.WellFormed ∧
        ∀ i < nrows, ∀ j < ncols, f i j = m.entry i j := by
  constructor
  · intro h
    cases hc : Storage.collect (nrows * ncols) fun k => f (k / ncols) (k % ncols) with
    | error e => simp [tabulate, hc, bind, Except.bind] at h
    | ok data =>
      simp only [tabulate, hc, bind, Except.bind, pure, Except.pure, Except.ok.injEq] at h
      subst h
      obtain ⟨hsize, hentry⟩ := Storage.collect_eq_ok_iff.1 hc
      refine ⟨rfl, rfl, hsize, fun i hi j hj => ?_⟩
      have hpos : 0 < ncols := Nat.lt_of_le_of_lt (Nat.zero_le j) hj
      have hlt : i * ncols + j < data.size := hsize ▸ position_lt hi hj
      rw [entry_eq_storedAt hi hj, storedAt_of_lt hlt, ← hentry _ hlt]
      congr 1
      · rw [Nat.mul_comm, Nat.mul_add_div hpos, Nat.div_eq_of_lt hj, Nat.add_zero]
      · rw [Nat.mul_comm, Nat.mul_add_mod, Nat.mod_eq_of_lt hj]
  · rintro ⟨rfl, rfl, wf, hentry⟩
    have hc : Storage.collect (m.nrows * m.ncols)
        (fun k => f (k / m.ncols) (k % m.ncols)) = .ok m.data := by
      refine Storage.collect_eq_ok_iff.2 ⟨wf, fun k hk => ?_⟩
      have hk' : k < m.nrows * m.ncols := wf ▸ hk
      have hpos : 0 < m.ncols := Nat.pos_of_ne_zero fun h => by simp [h] at hk'
      have hi : k / m.ncols < m.nrows := (Nat.div_lt_iff_lt_mul hpos).2 hk'
      have hj : k % m.ncols < m.ncols := Nat.mod_lt _ hpos
      have hk'' : k / m.ncols * m.ncols + k % m.ncols = k := by
        rw [Nat.mul_comm]
        exact Nat.div_add_mod k m.ncols
      rw [hentry _ hi _ hj, entry_eq_storedAt hi hj,
        storedAt_of_lt (wf.position_lt_size hi hj)]
      simp only [hk'']
    simp only [tabulate, hc, bind, Except.bind, pure, Except.pure]

/-- A pass over the entries of a matrix keeps the shape and has the computed
entries. -/
theorem mapEntries_eq_ok_iff {m : DenseMatrix α} {f : Nat → Nat → α → Except Failure β}
    {n : DenseMatrix β} :
    m.mapEntries f = .ok n ↔
      n.nrows = m.nrows ∧ n.ncols = m.ncols ∧ n.WellFormed ∧
        ∀ i < m.nrows, ∀ j < m.ncols, (m.entry i j >>= f i j) = n.entry i j :=
  tabulate_eq_ok_iff

/-! ### Special matrices -/

variable [Scalar α]

/-- The matrix of zeros. -/
def zeros (nrows ncols : Nat) : DenseMatrix α :=
  ⟨nrows, ncols, Array.replicate (nrows * ncols) Scalar.zero⟩

/-- The square matrix with the given diagonal and zeros beside it. -/
def diagonal (entries : Array α) : Except Failure (DenseMatrix α) :=
  tabulate entries.size entries.size fun i j =>
    if i = j then Storage.read entries i else .ok Scalar.zero

/-- The identity matrix. -/
def identity (n : Nat) : Except Failure (DenseMatrix α) :=
  tabulate n n fun i j => .ok (if i = j then Scalar.one else Scalar.zero)

/-! ### Comparing -/

/-- Same shape and equal elements, as the element type compares them. -/
def beq (m n : DenseMatrix α) : Bool :=
  m.nrows == n.nrows && m.ncols == n.ncols && m.data.size == n.data.size &&
    (m.data.zip n.data).all fun (x, y) => Scalar.beq x y

end DenseMatrix

end DenseFactor
