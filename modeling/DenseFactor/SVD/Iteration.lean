import DenseFactor.SVD.Bidiagonal
import DenseFactor.Matrix.Edit

/-!
# DenseFactor.SVD.Iteration

Implicit-shift QR iteration on an upper bidiagonal matrix, down to a diagonal one.

Design points:

* An entry beside the diagonal is **negligible** against its two neighbours on it.
  Negligible entries are set to zero; they split the matrix into blocks.
* Each pass works on the last block that is not diagonal yet, from `lo` to `hi`. A
  negligible diagonal entry is set to zero and the entry beside it chased out of
  the block; otherwise one sweep of rotations with a shift reduces the last entry
  beside the diagonal.
* The shift is computed on entries divided by the largest of the block, so their
  squares neither overflow nor underflow. Only a ratio of them matters.
* Either the block shrinks or a pass is counted, and the passes are limited: that
  is why the iteration ends.
* At the end the diagonal is made non-negative and sorted, largest first.
-/

namespace DenseFactor.SVD.Bidiagonal

variable {ρ : Type} [RealScalar ρ]

/-! ### Deflation -/

/-- Whether the entry beside the diagonal in row `i` is negligible. -/
def isNegligible (b : Bidiagonal ρ) (i : Nat) : Except Failure Bool := do
  let beside ← Storage.read b.offDiag i
  let before ← Storage.read b.diag i
  let after ← Storage.read b.diag (i + 1)
  return decide (RealScalar.abs beside ≤
    RealScalar.epsilon * (RealScalar.abs before + RealScalar.abs after))

/-- Sets the entry beside the diagonal in row `i` to zero. -/
def split (b : Bidiagonal ρ) (i : Nat) : Except Failure (Bidiagonal ρ) := do
  let beside ← Storage.read b.offDiag i
  return { b with
    offDiag := ← Storage.write b.offDiag i 0
    discarded := b.discarded + RealScalar.abs beside }

/-- The first row of the block that ends in the row after `lo`, together with the
matrix after the entry that separates the block was set to zero. -/
def blockStart (b : Bidiagonal ρ) : Nat → Except Failure (Bidiagonal ρ × Nat)
  | 0 => .ok (b, 0)
  | lo + 1 => do
    if ← b.isNegligible lo then
      return (← b.split lo, lo + 1)
    b.blockStart lo

/-! ### Zeros on the diagonal -/

/-- A chase: the matrix, and the entry that is being moved out of row `row`. -/
structure Chase (ρ : Type) where
  form : Bidiagonal ρ
  moved : ρ

/-- Rotates the moved entry past column `j` of a block that ends at `hi`. -/
def Chase.step (row hi : Nat) (s : Chase ρ) (j : Nat) : Except Failure (Chase ρ) := do
  let b := s.form
  let d ← Storage.read b.diag j
  let g := Rotation.ofPair d s.moved
  let diag ← Storage.write b.diag j (g.first d s.moved)
  let u ← g.columns b.u j row
  if j < hi then
    let e ← Storage.read b.offDiag j
    let offDiag ← Storage.write b.offDiag j (g.cos * e)
    return { form := { b with diag, offDiag, u }, moved := -g.sin * e }
  else
    return { s with form := { b with diag, u } }

/-- Sets the diagonal entry of a row to zero and moves the entry beside it out of
the block. -/
def chase (b : Bidiagonal ρ) (row hi : Nat) : Except Failure (Bidiagonal ρ) := do
  let d ← Storage.read b.diag row
  let moved ← Storage.read b.offDiag row
  let form := { b with
    diag := ← Storage.write b.diag row 0
    offDiag := ← Storage.write b.offDiag row 0
    discarded := b.discarded + RealScalar.abs d }
  let s ← (positions (row + 1) (hi + 1)).foldlM (Chase.step row hi) { form, moved }
  return s.form

/-! ### Sweeps -/

/-- The entries of a block that determine the shift. -/
structure Corner (ρ : Type) where
  /-- The last diagonal entry. -/
  last : ρ
  /-- The one before it. -/
  previous : ρ
  /-- The entry beside the diagonal in the row before the last. -/
  besideLast : ρ
  /-- The one above it, zero in a block of two rows. -/
  besidePrevious : ρ
  /-- The first diagonal entry. -/
  first : ρ
  /-- The entry beside it. -/
  besideFirst : ρ

/-- The entries that determine the shift of the block from `lo` to `hi`. -/
def corner (b : Bidiagonal ρ) (lo hi : Nat) : Except Failure (Corner ρ) := do
  return {
    last := ← Storage.read b.diag hi
    previous := ← Storage.read b.diag (hi - 1)
    besideLast := ← Storage.read b.offDiag (hi - 1)
    besidePrevious := ← if lo + 2 ≤ hi then Storage.read b.offDiag (hi - 2) else pure 0
    first := ← Storage.read b.diag lo
    besideFirst := ← Storage.read b.offDiag lo }

namespace Corner

/-- The largest absolute value of the entries. -/
def size (c : Corner ρ) : ρ :=
  RealScalar.largest
    ([c.last, c.previous, c.besideLast, c.besidePrevious, c.first, c.besideFirst].map
      RealScalar.abs)

/-- The entries divided by a number. -/
def dividedBy (c : Corner ρ) (size : ρ) : Corner ρ where
  last := c.last / size
  previous := c.previous / size
  besideLast := c.besideLast / size
  besidePrevious := c.besidePrevious / size
  first := c.first / size
  besideFirst := c.besideFirst / size

/-- The divisor of the shift: half the difference of the diagonal of the trailing
2 x 2 block of `BᵀB`, moved away from zero. -/
def shiftDivisor (halfDifference offDiagonal : ρ) : ρ :=
  let sign := if (0 : ρ) ≤ halfDifference then 1 else -1
  halfDifference + sign *
    RealScalar.sqrt (halfDifference * halfDifference + offDiagonal * offDiagonal)

/-- The eigenvalue of the trailing 2 x 2 block of `BᵀB` that is nearer to its last
diagonal entry. -/
def shift (c : Corner ρ) : ρ :=
  let t₁₁ := c.previous * c.previous + c.besidePrevious * c.besidePrevious
  let t₁₂ := c.previous * c.besideLast
  let t₂₂ := c.last * c.last + c.besideLast * c.besideLast
  let halfDifference := (t₁₁ - t₂₂) / (1 + 1)
  t₂₂ - t₁₂ * t₁₂ / shiftDivisor halfDifference t₁₂

end Corner

/-- A sweep: the matrix, and the two coordinates that the next rotation of columns
is made from. -/
structure Sweep (ρ : Type) where
  form : Bidiagonal ρ
  x : ρ
  z : ρ

/-- Rotates columns `k` and `k + 1`, which puts an entry below the diagonal, and
then rows `k` and `k + 1`, which removes it. The entry it makes above the form in
turn is the `z` of the next step. -/
def Sweep.step (lo hi : Nat) (s : Sweep ρ) (k : Nat) : Except Failure (Sweep ρ) := do
  let b := s.form
  let right := Rotation.ofPair s.x s.z
  let offDiag ← if lo < k then Storage.write b.offDiag (k - 1) (right.first s.x s.z)
    else pure b.offDiag
  let d ← Storage.read b.diag k
  let e ← Storage.read offDiag k
  let next ← Storage.read b.diag (k + 1)
  let d' := right.first d e
  let e' := right.second d e
  let bulge := right.sin * next
  let next' := right.cos * next
  let v ← right.columns b.v k (k + 1)
  let left := Rotation.ofPair d' bulge
  let diag ← Storage.write b.diag k (left.first d' bulge)
  let offDiag ← Storage.write offDiag k (left.first e' next')
  let diag ← Storage.write diag (k + 1) (left.second e' next')
  let u ← left.columns b.u k (k + 1)
  if k + 1 < hi then
    let beside ← Storage.read offDiag (k + 1)
    let x ← Storage.read offDiag k
    let offDiag ← Storage.write offDiag (k + 1) (left.cos * beside)
    return { form := { b with diag, offDiag, u, v }, x, z := left.sin * beside }
  else
    return { s with form := { b with diag, offDiag, u, v } }

/-- One sweep over the block from `lo` to `hi`. -/
def sweep (b : Bidiagonal ρ) (lo hi : Nat) : Except Failure (Bidiagonal ρ) := do
  let entries ← b.corner lo hi
  let c := entries.dividedBy entries.size
  let s ← (positions lo hi).foldlM (Sweep.step lo hi)
    { form := b, x := c.first * c.first - c.shift, z := c.first * c.besideFirst }
  return s.form

/-! ### Iteration -/

/-- One pass over the block from `lo` to `hi`. A diagonal entry of at most `small`
before the last counts as zero. -/
def pass (b : Bidiagonal ρ) (small : ρ) (lo hi : Nat) :
    Except Failure (Bidiagonal ρ) := do
  let zero ← (positions lo hi).findM? fun i => do
    return decide (RealScalar.abs (← Storage.read b.diag i) ≤ small)
  match zero with
  | some row => b.chase row hi
  | none => b.sweep lo hi

/-- Iterates on rows `0` to `hi` with a budget of passes. -/
def iterate (small : ρ) (b : Bidiagonal ρ) (budget : Nat) (hi : Nat) :
    Except Failure (Bidiagonal ρ) := do
  match hi with
  | 0 => return b
  | last + 1 =>
    if ← b.isNegligible last then
      iterate small (← b.split last) budget last
    else
      let (b, lo) ← b.blockStart last
      match budget with
      | 0 => throw .noConvergence
      | budget + 1 => iterate small (← b.pass small lo (last + 1)) budget (last + 1)
termination_by (budget, hi)

/-- The largest absolute value of an entry. -/
def scale (b : Bidiagonal ρ) : ρ :=
  RealScalar.largest ((b.diag.toList ++ b.offDiag.toList).map RealScalar.abs)

/-! ### Order and signs -/

/-- Makes a diagonal entry non-negative by negating its column of `U`. -/
def makeNonNegative (b : Bidiagonal ρ) (i : Nat) : Except Failure (Bidiagonal ρ) := do
  let d ← Storage.read b.diag i
  if d < 0 then
    return { b with
      diag := ← Storage.write b.diag i (-d)
      u := ← b.u.mapEntries fun _ j x => .ok (if j = i then -x else x) }
  else
    return b

/-- Moves the first largest diagonal entry from position `i` on into place, with its
columns of `U` and `V`. -/
def selectLargest (b : Bidiagonal ρ) (i : Nat) : Except Failure (Bidiagonal ρ) := do
  let best ← foldPositions (i + 1) b.diag.size i fun best j => do
    return if (← Storage.read b.diag best) < (← Storage.read b.diag j) then j else best
  if best = i then
    return b
  return { b with
    diag := ← Storage.exchange b.diag i best
    u := ← (Edit.swapCols i best).apply b.u
    v := ← (Edit.swapCols i best).apply b.v }

/-- The diagonal form: singular values on the diagonal, largest first. -/
def diagonalize (b : Bidiagonal ρ) (budget : Nat) : Except Failure (Bidiagonal ρ) := do
  let b ← b.iterate (RealScalar.epsilon * b.scale) budget (b.diag.size - 1)
  let rows := positions 0 b.diag.size
  let b ← rows.foldlM makeNonNegative b
  rows.foldlM selectLargest b

end DenseFactor.SVD.Bidiagonal
