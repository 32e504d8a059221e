import DenseFactor.Matrix.Basic

/-!
# DenseFactor.SVD.Rotation

Plane rotations and normalised reflections, the two orthogonal steps of the
singular value decomposition.

Design points:

* A rotation is made from two coordinates so that it turns the second one to zero.
  The smaller coordinate is divided by the larger, so the quotient is at most one
  and its square cannot overflow.
* A reflection `I - factor · v · vᵀ` is normalised to a head of one, which is not
  stored. It is skipped where the squares of its entries sum to no more than the
  least positive number of full precision.
-/

namespace DenseFactor

variable {ρ : Type} [RealScalar ρ]

/-! ### Rotations -/

/-- A rotation of the plane by its cosine and sine. -/
structure Rotation (ρ : Type) where
  cos : ρ
  sin : ρ

namespace Rotation

/-- The rotation with `cos · a + sin · b = r` and `cos · b - sin · a = 0`. -/
def ofPair (a b : ρ) : Rotation ρ :=
  if b == 0 then ⟨1, 0⟩
  else if RealScalar.abs a < RealScalar.abs b then
    let t := a / b
    let sin := 1 / RealScalar.sqrt (1 + t * t)
    ⟨sin * t, sin⟩
  else
    let t := b / a
    let cos := 1 / RealScalar.sqrt (1 + t * t)
    ⟨cos, cos * t⟩

/-- The first coordinate after the rotation. -/
def first (g : Rotation ρ) (a b : ρ) : ρ := g.cos * a + g.sin * b

/-- The second coordinate after the rotation. -/
def second (g : Rotation ρ) (a b : ρ) : ρ := g.cos * b - g.sin * a

/-- Rotates columns `j` and `k` of a matrix into each other. -/
def columns (g : Rotation ρ) (m : DenseMatrix ρ) (j k : Nat) :
    Except Failure (DenseMatrix ρ) :=
  m.mapEntries fun row col x =>
    if col = j then do return g.first x (← m.entry row k)
    else if col = k then do return g.second (← m.entry row j) x
    else .ok x

end Rotation

/-! ### Reflections -/

/-- A reflection of the coordinates from `head` to `stop`, not including `stop`. -/
structure Reflection (ρ : Type) where
  head : Nat
  stop : Nat
  /-- The entries of the vector after the head, by coordinate; the head itself is
  one. -/
  tail : Array ρ
  factor : ρ
  /-- The coordinate `head` of the reflected vector; its others are zero. -/
  image : ρ

namespace Reflection

/-- The reflection that turns a vector into a multiple of coordinate `head`, unless
the vector is too short to be normalised. -/
def ofVector? (vector : Nat → Except Failure ρ) (head stop : Nat) :
    Except Failure (Option (Reflection ρ)) := do
  let squares ← foldPositions head stop (0 : ρ) fun sum i => do
    let x ← vector i
    return sum + x * x
  if RealScalar.minPositive < squares then
    let norm := RealScalar.sqrt squares
    let first ← vector head
    let signed := if first < 0 then -norm else norm
    let v := first + signed
    let tail ← Storage.collect stop fun i =>
      if head < i then do return (← vector i) / v else .ok 0
    return some { head, stop, tail, factor := v / signed, image := -signed }
  else
    return none

/-- Applies the reflection from the right to the rows from `start` on. -/
def rows (h : Reflection ρ) (m : DenseMatrix ρ) (start : Nat) :
    Except Failure (DenseMatrix ρ) := do
  let dots ← Storage.collect m.nrows fun i =>
    if start ≤ i then do
      let sum ← foldPositions (h.head + 1) h.stop (← m.entry i h.head) fun sum j => do
        return sum + (← m.entry i j) * (← Storage.read h.tail j)
      return sum * h.factor
    else .ok 0
  m.mapEntries fun i j x =>
    if start ≤ i ∧ j = h.head then do return x - (← Storage.read dots i)
    else if start ≤ i ∧ h.head < j ∧ j < h.stop then do
      return x - (← Storage.read dots i) * (← Storage.read h.tail j)
    else .ok x

/-- Applies the reflection from the left to the columns from `start` on. -/
def columns (h : Reflection ρ) (m : DenseMatrix ρ) (start : Nat) :
    Except Failure (DenseMatrix ρ) := do
  let dots ← Storage.collect m.ncols fun j =>
    if start ≤ j then do
      let sum ← foldPositions (h.head + 1) h.stop (← m.entry h.head j) fun sum i => do
        return sum + (← Storage.read h.tail i) * (← m.entry i j)
      return sum * h.factor
    else .ok 0
  m.mapEntries fun i j x =>
    if start ≤ j ∧ i = h.head then do return x - (← Storage.read dots j)
    else if start ≤ j ∧ h.head < i ∧ i < h.stop then do
      return x - (← Storage.read dots j) * (← Storage.read h.tail i)
    else .ok x

end Reflection

end DenseFactor
