import DenseFactor.Scalar.Bounded
import DenseFactor.Scalar.Rounding

/-!
# DenseFactor.Scalar.Ratio

Ratios of integers of a fixed width: **exact arithmetic that overflows**.

Design points:

* The value is an exact rational number, always in lowest terms, and the result
  of an operation is the exact one. What the width decides is only whether the
  operation succeeds.
* An operation succeeds iff every integer it passes through fits. Products and
  quotients first divide out common factors crosswise, sums go over the least
  common denominator, and each of these integers is checked.
* A ratio carries the bounds of its width: no larger numerator or denominator can
  be stored.
* The magnitude divides the rounded numerator by the rounded denominator.
-/

namespace DenseFactor

/-- The largest modulus of an integer of the given width. -/
def widthBound (bits : Nat) : Nat := Nat.pow 2 (bits - 1)

/-- A rational number over integers of the given width. -/
structure Ratio (bits : Nat) where
  value : Rat
  num_le : value.num.natAbs ≤ widthBound bits
  den_le : value.den ≤ widthBound bits
  deriving DecidableEq

namespace Ratio

open BoundedInt (checked)

variable {bits : Nat}

/-- The greatest common divisor, which may not fit if both arguments are the
least integer or zero. -/
def commonFactor (bits : Nat) (x y : Int) : Except Failure Int :=
  checked bits (Int.gcd x y)

/-- Whether `numerator / denominator` can be brought to lowest terms with a
positive denominator. Moving the sign negates both, which fails on the least
integer. -/
def checkReduced (bits : Nat) (numerator denominator : Int) :
    Except Failure Unit := do
  if denominator = 0 then
    throw .divisionByZero
  if numerator = 0 ∨ numerator = denominator then
    return
  let g ← commonFactor bits numerator denominator
  if denominator < 0 then
    let _ ← checked bits (-(numerator.tdiv g))
    let _ ← checked bits (-(denominator.tdiv g))

/-- The ratio with an exact value, stored if it fits. -/
def ofRat (bits : Nat) (x : Rat) : Except Failure (Ratio bits) :=
  if h : x.num.natAbs ≤ widthBound bits ∧ x.den ≤ widthBound bits then
    .ok ⟨x, h.1, h.2⟩
  else .error .overflow

/-- The ratio of two integers. -/
def ofPair (bits : Nat) (numerator denominator : Int) :
    Except Failure (Ratio bits) := do
  checkReduced bits numerator denominator
  ofRat bits (Rat.divInt numerator denominator)

/-- The ratio of an integer of modulus at most one. -/
def ofUnit (bits : Nat) (n : Int) (h : n.natAbs ≤ 1) : Ratio bits where
  value := n
  num_le := Nat.le_trans h Nat.one_le_two_pow
  den_le := Nat.one_le_two_pow

/-- Whether the sum or difference of two ratios can be formed, `combine` being
that of integers: over the common denominator if it is one already, else over
the least common multiple. -/
def checkCombined (bits : Nat) (combine : Int → Int → Int) (x y : Rat) :
    Except Failure Unit := do
  if x.den = y.den then
    let numerator ← checked bits (combine x.num y.num)
    checkReduced bits numerator x.den
  else
    let g ← commonFactor bits x.den y.den
    let multiple ← checked bits (x.den * (y.den : Int).tdiv g)
    let left ← checked bits (x.num * multiple.tdiv x.den)
    let right ← checked bits (y.num * multiple.tdiv y.den)
    let numerator ← checked bits (combine left right)
    checkReduced bits numerator multiple

/-- Whether a product can be formed after dividing out common factors
crosswise. -/
def checkProduct (bits : Nat) (x y : Rat) : Except Failure Unit := do
  let g ← commonFactor bits x.num y.den
  let h ← commonFactor bits x.den y.num
  let numerator ← checked bits (x.num.tdiv g * y.num.tdiv h)
  let denominator ← checked bits ((x.den : Int).tdiv h * (y.den : Int).tdiv g)
  checkReduced bits numerator denominator

/-- Whether a quotient can be formed after dividing out common factors of the
numerators and of the denominators. -/
def checkQuotient (bits : Nat) (x y : Rat) : Except Failure Unit := do
  let g ← commonFactor bits x.num y.num
  let h ← commonFactor bits x.den y.den
  if g = 0 then
    throw .divisionByZero
  let numerator ← checked bits (x.num.tdiv g * (y.den : Int).tdiv h)
  let denominator ← checked bits ((x.den : Int).tdiv h * y.num.tdiv g)
  checkReduced bits numerator denominator

instance : FieldScalar (Ratio bits) where
  zero := ofUnit bits 0 (by decide)
  one := ofUnit bits 1 (by decide)
  beq x y := x.value == y.value
  add x y := do
    checkCombined bits (· + ·) x.value y.value
    ofRat bits (x.value + y.value)
  sub x y := do
    checkCombined bits (· - ·) x.value y.value
    ofRat bits (x.value - y.value)
  mul x y := do
    checkProduct bits x.value y.value
    ofRat bits (x.value * y.value)
  div x y := do
    checkQuotient bits x.value y.value
    ofRat bits (x.value / y.value)
  magnitude x := (Rounding.ofInteger x.value.num / Rounding.ofInteger x.value.den).abs

end Ratio

end DenseFactor
