import DenseFactor.Failure

/-!
# DenseFactor.Scalar.Basic

What the library needs of an element type, as four classes of growing demand.

Design points:

* `Scalar` is enough for matrix products and for elimination. Its operations
  may fail, so integers of bounded width and ratios of them are scalars.
* `Arithmetic` is total arithmetic: rounded numbers and exact fields. Every such
  type is a scalar whose operations never fail.
* `RealScalar` adds order, roots and the constants of a floating-point format;
  `EuclideanScalar` adds modulus and conjugation over a real type, which is what
  reflections need.
* `FieldScalar` ranks pivot candidates by a magnitude that decides nothing else.
* No class states a law. Rounded arithmetic has few, and an algorithm that stays
  within its matrix must do so whatever its comparisons answer.
-/

namespace DenseFactor

/-- Elements with partial arithmetic. -/
class Scalar (α : Type) where
  zero : α
  one : α
  /-- The equality the algorithms test with; it need not be reflexive. -/
  beq : α → α → Bool
  add : α → α → Except Failure α
  sub : α → α → Except Failure α
  mul : α → α → Except Failure α
  div : α → α → Except Failure α

/-- Whether an element equals zero. -/
def Scalar.isZero {α : Type} [Scalar α] (x : α) : Bool := Scalar.beq x Scalar.zero

/-- Elements with total arithmetic. -/
class Arithmetic (α : Type) extends
  Zero α, One α, Add α, Sub α, Mul α, Div α, BEq α

/-- Total arithmetic never fails. -/
instance Arithmetic.toScalar {α : Type} [Arithmetic α] : Scalar α where
  zero := 0
  one := 1
  beq x y := x == y
  add x y := .ok (x + y)
  sub x y := .ok (x - y)
  mul x y := .ok (x * y)
  div x y := .ok (x / y)

/-- Real numbers as a floating-point format offers them. -/
class RealScalar (ρ : Type) extends Arithmetic ρ, Neg ρ, LT ρ, LE ρ where
  decidableLT : DecidableLT ρ
  decidableLE : DecidableLE ρ
  abs : ρ → ρ
  sqrt : ρ → ρ
  /-- The natural logarithm. -/
  log : ρ → ρ
  /-- The length of the vector with the two given coordinates. -/
  hypot : ρ → ρ → ρ
  isNaN : ρ → Bool
  isFinite : ρ → Bool
  nan : ρ
  /-- The distance from one to the next larger number. -/
  epsilon : ρ
  /-- The least positive number of full precision. -/
  minPositive : ρ
  /-- The nearest number to a binary64 one. -/
  ofFloat : Float → ρ
  /-- The nearest binary64 number. -/
  toFloat : ρ → Float

instance RealScalar.instDecidableLT {ρ : Type} [RealScalar ρ] : DecidableLT ρ :=
  RealScalar.decidableLT

instance RealScalar.instDecidableLE {ρ : Type} [RealScalar ρ] : DecidableLE ρ :=
  RealScalar.decidableLE

/-- The larger of two numbers; a number beside a NaN wins. -/
def RealScalar.maximum {ρ : Type} [RealScalar ρ] (x y : ρ) : ρ :=
  if isNaN x then y
  else if isNaN y then x
  else if x < y then y
  else x

/-- The largest of a run of numbers and zero. -/
def RealScalar.largest {ρ : Type} [RealScalar ρ] (xs : List ρ) : ρ :=
  xs.foldl maximum 0

/-- Elements with a modulus and a conjugate over a real type. -/
class EuclideanScalar (α : Type) (ρ : outParam Type) extends Arithmetic α where
  modulus : α → ρ
  conj : α → α
  re : α → ρ
  ofReal : ρ → α

/-- A real number is its own conjugate. -/
instance RealScalar.toEuclidean {ρ : Type} [RealScalar ρ] : EuclideanScalar ρ ρ where
  modulus := abs
  conj x := x
  re x := x
  ofReal x := x

/-- Elements whose size can be ranked. -/
class FieldScalar (α : Type) extends Scalar α where
  /-- A size that orders pivot candidates. -/
  magnitude : α → Float

instance RealScalar.toFieldScalar {ρ : Type} [RealScalar ρ] : FieldScalar ρ where
  magnitude x := toFloat (abs x)

end DenseFactor
