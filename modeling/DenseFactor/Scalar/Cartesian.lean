import DenseFactor.Scalar.Basic

/-!
# DenseFactor.Scalar.Cartesian

Complex numbers as pairs of a real and an imaginary part.

Products and quotients are formed by the schoolbook formulas over the real
type, in the order written here, so rounded parts are reproducible. The modulus
is the rounded length of the pair, not the root of a rounded sum of squares.
-/

namespace DenseFactor

/-- The complex number `re + im · i`. -/
structure Cartesian (ρ : Type) where
  re : ρ
  im : ρ

namespace Cartesian

variable {ρ : Type}

/-- A quotient multiplies by the conjugate of the divisor and divides both parts
by the squared modulus of the divisor. -/
instance [Arithmetic ρ] : Arithmetic (Cartesian ρ) where
  zero := ⟨0, 0⟩
  one := ⟨1, 0⟩
  add x y := ⟨x.re + y.re, x.im + y.im⟩
  sub x y := ⟨x.re - y.re, x.im - y.im⟩
  mul x y := ⟨x.re * y.re - x.im * y.im, x.re * y.im + x.im * y.re⟩
  div x y :=
    let norm := y.re * y.re + y.im * y.im
    ⟨(x.re * y.re + x.im * y.im) / norm, (x.im * y.re - x.re * y.im) / norm⟩
  beq x y := x.re == y.re && x.im == y.im

instance [RealScalar ρ] : EuclideanScalar (Cartesian ρ) ρ where
  modulus x := RealScalar.hypot x.re x.im
  conj x := ⟨x.re, -x.im⟩
  re x := x.re
  ofReal x := ⟨x, 0⟩

instance [RealScalar ρ] : FieldScalar (Cartesian ρ) where
  magnitude x := RealScalar.toFloat (RealScalar.hypot x.re x.im)

end Cartesian

end DenseFactor
