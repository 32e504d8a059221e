import DenseFactor.Scalar.Basic
import DenseFactor.Scalar.Rounding

/-!
# DenseFactor.Scalar.Binary

The two binary floating-point formats, binary64 (`Float`) and binary32
(`Float32`), as real scalars.

Arithmetic and square root are those of the formats, each rounded once. A
binary64 constant enters binary32 by rounding to nearest, and a binary32 number
leaves for binary64 unchanged.
-/

namespace DenseFactor

instance : Arithmetic Float where
  zero := 0
  one := 1

instance : RealScalar Float where
  decidableLT := inferInstance
  decidableLE := inferInstance
  abs := Float.abs
  sqrt := Float.sqrt
  log x := .ofModel (.pack (Rounding.logarithm .binary64 x.toModel.unpack))
  hypot x y :=
    .ofModel (.pack (Rounding.hypotenuse .binary64 x.toModel.unpack y.toModel.unpack))
  isNaN := Float.isNaN
  isFinite := Float.isFinite
  nan := 0 / 0
  epsilon := Float.ofBits 0x3cb0000000000000
  minPositive := Float.ofBits 0x0010000000000000
  ofFloat x := x
  toFloat x := x

instance : Arithmetic Float32 where
  zero := 0
  one := 1

instance : RealScalar Float32 where
  decidableLT := inferInstance
  decidableLE := inferInstance
  abs := Float32.abs
  sqrt := Float32.sqrt
  log x := .ofModel (.pack (Rounding.logarithm .binary32 x.toModel.unpack))
  hypot x y :=
    .ofModel (.pack (Rounding.hypotenuse .binary32 x.toModel.unpack y.toModel.unpack))
  isNaN := Float32.isNaN
  isFinite := Float32.isFinite
  nan := 0 / 0
  epsilon := Float32.ofBits 0x34000000
  minPositive := Float32.ofBits 0x00800000
  ofFloat := Rounding.narrow
  toFloat := Rounding.widen

end DenseFactor
