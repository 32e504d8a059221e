import Mathlib
import DenseFactor.Matrix.Product
import DenseFactor.Proofs.Outcome
import DenseFactor.Scalar.Binary
import DenseFactor.Scalar.Cartesian
import DenseFactor.Scalar.Ratio

/-!
# DenseFactor.Proofs.Scalar.Unit

Zero and one of an element type are told apart, and a sum with **one product of one** is
exact. In rounded arithmetic this holds bit for bit, with a zero of positive sign.
-/

namespace DenseFactor

open DenseMatrix (addProduct)

/-- What matrices of zeros and ones need of their elements. -/
class UnitScalar (α : Type) [Scalar α] : Prop where
  isZero_zero : Scalar.isZero (Scalar.zero : α) = true
  isZero_one : Scalar.isZero (Scalar.one : α) = false
  ends_addProduct_one :
    Ends Never (· = (Scalar.one : α)) (addProduct Scalar.zero Scalar.one Scalar.one)
  ends_addProduct_zero :
    Ends Never (· = (Scalar.zero : α)) (addProduct Scalar.zero Scalar.one Scalar.zero)

instance : UnitScalar Float where
  isZero_zero := by decide +kernel
  isZero_one := by decide +kernel
  ends_addProduct_one := rfl
  ends_addProduct_zero := rfl

instance : UnitScalar Float32 where
  isZero_zero := by decide +kernel
  isZero_one := by decide +kernel
  ends_addProduct_one := rfl
  ends_addProduct_zero := rfl

instance : UnitScalar (Cartesian Float) where
  isZero_zero := by decide +kernel
  isZero_one := by decide +kernel
  ends_addProduct_one := rfl
  ends_addProduct_zero := rfl

instance : UnitScalar (Cartesian Float32) where
  isZero_zero := by decide +kernel
  isZero_one := by decide +kernel
  ends_addProduct_one := rfl
  ends_addProduct_zero := rfl

instance : UnitScalar (Ratio 32) where
  isZero_zero := by decide +kernel
  isZero_one := by decide +kernel
  ends_addProduct_one := by decide +kernel
  ends_addProduct_zero := by decide +kernel

instance : UnitScalar (Ratio 64) where
  isZero_zero := by decide +kernel
  isZero_one := by decide +kernel
  ends_addProduct_one := by decide +kernel
  ends_addProduct_zero := by decide +kernel

end DenseFactor
