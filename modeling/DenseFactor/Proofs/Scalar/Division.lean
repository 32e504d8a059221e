import Mathlib
import DenseFactor.Proofs.Scalar.Exact
import DenseFactor.Proofs.Scalar.Sign
import DenseFactor.Proofs.Scalar.Identity

/-!
# DenseFactor.Proofs.Scalar.Division

The element types with **another division**, and which elements count as zero.

Design points:

* That an algorithm never divides by some elements is said by running it with any other
  division that agrees on the rest: the outcome is the same. So nothing has to be added to the
  algorithm to record what it divides by.
* The division that does not fail on zero is one of these (`FailsBy.total`). What is known of
  types with total division then carries over to types that refuse to divide by zero.
-/

namespace DenseFactor

variable {α ρ : Type}

/-! ### Other divisions -/

/-- The same elements with another division. -/
@[reducible]
def Scalar.withDiv [Scalar α] (div : α → α → Except Failure α) : Scalar α :=
  { ‹Scalar α› with div := div }

/-- The same elements and magnitudes with another division. -/
@[reducible]
def FieldScalar.withDiv [FieldScalar α] (div : α → α → Except Failure α) : FieldScalar α :=
  { ‹FieldScalar α› with div := div }

/-- The same numbers with another division. -/
@[reducible]
def RealScalar.withDiv [RealScalar ρ] (div : ρ → ρ → ρ) : RealScalar ρ :=
  { ‹RealScalar ρ› with div := div }

/-- The same elements over their real type with another division. -/
@[reducible]
def EuclideanScalar.withDiv [EuclideanScalar α ρ] (div : α → α → α) : EuclideanScalar α ρ :=
  { ‹EuclideanScalar α ρ› with div := div }

/-- The division is that of the type wherever the divisor is not zero. -/
def Scalar.AgreesOffZero [Scalar α] (div : α → α → Except Failure α) : Prop :=
  ∀ x y, Scalar.isZero y = false → div x y = Scalar.div x y

/-- The division of the type, except that zero divides everything. -/
def Scalar.totalDiv [Scalar α] (x y : α) : Except Failure α :=
  if Scalar.isZero y then .ok Scalar.zero else Scalar.div x y

theorem Scalar.totalDiv_agrees [Scalar α] : Scalar.AgreesOffZero (Scalar.totalDiv (α := α)) :=
  fun _ _ hy => if_neg (Bool.eq_false_iff.1 hy)

/-- Where only a division by zero fails otherwise, nothing fails otherwise without it. -/
theorem FailsBy.total [Scalar α] {E : Failure → Prop}
    (hE : FailsBy α E fun y => Scalar.isZero y = false) :
    @FailsBy α (Scalar.withDiv Scalar.totalDiv) E fun _ => True := by
  refine @FailsBy.mk α (Scalar.withDiv Scalar.totalDiv) E _ hE.ends_add hE.ends_sub hE.ends_mul
    fun x y _ => ?_
  show Ends E (fun _ => True) (Scalar.totalDiv x y)
  unfold Scalar.totalDiv
  by_cases hy : Scalar.isZero y = true
  · rw [if_pos hy]
    exact trivial
  · rw [if_neg hy]
    exact hE.ends_div x y (Bool.eq_false_iff.2 hy)

/-! ### Zeros and their moduli -/

/-- Elements whose zeros have a modulus below every positive number. -/
class ZeroModulus (α : Type) {ρ : outParam Type} [RealScalar ρ] [EuclideanScalar α ρ] : Prop where
  modulus_lt {x : α} (hx : Scalar.isZero x = true) {t : ρ} (ht : 0 < t) :
    EuclideanScalar.modulus x < t

namespace BinaryScalar

open Float.Model Float.Model.UnpackedFloat

variable [RealScalar ρ] [BinaryScalar ρ]

/-- A zero is below every positive number, whatever its sign. -/
theorem lt_of_unpacked_zero {x t : ρ} {sign : Sign} (hx : unpacked x = .zero sign) (ht : 0 < t) :
    x < t := by
  have hplace := lt_iff_place.1 ht
  rw [place_zero] at hplace
  rw [lt_iff_place, isNaN_eq x, place, hx]
  exact ⟨⟨rfl, hplace.1.2⟩, hplace.2⟩

instance : ZeroModulus ρ where
  modulus_lt {x} hx t ht := by
    obtain ⟨sign, hsign⟩ := isZero_iff.1 hx
    have habs := unpacked_abs x
    rw [hsign] at habs
    exact lt_of_unpacked_zero (habs.trans (Rounding.unpack_pack_zero _ _)) ht

instance [RootScalar ρ] : ZeroModulus (Cartesian ρ) where
  modulus_lt {x} hx t ht := by
    obtain ⟨hre, him⟩ := Bool.and_eq_true_iff.1 hx
    obtain ⟨s, hs⟩ := isZero_iff.1 hre
    obtain ⟨s', hs'⟩ := isZero_iff.1 him
    have hlength := RootScalar.unpacked_hypot x.re x.im
    rw [hs, hs'] at hlength
    exact lt_of_unpacked_zero (hlength.trans (Rounding.unpack_pack_zero _ _)) ht

end BinaryScalar

end DenseFactor
