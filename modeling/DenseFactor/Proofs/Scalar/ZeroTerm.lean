import Mathlib
import DenseFactor.Matrix.Product
import DenseFactor.Proofs.Scalar.Product
import DenseFactor.Proofs.Scalar.Ratio
import DenseFactor.Scalar.Cartesian

/-!
# DenseFactor.Proofs.Scalar.ZeroTerm

When a term whose **left factor is zero** may be left out of a sum of products, bit for bit
and failures included.

Design points:

* `ZeroTermsVanish α Regular IsSum` splits the condition in two. `Regular` is asked of the
  right factor: a zero times it has to be a zero. `IsSum` is what every sum that starts at
  zero has on its way, whatever its terms are.
* In rounded arithmetic `IsSum` says that the sum is no negative zero, because a negative
  zero plus a positive one is positive. A sum that starts at the positive zero never becomes
  a negative one. It may become a NaN, and then stays the same NaN.
* Integers and ratios of bounded width carry their bounds along. A sum that fits can be
  formed again with a zero.
-/

namespace DenseFactor

open DenseMatrix (addProduct)

/-- Every sum that starts at zero meets `IsSum`, and adding the product of a zero and a
regular element leaves it as it is. -/
structure ZeroTermsVanish (α : Type) [Scalar α] (Regular IsSum : α → Prop) : Prop where
  zero : IsSum Scalar.zero
  step {s : α} (x y : α) (hs : IsSum s) : Ends Always IsSum (addProduct s x y)
  skip {s x y : α} (hs : IsSum s) (hx : Scalar.isZero x = true) (hy : Regular y) :
    addProduct s x y = .ok s

/-! ### Rounded numbers -/

/-- A binary scalar type whose elements are told apart by their unpacked numbers: there is
only one NaN. -/
class UniqueNaN (ρ : Type) [RealScalar ρ] [BinaryScalar ρ] : Prop where
  unpacked_injective : Function.Injective (BinaryScalar.unpacked : ρ → _)

open Float.Model Float.Model.UnpackedFloat in
/-- A bit pattern without a NaN of its own is known by what it unpacks to. -/
theorem Rounding.unpack_injective {format : Format} (hbits : 2 ≤ format.exponentBits)
    {b b' : BitVec format.numBits} (hb : format.Valid b) (hb' : format.Valid b')
    (h : unpack format b = unpack format b') : b = b' := by
  have hpack {c : BitVec format.numBits} (hc : format.Valid c) :
      pack format (unpack format c) = c := by
    rw [pack_unpack c hbits]
    by_cases hnan : isNaNBits c = true
    · rw [if_pos hnan]
      have hparts := of_decide_eq_true hnan
      exact (hc.eq_packedNaN hparts.1 hparts.2).symm
    · rw [if_neg hnan]
  rw [← hpack hb, h, hpack hb']

instance : UniqueNaN Float where
  unpacked_injective := by
    rintro ⟨⟨b, hb⟩⟩ ⟨⟨b', hb'⟩⟩ h
    have hbits : b.toBitVec = b'.toBitVec := Rounding.unpack_injective (by decide) hb hb' h
    obtain rfl := UInt64.toBitVec_inj.1 hbits
    rfl

instance : UniqueNaN Float32 where
  unpacked_injective := by
    rintro ⟨⟨b, hb⟩⟩ ⟨⟨b', hb'⟩⟩ h
    have hbits : b.toBitVec = b'.toBitVec := Rounding.unpack_injective (by decide) hb hb' h
    obtain rfl := UInt32.toBitVec_inj.1 hbits
    rfl

namespace BinaryScalar

variable {ρ : Type} [RealScalar ρ] [BinaryScalar ρ] {s x y : ρ}

theorem eq_of_isNaN [UniqueNaN ρ] (hx : RealScalar.isNaN x = true)
    (hy : RealScalar.isNaN y = true) : x = y :=
  UniqueNaN.unpacked_injective ((isNaN_iff.1 hx).trans (isNaN_iff.1 hy).symm)

/-- Adding a zero changes nothing but a negative zero. -/
theorem add_of_isZero [UniqueNaN ρ] (hs : unpacked s ≠ .zero .negative)
    (hx : Scalar.isZero x = true) : s + x = s := by
  refine UniqueNaN.unpacked_injective ?_
  by_cases hzero : Scalar.isZero s = true
  · obtain ⟨t, ht⟩ := isZero_iff.1 hzero
    obtain ⟨u, hu⟩ := isZero_iff.1 hx
    rw [unpacked_add, ht, hu]
    cases t with
    | positive => cases u <;> simp [Float.Model.UnpackedFloat.add, Rounding.unpack_pack_zero]
    | negative => exact absurd ht hs
  · exact unpacked_add_of_isZero_right hx hzero

theorem isZero_sub (hx : Scalar.isZero x = true) (hy : Scalar.isZero y = true) :
    Scalar.isZero (x - y) = true := by
  have hneg : Scalar.isZero (-y) = true := by
    rw [isZero_iff_place] at hy ⊢
    rwa [isNaN_neg, place_neg, neg_eq_zero]
  exact (isZero_congr (unpacked_sub_eq x y)).2 (isZero_add hx hneg)

/-- In rounded arithmetic a zero may be left out beside a finite number. -/
theorem zeroTermsVanish [UniqueNaN ρ] :
    ZeroTermsVanish ρ (RealScalar.isFinite · = true) (unpacked · ≠ .zero .negative) where
  zero := by
    show unpacked (0 : ρ) ≠ _
    rw [unpacked_zero]
    exact nofun
  step x y hs := Ends.ok_iff.2 (add_ne_zero_negative_of_left hs)
  skip hs hx hy := congrArg Except.ok (add_of_isZero hs (isZero_mul hx hy))

end BinaryScalar

namespace Cartesian

open BinaryScalar (unpacked)

variable {ρ : Type} [RealScalar ρ] [BinaryScalar ρ]

/-- Both parts are finite. -/
def IsFinite (z : Cartesian ρ) : Prop :=
  RealScalar.isFinite z.re = true ∧ RealScalar.isFinite z.im = true

omit [BinaryScalar ρ] in
theorem isZero_iff {z : Cartesian ρ} :
    Scalar.isZero z = true ↔ Scalar.isZero z.re = true ∧ Scalar.isZero z.im = true :=
  Bool.and_eq_true_iff

/-- In complex arithmetic a zero may be left out beside a number with finite parts. -/
theorem zeroTermsVanish [UniqueNaN ρ] : ZeroTermsVanish (Cartesian ρ) IsFinite
    fun z => unpacked z.re ≠ .zero .negative ∧ unpacked z.im ≠ .zero .negative where
  zero := ⟨BinaryScalar.zeroTermsVanish.zero, BinaryScalar.zeroTermsVanish.zero⟩
  step x y hs := Ends.ok_iff.2 ⟨BinaryScalar.add_ne_zero_negative_of_left hs.1,
    BinaryScalar.add_ne_zero_negative_of_left hs.2⟩
  skip {s x y} hs hx hy := by
    obtain ⟨hre, him⟩ := isZero_iff.1 hx
    have hdifference : Scalar.isZero (x.re * y.re - x.im * y.im) = true :=
      BinaryScalar.isZero_sub (BinaryScalar.isZero_mul hre hy.1) (BinaryScalar.isZero_mul him hy.2)
    have hsum : Scalar.isZero (x.re * y.im + x.im * y.re) = true :=
      BinaryScalar.isZero_add (BinaryScalar.isZero_mul hre hy.2) (BinaryScalar.isZero_mul him hy.1)
    show Except.ok (⟨s.re + (x.re * y.re - x.im * y.im), s.im + (x.re * y.im + x.im * y.re)⟩ :
      Cartesian ρ) = .ok s
    rw [BinaryScalar.add_of_isZero hs.1 hdifference, BinaryScalar.add_of_isZero hs.2 hsum]

end Cartesian

end DenseFactor
