import Mathlib
import DenseFactor.Proofs.Scalar.Size
import DenseFactor.QR.Reflection
import DenseFactor.Scalar.Cartesian

/-!
# DenseFactor.Proofs.QR.Head

The **head of a reflection's vector in rounded arithmetic**, and the diagonal entry it is
formed with.

Design points:

* The new diagonal entry has the opposite sign of the first entry of the row, or one of them
  is zero. So the head `x - entry` is zero only if both are. This is `HeadedScalar`, and it
  holds of complex numbers as well, one part at a time.
* Over a real type the new entry is the length up to its sign, without rounding.
* A length is a rounded root, and the square of one is not rounded away. The head is at least
  as large, so neither are its product with the new entry and its square.
-/

namespace DenseFactor

namespace QR

open BinaryScalar
open Float.Model Float.Model.UnpackedFloat

/-- Elements whose head of a reflection is zero only if the new diagonal entry is. -/
class HeadedScalar (α : Type) {ρ : outParam Type} [RealScalar ρ] [EuclideanScalar α ρ] :
    Prop where
  isZero_entry {x : α} {length : ρ} (hlength : ¬ length < 0)
    (hhead : Scalar.isZero (x - diagonalEntry x length) = true) :
    Scalar.isZero (diagonalEntry x length) = true

/-! ### The new diagonal entry of a real row -/

section Real

variable {ρ : Type} [RealScalar ρ] [BinaryScalar ρ] {x length : ρ}

/-- The new entry is the length with the opposite sign of the first entry, and a NaN if that is
infinite. -/
theorem diagonalEntry_cases (x length : ρ) :
    RealScalar.isNaN (diagonalEntry x length) = true ∨
      ∃ s, Signed (-s) x ∧ RealScalar.isNaN (diagonalEntry x length) = RealScalar.isNaN length ∧
        place (diagonalEntry x length) = s.apply (place length) := by
  by_cases hpos : 0 < RealScalar.abs x
  · have hentry : diagonalEntry x length = 0 - x / RealScalar.abs x * length := if_pos hpos
    obtain ⟨hnumber, hplace⟩ := zero_sub_place (x / RealScalar.abs x * length)
    rw [hentry, hnumber, hplace]
    by_cases hx : RealScalar.isFinite x = true
    · refine .inr ?_
      rcases unpacked_div_abs hpos hx with ⟨hsign, hquotient⟩ | ⟨hsign, hquotient⟩
      · have hproduct : unpacked (x / RealScalar.abs x * length) = unpacked length := by
          rw [unpacked_mul, hquotient, ← unpacked_mul, unpacked_mul_comm, unpacked_mul_one]
        have hplace := (lt_iff_place.1 hsign).2
        rw [isNaN_eq, place, hproduct, ← isNaN_eq, ← place]
        rw [place_zero] at hplace
        exact ⟨.negative, signed_iff_place.2 hplace.le, rfl, rfl⟩
      · have hproduct : unpacked (x / RealScalar.abs x * length) = unpacked (-length) := by
          rw [unpacked_mul, hquotient, ← unpacked_neg_eq, ← unpacked_mul, unpacked_neg_mul,
            unpacked_mul_comm, unpacked_mul_one, unpacked_neg_eq]
        have hplace := (lt_iff_place.1 hsign).2
        rw [isNaN_eq, place, hproduct, ← isNaN_eq, ← place, isNaN_neg, place_neg, neg_neg]
        rw [place_zero] at hplace
        exact ⟨.positive, signed_iff_place.2 (neg_nonneg.2 hplace.le), rfl, rfl⟩
    · refine .inl ?_
      by_contra hproduct
      have hnumbers := isNaN_of_mul (Bool.eq_false_iff.2 hproduct)
      exact absurd (isNaN_div_abs hpos hx) (by simp [hnumbers.1])
  · have hentry : diagonalEntry x length = length := if_neg hpos
    have hsigned : Signed (-.positive) x := by
      rw [signed_iff_place, place_of_abs_not_pos hpos]
      exact le_rfl
    rw [hentry]
    exact .inr ⟨.positive, hsigned, rfl, rfl⟩

instance : HeadedScalar ρ where
  isZero_entry {x length} hlength hhead := by
    obtain ⟨⟨hx, hentry⟩, hplace⟩ := place_of_sub_isZero hhead
    rcases diagonalEntry_cases x length with hnan | ⟨s, hsigned, -, hsize⟩
    · exact absurd hnan (by simp [hentry])
    · -- the entry has the other sign than what it equals
      have hother : Signed s (diagonalEntry x length) := by
        rw [signed_iff_place, hsize, Rounding.apply_apply]
        exact not_neg_iff.1 hlength
      have hzero := hother.place_eq_zero hsigned hplace.symm
      exact isZero_iff_place.2 ⟨hentry, hzero⟩

/-- Up to its sign the new entry is the length. -/
theorem place_diagonalEntry (hlength : ¬ length < 0)
    (hentry : RealScalar.isNaN (diagonalEntry x length) = false) :
    RealScalar.isNaN length = false ∧ |place (diagonalEntry x length)| = place length := by
  rcases diagonalEntry_cases x length with hnan | ⟨s, -, hnumber, hsize⟩
  · exact absurd hnan (by simp [hentry])
  · rw [hsize, Rounding.abs_apply, abs_of_nonneg (not_neg_iff.1 hlength)]
    exact ⟨hnumber.symm.trans hentry, rfl⟩

theorem isZero_length (hlength : ¬ length < 0)
    (hentry : Scalar.isZero (diagonalEntry x length) = true) : Scalar.isZero length = true := by
  obtain ⟨hnumber, hplace⟩ := isZero_iff_place.1 hentry
  obtain ⟨hnumber', hsize⟩ := place_diagonalEntry hlength hnumber
  rw [hplace, abs_zero] at hsize
  exact isZero_iff_place.2 ⟨hnumber', hsize.symm⟩

/-- The head is at least as large as the length. -/
theorem length_le_abs_head (hlength : ¬ length < 0)
    (hhead : RealScalar.isNaN (x - diagonalEntry x length) = false) :
    length ≤ RealScalar.abs (x - diagonalEntry x length) := by
  obtain ⟨hx, hentry⟩ := isNaN_of_sub hhead
  rcases diagonalEntry_cases x length with hnan | ⟨s, hsigned, hnumber, hsize⟩
  · exact absurd hnan (by simp [hentry])
  have hsize' : s.apply (place (diagonalEntry x length)) = place length := by
    rw [hsize, Rounding.apply_apply]
  have hother : Signed s (diagonalEntry x length) := by
    rw [signed_iff_place, hsize']
    exact not_neg_iff.1 hlength
  -- so the head is a sum of two numbers of one sign
  obtain ⟨-, hsum⟩ := hsigned.place_add hother.neg hx (by rw [isNaN_neg, hentry])
  have hhead' : place (x - diagonalEntry x length) = place (x + -diagonalEntry x length) := by
    rw [place, place, unpacked_sub_eq]
  rw [place_neg, Rounding.apply_neg_neg, hsize', ← hhead'] at hsum
  refine le_iff_place.2 ⟨⟨hnumber.symm.trans hentry, (isNaN_abs _).trans hhead⟩, ?_⟩
  rw [place_abs]
  exact hsum.trans (Rounding.apply_le_abs (-s) _)

/-- With a length that is a root, neither the product of the new entry and the head nor the
square of the head is rounded away. -/
theorem not_isZero_head_products [RootScalar ρ] [WideScalar ρ] {t : ρ}
    (hlength : length = RealScalar.sqrt t)
    (hentry : ¬ Scalar.isZero (diagonalEntry x length) = true) :
    ¬ Scalar.isZero (diagonalEntry x length * (x - diagonalEntry x length)) = true ∧
      ¬ Scalar.isZero ((x - diagonalEntry x length) * (x - diagonalEntry x length)) = true := by
  have hnonneg : ¬ length < 0 := hlength ▸ sqrt_not_neg t
  by_cases hhead : RealScalar.isNaN (x - diagonalEntry x length) = true
  · -- a product with a NaN is one
    have hproduct (y : ρ) : ¬ Scalar.isZero (y * (x - diagonalEntry x length)) = true := by
      intro hzero
      have hnumbers := isNaN_of_mul (isZero_iff_place.1 hzero).1
      exact absurd hhead (by simp [hnumbers.2])
    exact ⟨hproduct _, hproduct _⟩
  rw [Bool.not_eq_true] at hhead
  have hnumber := (isNaN_of_sub hhead).2
  obtain ⟨hnumber', hsize⟩ := place_diagonalEntry hnonneg hnumber
  have hne : place (diagonalEntry x length) ≠ 0 := fun h => hentry (isZero_iff_place.2 ⟨hnumber, h⟩)
  have hpos : 0 < length := by
    rw [lt_iff_place, place_zero, ← hsize]
    exact ⟨⟨isNaN_zero, hnumber'⟩, abs_pos.2 hne⟩
  have hsquare : 0 < length * length := by
    rw [hlength] at hpos ⊢
    exact sqrt_mul_self_pos (pos_of_sqrt_pos hpos)
  have hentry' : length ≤ RealScalar.abs (diagonalEntry x length) := by
    rw [le_iff_place, isNaN_abs, place_abs]
    exact ⟨⟨hnumber', hnumber⟩, hsize.ge⟩
  have hhead' := length_le_abs_head hnonneg hhead
  constructor
  · rw [← isZero_abs_mul_abs]
    exact not_isZero_of_pos (mul_pos_of_square_pos hpos hsquare hentry' hhead')
  · rw [← isZero_abs_mul_abs]
    exact not_isZero_of_pos (mul_pos_of_square_pos hpos hsquare hhead' hhead')

end Real

/-! ### Complex rows -/

section Complex

variable {ρ : Type} [RealScalar ρ] [BinaryScalar ρ] [RootScalar ρ]

/-- The parts of a complex number divided by its modulus and scaled keep their signs. -/
theorem signed_phase {x : Cartesian ρ} {length : ρ} (hlength : ¬ length < 0) {s t : Sign}
    (hre : Signed s x.re) (him : Signed t x.im) :
    Signed s (x / EuclideanScalar.ofReal (EuclideanScalar.modulus x) *
        EuclideanScalar.ofReal length).re ∧
      Signed t (x / EuclideanScalar.ofReal (EuclideanScalar.modulus x) *
        EuclideanScalar.ofReal length).im := by
  have hsize : Signed .positive length := signed_iff_place.2 (not_neg_iff.1 hlength)
  set modulus : ρ := EuclideanScalar.modulus x with hmodulus
  have hmodulus' : Signed .positive modulus := signed_hypot x.re x.im
  -- the divisor of both parts is not a negative zero
  have hnorm : Signed .positive (modulus * modulus + 0 * 0) :=
    (hmodulus'.mul_size hmodulus').add ((signed_zero _).mul_size (signed_zero _))
  have hnorm' : unpacked (modulus * modulus + 0 * 0) ≠ .zero .negative := by
    refine add_ne_zero_negative ?_
    rw [unpacked_mul, unpacked_zero]
    exact Rounding.unpack_pack_zero _ _
  have hre' : Signed s ((x.re * modulus + x.im * 0) / (modulus * modulus + 0 * 0)) :=
    ((hre.mul_size hmodulus').add (signed_mul_zero s _)).div hnorm hnorm'
  have him' : Signed t ((x.im * modulus - x.re * 0) / (modulus * modulus + 0 * 0)) :=
    ((him.mul_size hmodulus').sub (signed_mul_zero (-t) _)).div hnorm hnorm'
  exact ⟨(hre'.mul_size hsize).sub (signed_mul_zero (-s) _),
    (signed_mul_zero t _).add (him'.mul_size hsize)⟩

instance : HeadedScalar (Cartesian ρ) where
  isZero_entry {x length} hlength hhead := by
    obtain ⟨hheadRe, hheadIm⟩ := Bool.and_eq_true_iff.1 hhead
    obtain ⟨⟨hxRe, hentryRe⟩, hplaceRe⟩ := place_of_sub_isZero hheadRe
    obtain ⟨⟨hxIm, -⟩, hplaceIm⟩ := place_of_sub_isZero hheadIm
    by_cases hpos : 0 < (EuclideanScalar.modulus x : ρ)
    · have hentry : diagonalEntry x length = 0 - x / EuclideanScalar.ofReal
          (EuclideanScalar.modulus x) * EuclideanScalar.ofReal length := if_pos hpos
      rw [hentry] at hplaceRe hplaceIm
      obtain ⟨s, hre⟩ := exists_signed x.re
      obtain ⟨t, him⟩ := exists_signed x.im
      obtain ⟨hphaseRe, hphaseIm⟩ := signed_phase hlength hre him
      have hzeroRe : place x.re = 0 := hre.place_eq_zero hphaseRe.zero_sub hplaceRe
      have hzeroIm : place x.im = 0 := him.place_eq_zero hphaseIm.zero_sub hplaceIm
      -- a number of two zero parts has no positive modulus
      have hmodulus := (place_hypot hxRe (isZero_iff_place.2 ⟨hxIm, hzeroIm⟩)).2
      have hlt := (lt_iff_place.1 hpos).2
      rw [place_zero] at hlt
      rw [hzeroRe, abs_zero] at hmodulus
      exact absurd hmodulus hlt.ne'
    · have hentry : diagonalEntry x length = EuclideanScalar.ofReal length := if_neg hpos
      rw [hentry] at hplaceRe hplaceIm hentryRe ⊢
      have hzeroIm : place x.im = 0 := hplaceIm.trans place_zero
      obtain ⟨hnumber, hmodulus⟩ := place_hypot hxRe (isZero_iff_place.2 ⟨hxIm, hzeroIm⟩)
      have hzeroRe : place x.re = 0 := by
        by_contra hne
        refine hpos (lt_iff_place.2 ⟨⟨isNaN_zero, hnumber⟩, ?_⟩)
        rw [place_zero]
        exact (abs_pos.2 hne).trans_eq hmodulus.symm
      have hlength : Scalar.isZero length = true :=
        isZero_iff_place.2 ⟨hentryRe, hplaceRe.symm.trans hzeroRe⟩
      have hzero : Scalar.isZero (0 : ρ) = true := isZero_iff.2 ⟨_, unpacked_zero⟩
      exact Bool.and_eq_true_iff.2 ⟨hlength, hzero⟩

end Complex

end QR

end DenseFactor
