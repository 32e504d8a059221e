import Mathlib
import DenseFactor.Proofs.Scalar.Size

/-!
# DenseFactor.Proofs.Scalar.Quotient

**Quotients of numbers in order**: the larger over the smaller is at least one, and the smaller
over the larger between zero and one, rounded and cut off at infinity.

Design points:

* A quotient is computed to an integer and a remainder before it is rounded. Only the integer is
  looked at: rounding takes it down by less than one unit (`roundWithAccuracy_lower`) and up by
  one at most (`roundWithAccuracy_le`).
* One is a number of the format. So an integer that is at least one with its exponent is not
  rounded below one (`one_le_round`), and an integer that is less is not rounded above it
  (`round_le_one`), whatever the remainder.
* Zeros and infinities take no part in this: what their quotients are is read off the division.
-/

namespace DenseFactor

namespace Rounding

open Float.Model Float.Model.UnpackedFloat

variable {format : Format} {m m' q : ℕ} {e e' t : ℤ}

/-- Canonical numbers of different places: the later one has the larger exponent. -/
theorem Canonical.exists_shift_lt (h : Canonical format m e) (h' : Canonical format m' e')
    (hlt : placeOf format m e < placeOf format m' e') :
    ∃ d : ℕ, e' = e + d ∧ m < m' * 2 ^ d := by
  obtain ⟨d, rfl, hle⟩ := h.exists_shift h' hlt.le
  refine ⟨d, rfl, hle.lt_of_ne fun heq => ?_⟩
  rcases Nat.eq_zero_or_pos d with rfl | hd
  · rw [pow_zero, mul_one] at heq
    rw [heq, Nat.cast_zero, add_zero] at hlt
    exact lt_irrefl _ hlt
  · -- the later number has all its bits, so the other one would have too many
    have hleast := h.le
    have hbits := h.lt
    have hfull : fractions format ≤ m' := h'.normal.resolve_left (by omega)
    have hshift : fractions format * 2 ≤ m' * 2 ^ d :=
      Nat.mul_le_mul hfull (Nat.le_pow hd)
    omega

/-! ### Quotients before rounding -/

variable (format e e') in
/-- A quotient is computed to all bits of a format, unless its exponent is the least. -/
theorem divCore_full (hm : 0 < m) (hm' : 0 < m') :
    (divCore format m e m' e').2.1 ≤ format.minExponent ∨
      fractions format ≤ (divCore format m e m' e').1 := by
  rw [or_iff_not_imp_left, not_le]
  unfold divCore
  dsimp only
  set t := min (e - e') (format.targetExponent (totalExponent m e - totalExponent m' e')) with ht
  intro hleast
  have hbits : t ≤ m.log2 + e - (m'.log2 + e') - (format.mantissaBitsWithoutImplicit + 1) := by
    rw [Format.targetExponent, Format.mantissaBits, totalExponent, totalExponent] at ht
    push_cast at ht
    omega
  have hshift : m'.log2 + 1 + format.mantissaBitsWithoutImplicit ≤
      m.log2 + (e - e' - t).toNat := by
    omega
  rw [Nat.shiftLeft_eq, Nat.le_div_iff_mul_le hm', fractions]
  calc 2 ^ format.mantissaBitsWithoutImplicit * m'
      ≤ 2 ^ format.mantissaBitsWithoutImplicit * 2 ^ (m'.log2 + 1) :=
        Nat.mul_le_mul_left _ Nat.lt_log2_self.le
    _ = 2 ^ (m'.log2 + 1 + format.mantissaBitsWithoutImplicit) := by
        rw [← Nat.pow_add, Nat.add_comm]
    _ ≤ 2 ^ (m.log2 + (e - e' - t).toNat) := Nat.pow_le_pow_right Nat.two_pos hshift
    _ = 2 ^ m.log2 * 2 ^ (e - e' - t).toNat := Nat.pow_add _ _ _
    _ ≤ m * 2 ^ (e - e' - t).toNat := Nat.mul_le_mul_right _ (Nat.log2_self_le hm.ne')

variable (format e e') in
/-- Rounding a quotient shifts to the right only. -/
theorem divCore_le_roundedExponent (hm : 0 < m) (hm' : 0 < m') :
    (divCore format m e m' e').2.1 ≤ roundedExponent format (divCore format m e m' e').1
      (divCore format m e m' e').2.1 := by
  rcases divCore_full format e e' hm hm' with hleast | hfull
  · exact hleast.trans (minExponent_le_roundedExponent _ _ _)
  · have hpos := (Nat.two_pow_pos format.mantissaBitsWithoutImplicit).trans_le hfull
    have hlog : format.mantissaBitsWithoutImplicit ≤ (divCore format m e m' e').1.log2 :=
      (Nat.le_log2 hpos.ne').2 hfull
    rw [roundedExponent_eq]
    omega

/-! ### Rounding beside one -/

/-- Without its least exponent, a number that is shifted to the right has all its bits. -/
theorem full_of_shifted (ht : t ≤ roundedExponent format q t)
    (hleast : format.minExponent < roundedExponent format q t) :
    fractions format ≤ q / 2 ^ (roundedExponent format q t - t).toNat := by
  refine (Nat.le_div_iff_mul_le (Nat.two_pow_pos _)).2 (fractions_shift_le ?_ ht hleast)
  refine Nat.pos_of_ne_zero fun hzero => ?_
  have hbits := format.hm
  rw [hzero, roundedExponent_eq, Nat.log2_zero] at ht hleast
  omega

/-- Rounding adds one unit at most to the bits that are kept, and the result has the place that
these bits have with their exponent. -/
theorem roundWithAccuracy_le (s : Sign) (accuracy : Accuracy)
    (ht : t ≤ roundedExponent format q t) :
    ∃ r, r ≤ q / 2 ^ (roundedExponent format q t - t).toNat + 1 ∧
      (roundWithAccuracy format s q t accuracy = .zero s ∨
        ∃ m' e', ∃ h : Canonical format m' e',
          roundWithAccuracy format s q t accuracy = .finite s m' e' h.pos ∧
            placeOf format m' e' =
              (roundedExponent format q t - format.minExponent) * fractions format + r) := by
  have hleast := minExponent_le_roundedExponent format q t
  have hsmall := (Nat.div_lt_iff_lt_mul (Nat.two_pow_pos _)).2 (lt_fractions_shift ht)
  have hfull := full_of_shifted ht
  unfold roundWithAccuracy
  rw [shiftToTargetExponent_eq accuracy ht]
  dsimp only
  generalize (roundedExponent format q t - t).toNat = k at hsmall hfull ⊢
  obtain ⟨hle, hge⟩ :=
    roundedMantissa_mem (ExtendedMantissa.ofMantissaAndAccuracy q accuracy >>> k)
  rw [shiftRight_mantissa, mantissa_ofMantissaAndAccuracy] at hle hge
  generalize (ExtendedMantissa.ofMantissaAndAccuracy q accuracy >>> k).roundedMantissa = r
    at hle hge ⊢
  refine ⟨r, hge, ?_⟩
  have hr : r ≤ 2 * fractions format := by omega
  have hplace := placeOf_shiftToTargetExponent hr hleast
  rcases Nat.eq_zero_or_pos r with hzero | hpos
  · have htwo := two_le_fractions format
    obtain ⟨hmantissa, -⟩ := shiftToTargetExponent_rounded hr hleast
    refine .inl (dif_pos ?_)
    rw [hmantissa, if_pos (by omega), hzero]
  · have hcanonical := canonical_rounded hpos hr hleast fun h => (hfull h).trans hle
    exact .inr ⟨_, _, hcanonical, dif_neg hcanonical.pos.ne', hplace⟩

variable (format) in
/-- The place of one. -/
def placeOne : ℤ := placeOf format (fractions format) (-format.mantissaBitsWithoutImplicit)

section Unit

variable (hone : Canonical format (fractions format) (-format.mantissaBitsWithoutImplicit))

include hone

/-- What is at least one is not rounded below. -/
theorem one_le_round (s : Sign) (accuracy : Accuracy) (hq : 0 < q)
    (ht : t ≤ roundedExponent format q t) (hlog : 0 ≤ q.log2 + t) :
    ∃ m' e', ∃ h : Canonical format m' e',
      roundWithAccuracy format s q t accuracy = .finite s m' e' h.pos ∧
        placeOne format ≤ placeOf format m' e' := by
  have hleast := hone.le
  have hkept : roundedExponent format q t ≤ q.log2 + t := by
    rw [roundedExponent_eq]
    omega
  obtain ⟨m', e', h, hround, hle, hlt⟩ :=
    roundWithAccuracy_lower format s accuracy hq ht hkept
  refine ⟨m', e', h, hround, ?_⟩
  by_contra hsmall
  obtain ⟨d, hd, hm'⟩ := h.exists_shift_lt hone (not_le.1 hsmall)
  -- below one by a unit of the result, and rounding took away less
  have hbelow : q < 2 ^ (-t).toNat := by
    have hexponent : (-t).toNat = format.mantissaBitsWithoutImplicit + d + (e' - t).toNat := by
      omega
    calc q < (m' + 1) * 2 ^ (e' - t).toNat := hlt
      _ ≤ fractions format * 2 ^ d * 2 ^ (e' - t).toNat := Nat.mul_le_mul_right _ hm'
      _ = 2 ^ (-t).toNat := by rw [hexponent, Nat.pow_add, Nat.pow_add, fractions]
  have hbits : q.log2 < (-t).toNat := (Nat.log2_lt hq.ne').2 hbelow
  omega

/-- What is less than one keeps an exponent no larger than that of one. -/
theorem roundedExponent_le_one (ht : t ≤ 0) (hq : q < 2 ^ (-t).toNat) :
    roundedExponent format q t ≤ -format.mantissaBitsWithoutImplicit := by
  have hleast := hone.le
  rw [roundedExponent_eq]
  rcases Nat.eq_zero_or_pos q with rfl | hpos
  · rw [Nat.log2_zero]
    omega
  · have hlog : q.log2 < (-t).toNat := (Nat.log2_lt hpos.ne').2 hq
    omega

/-- What is less than one is not rounded above. -/
theorem round_le_one (s : Sign) (accuracy : Accuracy) (ht₀ : t ≤ 0)
    (ht : t ≤ roundedExponent format q t) (hq : q < 2 ^ (-t).toNat) :
    roundWithAccuracy format s q t accuracy = .zero s ∨
      ∃ m' e', ∃ h : Canonical format m' e',
        roundWithAccuracy format s q t accuracy = .finite s m' e' h.pos ∧
          placeOf format m' e' ≤ placeOne format := by
  have hexponent := roundedExponent_le_one hone ht₀ hq
  have hsmall := (Nat.div_lt_iff_lt_mul (Nat.two_pow_pos _)).2 (lt_fractions_shift ht)
  obtain ⟨r, hr, hround⟩ := roundWithAccuracy_le s accuracy ht
  have hone : r ≤ 2 ^ (-roundedExponent format q t).toNat := by
    have hsplit : (-t).toNat = (-roundedExponent format q t).toNat +
        (roundedExponent format q t - t).toNat := by omega
    rw [hsplit, Nat.pow_add] at hq
    exact hr.trans ((Nat.div_lt_iff_lt_mul (Nat.two_pow_pos _)).2 hq)
  refine hround.imp_right ?_
  rintro ⟨m', e', h, hfinite, hplace⟩
  refine ⟨m', e', h, hfinite, ?_⟩
  rw [hplace, placeOne, placeOf]
  generalize roundedExponent format q t = k at hexponent hsmall hr hone ⊢
  rcases hexponent.eq_or_lt with rfl | hlt
  · rw [neg_neg, Int.toNat_natCast] at hone
    exact add_le_add_right (Int.ofNat_le.2 hone) _
  · -- a smaller exponent: all places of it come before
    have hstep : (k - format.minExponent + 1) * (fractions format : ℤ) ≤
        (-format.mantissaBitsWithoutImplicit - format.minExponent) * fractions format :=
      mul_le_mul_of_nonneg_right (by omega) (fractions_pos format).le
    rw [add_mul, one_mul] at hstep
    omega

/-- The larger of two numbers over the smaller. -/
theorem Canonical.one_le_div (h : Canonical format m e) (h' : Canonical format m' e')
    (hle : placeOf format m' e' ≤ placeOf format m e) :
    ∃ m₂ e₂, ∃ h₂ : Canonical format m₂ e₂,
      div format (.finite .positive m e h.pos) (.finite .positive m' e' h'.pos) =
          .finite .positive m₂ e₂ h₂.pos ∧
        placeOne format ≤ placeOf format m₂ e₂ := by
  have hready := divCore_le_roundedExponent format e e' h.pos h'.pos
  have hfull := divCore_full format e e' h.pos h'.pos
  have hleast := minExponent_nonpos format
  obtain ⟨d, rfl, hmantissa⟩ := h'.exists_shift h hle
  -- with an exponent below that of one the integer is at least one
  have hlow (ht : (divCore format m (e' + d) m' e').2.1 ≤ 0) :
      2 ^ (-(divCore format m (e' + d) m' e').2.1).toNat ≤
        (divCore format m (e' + d) m' e').1 := by
    unfold divCore at ht ⊢
    dsimp only at ht ⊢
    generalize min (e' + d - e') (format.targetExponent
      (totalExponent m (e' + d) - totalExponent m' e')) = t at ht ⊢
    have hshift : (e' + d - e' - t).toNat = d + (-t).toNat := by omega
    rw [Nat.shiftLeft_eq, Nat.le_div_iff_mul_le h'.pos, hshift, Nat.pow_add, ← mul_assoc,
      Nat.mul_comm]
    exact Nat.mul_le_mul_right _ hmantissa
  have hpos : 0 < (divCore format m (e' + d) m' e').1 := by
    rcases hfull with hsmall | hbits
    · exact (Nat.two_pow_pos _).trans_le (hlow (hsmall.trans hleast))
    · exact (Nat.two_pow_pos _).trans_le hbits
  have hlog : 0 ≤ ((divCore format m (e' + d) m' e').1.log2 : ℤ) +
      (divCore format m (e' + d) m' e').2.1 := by
    rcases le_or_gt (divCore format m (e' + d) m' e').2.1 0 with ht | ht
    · have hbits := (Nat.le_log2 hpos.ne').2 (hlow ht)
      omega
    · omega
  exact one_le_round hone .positive _ hpos hready hlog

/-- The smaller of two numbers over the larger. -/
theorem Canonical.div_le_one (h : Canonical format m e) (h' : Canonical format m' e')
    (hle : placeOf format m e ≤ placeOf format m' e') :
    div format (.finite .positive m e h.pos) (.finite .positive m' e' h'.pos) = .zero .positive ∨
      ∃ m₂ e₂, ∃ h₂ : Canonical format m₂ e₂,
        div format (.finite .positive m e h.pos) (.finite .positive m' e' h'.pos) =
            .finite .positive m₂ e₂ h₂.pos ∧
          placeOf format m₂ e₂ ≤ placeOne format := by
  rcases hle.eq_or_lt with heq | hlt
  · obtain ⟨rfl, rfl⟩ := h.placeOf_inj h' heq
    exact .inr ⟨_, _, hone, div_self hone .positive h.pos, le_rfl⟩
  have hready := divCore_le_roundedExponent format e e' h.pos h'.pos
  obtain ⟨d, rfl, hmantissa⟩ := h.exists_shift_lt h' hlt
  refine round_le_one hone .positive _ ?_ hready ?_
  · exact (min_le_left _ _).trans (by omega)
  · have ht := min_le_left (e - (e + d)) (format.targetExponent
      (totalExponent m e - totalExponent m' (e + d)))
    generalize min (e - (e + d)) (format.targetExponent
      (totalExponent m e - totalExponent m' (e + d))) = t at ht ⊢
    have hshift : (-t).toNat = d + (e - (e + d) - t).toNat := by omega
    rw [Nat.shiftLeft_eq, Nat.div_lt_iff_lt_mul h'.pos, hshift, Nat.pow_add,
      Nat.mul_comm _ m', ← mul_assoc]
    exact Nat.mul_lt_mul_of_pos_right hmantissa (Nat.two_pow_pos _)

end Unit

end Rounding

namespace BinaryScalar

open Float.Model Float.Model.UnpackedFloat

variable {ρ : Type} [RealScalar ρ] [BinaryScalar ρ] {x y : ρ}

theorem canonical_one : Rounding.Canonical (format ρ) (Rounding.fractions (format ρ))
    (-(format ρ).mantissaBitsWithoutImplicit) := by
  have hone := representable (1 : ρ)
  rw [unpacked_one] at hone
  exact hone.1

theorem place_one : place (1 : ρ) = Rounding.placeOne (format ρ) := by
  rw [place, unpacked_one]
  rfl

theorem isNaN_one : RealScalar.isNaN (1 : ρ) = false := by
  rw [isNaN_eq, unpacked_one]
  rfl

/-- One is less than infinity. -/
theorem place_one_lt : place (1 : ρ) < Rounding.topPlace (format ρ) := by
  have hone := representable (1 : ρ)
  rw [unpacked_one] at hone
  rw [place_one]
  exact hone.2

theorem one_le_of_infinity (h : unpacked x = .infinity .positive) : 1 ≤ x := by
  have hplace : place x = Rounding.topPlace (format ρ) := by
    rw [place, h]
    rfl
  rw [le_iff_place, isNaN_one, isNaN_eq, h, hplace]
  exact ⟨⟨rfl, rfl⟩, place_one_lt.le⟩

/-- A number that is not below zero is zero, finite and positive, or infinite. -/
theorem nonneg_cases (hx : 0 ≤ x) : (∃ s, unpacked x = .zero s) ∨
    (0 < x ∧ RealScalar.isFinite x = true) ∨ unpacked x = .infinity .positive := by
  obtain ⟨⟨-, hnumber⟩, hplace⟩ := le_iff_place.1 hx
  rw [place_zero] at hplace
  exact size_cases hnumber (not_neg_iff.2 hplace)

/-- Nothing but infinity is as large. -/
theorem infinity_of_le (hx : unpacked x = .infinity .positive) (hle : x ≤ y) :
    unpacked y = .infinity .positive := by
  rcases pos_cases (lt_of_lt_of_le (pos_of_infinity hx) hle) with ⟨m, e, hm, hy⟩ | hy
  · have hfits := representable y
    have hplace := (le_iff_place.1 hle).2
    rw [hy] at hfits
    rw [place, place, hx, hy] at hplace
    exact absurd hfits.2 (not_lt.2 hplace)
  · exact hy

/-! ### No quotients -/

/-- Zeros have no quotient. -/
theorem isNaN_div_isZero (hx : Scalar.isZero x = true) (hy : Scalar.isZero y = true) :
    RealScalar.isNaN (x / y) = true := by
  obtain ⟨s, hs⟩ := isZero_iff.1 hx
  obtain ⟨t, ht⟩ := isZero_iff.1 hy
  rw [isNaN_eq, unpacked_div, hs, ht, UnpackedFloat.div, Rounding.unpack_pack_notANumber]
  rfl

/-- Infinities have no quotient. -/
theorem isNaN_div_infinity (hx : unpacked x = .infinity .positive)
    (hy : unpacked y = .infinity .positive) : RealScalar.isNaN (x / y) = true := by
  rw [isNaN_eq, unpacked_div, hx, hy, UnpackedFloat.div, Rounding.unpack_pack_notANumber]
  rfl

theorem isNaN_div_of_isNaN (h : RealScalar.isNaN x = true) : RealScalar.isNaN (x / y) = true := by
  by_contra hnumber
  have hx := (isNaN_of_div (Bool.eq_false_of_not_eq_true hnumber)).1
  exact Bool.false_ne_true (hx.symm.trans h)

/-! ### Quotients of numbers in order -/

/-- A positive number over a zero is an infinity of its sign. -/
theorem unpacked_div_zero {s : Sign} (hx : 0 < x) (hy : unpacked y = .zero s) :
    unpacked (x / y) = .infinity s := by
  have hsign : Sign.positive / s = s := by cases s <;> rfl
  rw [unpacked_div, hy]
  rcases pos_cases hx with ⟨m, e, hm, hcase⟩ | hcase
  · rw [hcase, UnpackedFloat.div, hsign, Rounding.unpack_pack_infinity]
  · rw [hcase, UnpackedFloat.div, hsign, Rounding.unpack_pack_infinity]

/-- The larger of two numbers over the smaller is at least one. -/
theorem one_le_div (hy : 0 < y) (hfinite : RealScalar.isFinite y = true) (hle : y ≤ x) :
    1 ≤ x / y := by
  obtain ⟨m', e', h', hy'⟩ := exists_canonical hy hfinite
  rcases pos_cases (lt_of_lt_of_le hy hle) with ⟨m, e, h, hx⟩ | htop
  · have hplace := (le_iff_place.1 hle).2
    rw [place, place, hx, hy'] at hplace
    obtain ⟨m₂, e₂, h₂, hquotient, hone⟩ := canonical_one.one_le_div h h' hplace
    have hstored := unpacked_div x y
    rw [hx, hy', hquotient, h₂.unpack_pack two_le_exponentBits] at hstored
    split_ifs at hstored
    · exact one_le_of_infinity hstored
    · rw [le_iff_place, isNaN_one, isNaN_eq, place_one, place, hstored]
      exact ⟨⟨rfl, rfl⟩, hone⟩
  · refine one_le_of_infinity ?_
    rw [unpacked_div, htop, hy']
    exact Rounding.unpack_pack_infinity _ _

/-- The smaller of two numbers over the larger is between zero and one. -/
theorem div_le_one (hy : 0 ≤ y) (hfinite : RealScalar.isFinite y = true) (hle : y ≤ x)
    (hx : 0 < x) : 0 ≤ y / x ∧ y / x ≤ 1 := by
  have hone : (0 : ℤ) < place (1 : ρ) := by
    rw [place_one]
    exact canonical_one.placeOf_pos
  have hunit (hnumber : RealScalar.isNaN (y / x) = false) (hlow : 0 ≤ place (y / x))
      (hhigh : place (y / x) ≤ place (1 : ρ)) : 0 ≤ y / x ∧ y / x ≤ 1 :=
    ⟨le_iff_place.2 ⟨⟨isNaN_zero, hnumber⟩, place_zero.trans_le hlow⟩,
      le_iff_place.2 ⟨⟨hnumber, isNaN_one⟩, hhigh⟩⟩
  have hzero {s : Sign} (h : unpacked (y / x) = .zero s) : 0 ≤ y / x ∧ y / x ≤ 1 := by
    refine hunit ?_ ?_ ?_
    · rw [isNaN_eq, h]
      rfl
    · rw [place, h]
      exact le_rfl
    · rw [place, h]
      exact hone.le
  rcases nonneg_cases hy with ⟨s, hy'⟩ | ⟨hpos, -⟩ | hy'
  · rcases pos_cases hx with ⟨m, e, h, hx'⟩ | hx'
    · refine hzero (s := s / .positive) ?_
      rw [unpacked_div, hy', hx', UnpackedFloat.div, Rounding.unpack_pack_zero]
    · refine hzero (s := s / .positive) ?_
      rw [unpacked_div, hy', hx', UnpackedFloat.div, Rounding.unpack_pack_zero]
  · obtain ⟨m, e, h, hy'⟩ := exists_canonical hpos hfinite
    rcases pos_cases hx with ⟨m', e', h', hx'⟩ | hx'
    · have horder := (le_iff_place.1 hle).2
      rw [place, place, hx', hy'] at horder
      have hstored := unpacked_div y x
      rw [hx', hy'] at hstored
      rcases canonical_one.div_le_one h h' horder with hquotient | ⟨m₂, e₂, h₂, hquotient, hsmall⟩
      · rw [hquotient, Rounding.unpack_pack_zero] at hstored
        exact hzero hstored
      · have hfits : ¬ Rounding.topPlace (format ρ) ≤ Rounding.placeOf (format ρ) m₂ e₂ := by
          have := place_one_lt (ρ := ρ)
          rw [place_one] at this
          omega
        rw [hquotient, h₂.unpack_pack two_le_exponentBits, if_neg hfits] at hstored
        refine hunit ?_ ?_ ?_
        · rw [isNaN_eq, hstored]
          rfl
        · rw [place, hstored]
          exact h₂.placeOf_pos.le
        · rw [place_one, place, hstored]
          exact hsmall
    · refine hzero (s := .positive) ?_
      rw [unpacked_div, hy', hx']
      exact Rounding.unpack_pack_zero _ _
  · rw [isFinite_eq, hy'] at hfinite
    exact absurd hfinite Bool.false_ne_true

end BinaryScalar

end DenseFactor
