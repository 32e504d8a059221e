import Mathlib
import DenseFactor.Proofs.Scalar.Canonical

/-!
# DenseFactor.Proofs.Scalar.Monotone

Rounding keeps the order of numbers, and so does **multiplication by a positive number**,
rounded and cut off at infinity.

Design points:

* `nearestEven m k` is `m / 2 ^ k` to the nearest integer, ties to even. The program shifts
  bit by bit with two residual bits; that this comes to the same is one induction.
* Rounding a mantissa may fill one more bit, and then it is shifted again. The place of the
  result is the same before and after, so `roundedPlace` needs no case for it.
* Two numbers are compared before rounding by `e' = e + d` and `m ≤ m' · 2 ^ d`: the later
  number has the larger exponent. This is how canonical numbers in order look, also after
  they were multiplied by a third one.
-/

namespace DenseFactor.Rounding

open Float.Model Float.Model.UnpackedFloat

variable {format : Format}

/-! ### Shifting mantissas -/

theorem shiftRight_mantissa (em : ExtendedMantissa) (k : ℕ) :
    (em >>> k).mantissa = em.mantissa / 2 ^ k := by
  induction k with
  | zero => simp [HShiftRight.hShiftRight, Nat.repeat]
  | succ k ih =>
      have hstep : em >>> (k + 1) = (em >>> k).shiftRightOne := rfl
      rw [hstep, ExtendedMantissa.shiftRightOne, ih, Nat.div_div_eq_div_mul, Nat.pow_succ]

theorem mantissa_ofMantissaAndAccuracy (m : ℕ) (accuracy : Accuracy) :
    (ExtendedMantissa.ofMantissaAndAccuracy m accuracy).mantissa = m := by
  cases accuracy with
  | exact => rfl
  | inexact order => cases order <;> rfl

/-! ### Rounding to an integer -/

/-- The integer nearest to `m / 2 ^ k`, the even one if there are two. -/
def nearestEven (m k : ℕ) : ℕ :=
  m / 2 ^ k +
    if 2 ^ k < 2 * (m % 2 ^ k) then 1
    else if 2 * (m % 2 ^ k) = 2 ^ k then m / 2 ^ k % 2
    else 0

/-- What the residual bits say about the part that was shifted out. -/
theorem shiftRight_residual (m k : ℕ) :
    ((ExtendedMantissa.ofMantissaAndAccuracy m .exact >>> k).roundBit = true ↔
        2 ^ k ≤ 2 * (m % 2 ^ k)) ∧
      ((ExtendedMantissa.ofMantissaAndAccuracy m .exact >>> k).stickyBit = true ↔
        m % 2 ^ k ≠ 0 ∧ 2 * (m % 2 ^ k) ≠ 2 ^ k) := by
  induction k with
  | zero =>
      simp [HShiftRight.hShiftRight, Nat.repeat, ExtendedMantissa.ofMantissaAndAccuracy,
        Nat.mod_one]
  | succ k ih =>
      have hstep (em : ExtendedMantissa) : em >>> (k + 1) = (em >>> k).shiftRightOne := rfl
      have hmod : m % 2 ^ (k + 1) = m % 2 ^ k + 2 ^ k * (m / 2 ^ k % 2) := Nat.mod_pow_succ
      have hlt : m % 2 ^ k < 2 ^ k := Nat.mod_lt _ (Nat.two_pow_pos k)
      obtain ⟨hround, hsticky⟩ := ih
      rw [hstep, ExtendedMantissa.shiftRightOne, shiftRight_mantissa,
        mantissa_ofMantissaAndAccuracy, hmod, Nat.pow_succ]
      simp only [bne_iff_ne, Bool.or_eq_true, hround, hsticky]
      rcases Nat.mod_two_eq_zero_or_one (m / 2 ^ k) with hbit | hbit
      · rw [hbit, mul_zero, add_zero]
        omega
      · rw [hbit, mul_one]
        omega

/-- Shifting bit by bit and rounding once gives the nearest integer. -/
theorem roundedMantissa_shiftRight (m k : ℕ) :
    (ExtendedMantissa.ofMantissaAndAccuracy m .exact >>> k).roundedMantissa = nearestEven m k := by
  have hmantissa := shiftRight_mantissa (ExtendedMantissa.ofMantissaAndAccuracy m .exact) k
  obtain ⟨hround, hsticky⟩ := shiftRight_residual m k
  rw [mantissa_ofMantissaAndAccuracy] at hmantissa
  have hpos : 0 < 2 ^ k := Nat.two_pow_pos k
  generalize ExtendedMantissa.ofMantissaAndAccuracy m .exact >>> k = em
    at hmantissa hround hsticky ⊢
  obtain ⟨mantissa, roundBit, stickyBit⟩ := em
  simp only at hmantissa hround hsticky
  unfold nearestEven ExtendedMantissa.roundedMantissa
  cases roundBit <;> cases stickyBit <;>
    simp only [ExtendedMantissa.accuracy, Accuracy.roundToNearestEven, true_iff, Bool.false_eq_true,
      false_iff] at hround hsticky ⊢
  · rw [if_neg (by omega), if_neg (by omega), hmantissa, add_zero]
  · rw [if_neg (by omega), if_neg (by omega), hmantissa, add_zero]
  · rw [if_neg (by omega), if_pos (by omega), hmantissa]
  · rw [if_pos (by omega), hmantissa]

/-- The quotient does not change if a factor is shifted out again. -/
theorem nearestEven_shift (m k d : ℕ) : nearestEven (m * 2 ^ d) (k + d) = nearestEven m k := by
  have hpos : 0 < 2 ^ d := Nat.two_pow_pos d
  have hdiv : m * 2 ^ d / 2 ^ (k + d) = m / 2 ^ k := by
    rw [Nat.pow_add, Nat.mul_div_mul_right _ _ hpos]
  have hmod : m * 2 ^ d % 2 ^ (k + d) = m % 2 ^ k * 2 ^ d := by
    rw [Nat.pow_add, Nat.mul_mod_mul_right]
  have hlt : 2 ^ (k + d) < 2 * (m % 2 ^ k * 2 ^ d) ↔ 2 ^ k < 2 * (m % 2 ^ k) := by
    rw [Nat.pow_add, ← mul_assoc]
    exact Nat.mul_lt_mul_right hpos
  have heq : 2 * (m % 2 ^ k * 2 ^ d) = 2 ^ (k + d) ↔ 2 * (m % 2 ^ k) = 2 ^ k := by
    rw [Nat.pow_add, ← mul_assoc]
    exact Nat.mul_left_inj hpos.ne'
  unfold nearestEven
  rw [hdiv, hmod]
  simp only [hlt, heq]

theorem nearestEven_mono {m m' : ℕ} (h : m ≤ m') (k : ℕ) : nearestEven m k ≤ nearestEven m' k := by
  have hquotient : m / 2 ^ k ≤ m' / 2 ^ k := Nat.div_le_div_right h
  have hm := Nat.div_add_mod m (2 ^ k)
  have hm' := Nat.div_add_mod m' (2 ^ k)
  have hbit := Nat.mod_lt (m / 2 ^ k) Nat.two_pos
  have hbit' := Nat.mod_lt (m' / 2 ^ k) Nat.two_pos
  unfold nearestEven
  rcases hquotient.eq_or_lt with heq | hlt
  · -- with the same quotient the remainders are in order
    rw [heq] at hm hbit ⊢
    have hremainder : m % 2 ^ k ≤ m' % 2 ^ k := by omega
    split_ifs <;> omega
  · split_ifs <;> omega

/-- Rounding stays within the bits that are kept, or fills one more. -/
theorem nearestEven_le {m k b : ℕ} (h : m < b * 2 ^ k) : nearestEven m k ≤ b := by
  have hquotient : m / 2 ^ k < b := Nat.div_lt_of_lt_mul (by rwa [mul_comm])
  have hbit := Nat.mod_lt (m / 2 ^ k) Nat.two_pos
  unfold nearestEven
  split_ifs <;> omega

theorem le_nearestEven {m k b : ℕ} (h : b * 2 ^ k ≤ m) : b ≤ nearestEven m k :=
  ((Nat.le_div_iff_mul_le (Nat.two_pow_pos k)).2 h).trans (Nat.le_add_right _ _)

/-! ### Rounding to a format -/

/-- The exponent of a number after rounding, unless rounding fills one more bit. -/
def roundedExponent (format : Format) (m : ℕ) (e : ℤ) : ℤ :=
  format.targetExponent (totalExponent m e)

/-- The place of a number after rounding. -/
def roundedPlace (format : Format) (m : ℕ) (e : ℤ) : ℤ :=
  (roundedExponent format m e - format.minExponent) * fractions format +
    nearestEven m (roundedExponent format m e - e).toNat

theorem roundedExponent_eq (format : Format) (m : ℕ) (e : ℤ) : roundedExponent format m e =
    max (m.log2 + e - format.mantissaBitsWithoutImplicit) format.minExponent := by
  unfold roundedExponent Format.targetExponent totalExponent Format.mantissaBits
  congr 1
  push_cast
  ring

theorem minExponent_le_roundedExponent (format : Format) (m : ℕ) (e : ℤ) :
    format.minExponent ≤ roundedExponent format m e := by
  rw [roundedExponent_eq]
  exact le_max_right _ _

section Round

variable {m : ℕ} {e : ℤ}

/-- Shifting leaves at most all bits of the mantissa. -/
theorem lt_fractions_shift (he : e ≤ roundedExponent format m e) :
    m < 2 * fractions format * 2 ^ (roundedExponent format m e - e).toNat := by
  rw [roundedExponent_eq] at he ⊢
  rw [← two_pow_mantissaBits, ← Nat.pow_add]
  refine Nat.lt_log2_self.trans_le (Nat.pow_le_pow_right Nat.two_pos ?_)
  rw [Format.mantissaBits]
  omega

/-- Beyond the least exponent shifting leaves the leading bit in its place. -/
theorem fractions_shift_le (hm : 0 < m) (he : e ≤ roundedExponent format m e)
    (hleast : format.minExponent < roundedExponent format m e) :
    fractions format * 2 ^ (roundedExponent format m e - e).toNat ≤ m := by
  rw [roundedExponent_eq] at he hleast ⊢
  rw [fractions, ← Nat.pow_add]
  refine (Nat.pow_le_pow_right Nat.two_pos ?_).trans (Nat.log2_self_le hm.ne')
  omega

/-- At most all bits of the mantissa are filled, or exactly one more. -/
theorem nearestEven_le_fractions (he : e ≤ roundedExponent format m e) :
    nearestEven m (roundedExponent format m e - e).toNat ≤ 2 * fractions format :=
  nearestEven_le (lt_fractions_shift he)

/-- Beyond the least exponent the leading bit is set. -/
theorem fractions_le_nearestEven (hm : 0 < m) (he : e ≤ roundedExponent format m e)
    (hleast : format.minExponent < roundedExponent format m e) :
    fractions format ≤ nearestEven m (roundedExponent format m e - e).toNat :=
  le_nearestEven (fractions_shift_le hm he hleast)

/-- Rounding to a format keeps the order. -/
theorem roundedPlace_mono {m' d : ℕ} (hm : 0 < m) (hle : m ≤ m' * 2 ^ d)
    (he : e ≤ roundedExponent format m e) (he' : e + d ≤ roundedExponent format m' (e + d)) :
    roundedPlace format m e ≤ roundedPlace format m' (e + d) := by
  have hm' : 0 < m' := Nat.pos_of_mul_pos_right (hm.trans_le hle)
  have hlog : m.log2 ≤ m'.log2 + d := by
    refine Nat.lt_succ_iff.1 ((Nat.log2_lt hm.ne').2 (hle.trans_lt ?_))
    have hstep : m' * 2 ^ d < 2 ^ (m'.log2 + 1) * 2 ^ d :=
      Nat.mul_lt_mul_of_pos_right Nat.lt_log2_self (Nat.two_pow_pos d)
    rwa [← Nat.pow_add, Nat.add_right_comm] at hstep
  have hexponent : roundedExponent format m e ≤ roundedExponent format m' (e + d) := by
    rw [roundedExponent_eq, roundedExponent_eq]
    omega
  unfold roundedPlace
  rcases hexponent.eq_or_lt with heq | hlt
  · -- the same exponent: compare the quotients
    have hshift : (roundedExponent format m e - e).toNat =
        (roundedExponent format m' (e + d) - (e + d)).toNat + d := by
      omega
    have hmono := nearestEven_mono hle (roundedExponent format m e - e).toNat
    have hcancel := nearestEven_shift m' (roundedExponent format m' (e + d) - (e + d)).toNat d
    rw [← hshift] at hcancel
    rw [hcancel] at hmono
    rw [heq] at hmono ⊢
    omega
  · -- a larger exponent: one place more than all places of the smaller one
    have hsmall := nearestEven_le_fractions he
    have hlarge := fractions_le_nearestEven hm' he'
      ((minExponent_le_roundedExponent format m e).trans_lt hlt)
    have hstep : (roundedExponent format m e - format.minExponent + 1) * (fractions format : ℤ) ≤
        (roundedExponent format m' (e + d) - format.minExponent) * fractions format :=
      mul_le_mul_of_nonneg_right (by omega) (fractions_pos format).le
    rw [add_mul, one_mul] at hstep
    omega

/-- The shift after rounding changes nothing, unless one more bit was filled. -/
theorem shiftToTargetExponent_rounded {r : ℕ} {t : ℤ} (hr : r ≤ 2 * fractions format)
    (ht : format.minExponent ≤ t) :
    (shiftToTargetExponent format r t .exact).1.mantissa =
        (if r < 2 * fractions format then r else fractions format) ∧
      (shiftToTargetExponent format r t .exact).2 =
        if r < 2 * fractions format then t else t + 1 := by
  have htarget := roundedExponent_eq format r t
  have hmantissa := format.hm
  unfold roundedExponent at htarget
  unfold shiftToTargetExponent shiftToExponent
  simp only [htarget, shiftRight_mantissa, mantissa_ofMantissaAndAccuracy]
  by_cases hlt : r < 2 * fractions format
  · have hlog : r.log2 ≤ format.mantissaBitsWithoutImplicit := by
      by_cases hzero : r = 0
      · rw [hzero, Nat.log2_zero]
        exact Nat.zero_le _
      · refine Nat.lt_succ_iff.1 ((Nat.log2_lt hzero).2 ?_)
        rwa [Nat.pow_succ, mul_comm]
    have hshift : (max (r.log2 + t - format.mantissaBitsWithoutImplicit) format.minExponent -
        t).toNat = 0 := by
      omega
    rw [hshift, if_pos hlt, if_pos hlt, pow_zero, Nat.div_one]
    exact ⟨rfl, by omega⟩
  · have heq : r = 2 ^ (format.mantissaBitsWithoutImplicit + 1) := by
      rw [Nat.pow_succ, mul_comm]
      exact le_antisymm hr (not_lt.1 hlt)
    have hlog : r.log2 = format.mantissaBitsWithoutImplicit + 1 := by
      rw [heq, Nat.log2_two_pow]
    have hshift : (max (r.log2 + t - format.mantissaBitsWithoutImplicit) format.minExponent -
        t).toNat = 1 := by
      omega
    rw [hshift, if_neg hlt, if_neg hlt, heq, Nat.pow_succ, pow_one,
      Nat.mul_div_cancel _ Nat.two_pos]
    exact ⟨rfl, by omega⟩

/-- The shift after rounding leaves a number in its place, also if one more bit was filled. -/
theorem placeOf_shiftToTargetExponent {r : ℕ} {t : ℤ} (hr : r ≤ 2 * fractions format)
    (ht : format.minExponent ≤ t) :
    placeOf format (shiftToTargetExponent format r t .exact).1.mantissa
        (shiftToTargetExponent format r t .exact).2 =
      (t - format.minExponent) * fractions format + r := by
  obtain ⟨hmantissa, hexponent⟩ := shiftToTargetExponent_rounded hr ht
  rw [hmantissa, hexponent, placeOf]
  by_cases hlt : r < 2 * fractions format
  · rw [if_pos hlt, if_pos hlt]
  · -- the place is the same with the next exponent
    have heq : r = 2 * fractions format := le_antisymm hr (not_lt.1 hlt)
    rw [if_neg hlt, if_neg hlt, heq]
    push_cast
    ring

/-- The first shift ends at the exponent of the result. -/
theorem shiftToTargetExponent_eq (accuracy : Accuracy) (he : e ≤ roundedExponent format m e) :
    shiftToTargetExponent format m e accuracy =
      (ExtendedMantissa.ofMantissaAndAccuracy m accuracy >>> (roundedExponent format m e - e).toNat,
        roundedExponent format m e) := by
  unfold shiftToTargetExponent shiftToExponent
  refine Prod.ext rfl ?_
  change e + ((roundedExponent format m e - e).toNat : ℤ) = roundedExponent format m e
  omega

/-- The second shift ends in a canonical number, unless everything was rounded away. -/
theorem canonical_rounded {r : ℕ} {t : ℤ} (hpos : 0 < r) (hr : r ≤ 2 * fractions format)
    (ht : format.minExponent ≤ t) (hfull : format.minExponent < t → fractions format ≤ r) :
    Canonical format (shiftToTargetExponent format r t .exact).1.mantissa
      (shiftToTargetExponent format r t .exact).2 := by
  obtain ⟨hmantissa, hexponent⟩ := shiftToTargetExponent_rounded hr ht
  have htwo := two_le_fractions format
  rw [hmantissa, hexponent]
  by_cases hlt : r < 2 * fractions format
  · rw [if_pos hlt, if_pos hlt]
    exact ⟨hpos, hlt, ht, by omega⟩
  · rw [if_neg hlt, if_neg hlt]
    exact ⟨by omega, by omega, by omega, Or.inr le_rfl⟩

/-- Rounding gives zero, or a canonical number in its place. -/
theorem roundWithAccuracy_place (sign : Sign) (hm : 0 < m) (he : e ≤ roundedExponent format m e) :
    (roundWithAccuracy format sign m e .exact = .zero sign ∧ roundedPlace format m e = 0) ∨
      ∃ m' e', ∃ h : Canonical format m' e',
        roundWithAccuracy format sign m e .exact = .finite sign m' e' h.pos ∧
          placeOf format m' e' = roundedPlace format m e := by
  have hleast := minExponent_le_roundedExponent format m e
  have hsmall := nearestEven_le_fractions he
  have hlarge := fractions_le_nearestEven hm he
  have htwo := two_le_fractions format
  have hcanonical (hpos : 0 < nearestEven m (roundedExponent format m e - e).toNat) :=
    canonical_rounded hpos hsmall hleast hlarge
  obtain ⟨hmantissa, -⟩ := shiftToTargetExponent_rounded hsmall hleast
  have hplace := placeOf_shiftToTargetExponent hsmall hleast
  unfold roundWithAccuracy roundedPlace
  rw [shiftToTargetExponent_eq .exact he]
  dsimp only
  rw [roundedMantissa_shiftRight]
  generalize shiftToTargetExponent format
    (nearestEven m (roundedExponent format m e - e).toNat) (roundedExponent format m e) .exact =
      second at hmantissa hplace hcanonical ⊢
  generalize nearestEven m (roundedExponent format m e - e).toNat = r at *
  rcases Nat.eq_zero_or_pos r with hzero | hpos
  · have heq : roundedExponent format m e = format.minExponent := by omega
    have hlt : r < 2 * fractions format := by omega
    rw [if_pos hlt] at hmantissa
    refine Or.inl ⟨dif_pos (hmantissa.trans hzero), ?_⟩
    rw [heq, sub_self, zero_mul, hzero]
    rfl
  · exact Or.inr ⟨_, _, hcanonical hpos, dif_neg (hcanonical hpos).pos.ne', hplace⟩

end Round

/-! ### Products -/

/-- A product has at least as many bits as a format keeps, or is far below its least
exponent. -/
theorem Canonical.mul_exponent_le {m m' : ℕ} {e e' : ℤ} (h : Canonical format m e)
    (h' : Canonical format m' e') : e + e' ≤ roundedExponent format (m * m') (e + e') := by
  have hpos : 0 < m * m' := Nat.mul_pos h.pos h'.pos
  rw [roundedExponent_eq]
  by_cases hfull : fractions format ≤ m * m'
  · have hlog : format.mantissaBitsWithoutImplicit ≤ (m * m').log2 := (Nat.le_log2 hpos.ne').2 hfull
    omega
  · have hm : ¬ fractions format ≤ m := fun hle =>
      hfull (hle.trans (Nat.le_mul_of_pos_right m h'.pos))
    have hm' : ¬ fractions format ≤ m' := fun hle =>
      hfull (hle.trans (Nat.le_mul_of_pos_left m' h.pos))
    have he := h.normal.resolve_right hm
    have he' := h'.normal.resolve_right hm'
    have hleast := minExponent_nonpos format
    omega

/-- Canonical numbers in order: the later one has the larger exponent. -/
theorem Canonical.exists_shift {m m' : ℕ} {e e' : ℤ} (h : Canonical format m e)
    (h' : Canonical format m' e') (hle : placeOf format m e ≤ placeOf format m' e') :
    ∃ d : ℕ, e' = e + d ∧ m ≤ m' * 2 ^ d := by
  rcases lt_trichotomy e e' with hlt | rfl | hgt
  · have hfull : fractions format ≤ m' := h'.normal.resolve_left (by have := h.le; omega)
    refine ⟨(e' - e).toNat, by omega, h.lt.le.trans ?_⟩
    rw [mul_comm]
    exact Nat.mul_le_mul hfull (Nat.le_pow (by omega))
  · refine ⟨0, by simp, ?_⟩
    unfold placeOf at hle
    omega
  · exact absurd (h'.placeOf_lt h hgt) (not_lt.2 hle)

/-- The place of a number that is not negative times a finite positive one, as if every
place could be stored. -/
def scaledPlace (format : Format) (m' : ℕ) (e' : ℤ) : UnpackedFloat → ℤ
  | .finite _ m e _ => roundedPlace format (m * m') (e + e')
  | .infinity _ => topPlace format
  | _ => 0

section Scaling

variable {m' : ℕ} {e' : ℤ} {x y : UnpackedFloat}

theorem roundedPlace_nonneg (format : Format) (m : ℕ) (e : ℤ) : 0 ≤ roundedPlace format m e := by
  have hleast := minExponent_le_roundedExponent format m e
  have hproduct : 0 ≤ (roundedExponent format m e - format.minExponent) * (fractions format : ℤ) :=
    mul_nonneg (by omega) (fractions_pos format).le
  unfold roundedPlace
  omega

theorem scaledPlace_nonneg (format : Format) (m' : ℕ) (e' : ℤ) (x : UnpackedFloat) :
    0 ≤ scaledPlace format m' e' x := by
  cases x with
  | notANumber => exact le_rfl
  | infinity s => exact (topPlace_pos format).le
  | zero s => exact le_rfl
  | finite s m e hm => exact roundedPlace_nonneg format _ _

/-- Scaling keeps the order, up to the cut at infinity. -/
theorem scaledPlace_mono (h' : Canonical format m' e') (hx : Representable format x)
    (hy : Representable format y) (hx₀ : 0 ≤ place format x)
    (hle : place format x ≤ place format y) :
    min (topPlace format) (scaledPlace format m' e' x) ≤
      min (topPlace format) (scaledPlace format m' e' y) := by
  have htop := topPlace_pos format
  have hy₀ := scaledPlace_nonneg format m' e' y
  cases x with
  | notANumber => exact min_le_min le_rfl hy₀
  | zero s => exact min_le_min le_rfl hy₀
  | infinity s =>
      -- nothing but infinity is as large
      cases s with
      | negative => exact absurd hx₀ (not_le.2 (neg_lt_zero.2 htop))
      | positive =>
          cases y with
          | notANumber => exact absurd hle (not_le.2 htop)
          | zero s => exact absurd hle (not_le.2 htop)
          | infinity s => exact le_rfl
          | finite s m e hm =>
              have hpos := hy.1.placeOf_pos
              have hfits := hy.2
              cases s <;> simp only [place, Sign.apply] at hle <;> omega
  | finite s m e hm =>
      have hpos := hx.1.placeOf_pos
      cases s with
      | negative => exact absurd hx₀ (not_le.2 (neg_lt_zero.2 hpos))
      | positive =>
          cases y with
          | notANumber => exact absurd hle (not_le.2 hpos)
          | zero s => exact absurd hle (not_le.2 hpos)
          | infinity s => exact min_le_left _ _ |>.trans (min_self _).ge
          | finite s m₂ e₂ hm₂ =>
              have hpos₂ := hy.1.placeOf_pos
              cases s with
              | negative =>
                  simp only [place, Sign.apply] at hle
                  omega
              | positive =>
                  obtain ⟨d, rfl, hmantissa⟩ := hx.1.exists_shift hy.1 hle
                  have hexponent : e + d + e' = e + e' + d := by ring
                  have hmantissa' : m * m' ≤ m₂ * m' * 2 ^ d := by
                    rw [mul_right_comm]
                    exact Nat.mul_le_mul_right m' hmantissa
                  have hbound := hy.1.mul_exponent_le h'
                  refine min_le_min le_rfl ?_
                  change roundedPlace format (m * m') (e + e') ≤
                    roundedPlace format (m₂ * m') (e + d + e')
                  rw [hexponent] at hbound ⊢
                  exact roundedPlace_mono (Nat.mul_pos hm h'.pos) hmantissa'
                    (hx.1.mul_exponent_le h') hbound

/-- A number that is not negative, times a finite positive one. -/
theorem place_mul (hbits : 2 ≤ format.exponentBits) (h' : Canonical format m' e')
    (hx : Representable format x) (hx' : x.isNaN = false) (hx₀ : 0 ≤ place format x) :
    (unpack format (pack format (mul format x (.finite .positive m' e' h'.pos)))).isNaN = false ∧
      place format (unpack format (pack format (mul format x (.finite .positive m' e' h'.pos)))) =
        min (topPlace format) (scaledPlace format m' e' x) := by
  have htop := topPlace_pos format
  cases x with
  | notANumber => exact absurd hx' (by decide)
  | infinity s =>
      cases s with
      | negative => exact absurd hx₀ (not_le.2 (neg_lt_zero.2 htop))
      | positive =>
          have hproduct : mul format (.infinity .positive) (.finite .positive m' e' h'.pos) =
              .infinity .positive := rfl
          rw [hproduct, unpack_pack_infinity]
          exact ⟨rfl, (min_self _).symm⟩
  | zero s =>
      have hproduct : mul format (.zero s) (.finite .positive m' e' h'.pos) =
          .zero (s * .positive) := rfl
      rw [hproduct, unpack_pack_zero]
      exact ⟨rfl, (min_eq_right htop.le).symm⟩
  | finite s m e hm =>
      have hpos := hx.1.placeOf_pos
      cases s with
      | negative => exact absurd hx₀ (not_le.2 (neg_lt_zero.2 hpos))
      | positive =>
          have hproduct : mul format (.finite .positive m e hm) (.finite .positive m' e' h'.pos) =
              roundWithAccuracy format .positive (m * m') (e + e') .exact := rfl
          have hscaled : scaledPlace format m' e' (.finite .positive m e hm) =
              roundedPlace format (m * m') (e + e') := rfl
          rw [hproduct, hscaled]
          rcases roundWithAccuracy_place .positive (Nat.mul_pos hm h'.pos)
            (hx.1.mul_exponent_le h') with ⟨hround, hzero⟩ | ⟨m₂, e₂, h₂, hround, hplace⟩
          · rw [hround, unpack_pack_zero, hzero]
            exact ⟨rfl, (min_eq_right htop.le).symm⟩
          · rw [hround, h₂.unpack_pack hbits, ← hplace]
            by_cases hcut : topPlace format ≤ placeOf format m₂ e₂
            · rw [if_pos hcut, min_eq_left hcut]
              exact ⟨rfl, rfl⟩
            · rw [if_neg hcut, min_eq_right (not_le.1 hcut).le]
              exact ⟨rfl, rfl⟩

end Scaling

end DenseFactor.Rounding
