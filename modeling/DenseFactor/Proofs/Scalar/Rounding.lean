import Mathlib
import DenseFactor.Proofs.Scalar.Monotone

/-!
# DenseFactor.Proofs.Scalar.Rounding

Binary64 operations whose results are **normal**: neither zero nor infinite, with a
full mantissa and an exponent in known bounds.

Design points:

* Rounding may lengthen a mantissa by one bit and then shortens it again. It never
  removes the leading bit, so a mantissa that is full before rounding is full
  afterwards, and the exponent grows by at most one more than the excess of bits.
* Integers of at most 64 bits are normal with small exponents, so their quotients
  cannot underflow or overflow. This is all that an order by rounded quotients needs.
-/

namespace DenseFactor.Rounding

open Float.Model Float.Model.UnpackedFloat

/-- A finite number with a full mantissa and an exponent between the bounds. -/
inductive Normal (low high : ℤ) : UnpackedFloat → Prop
  | finite (sign : Sign) (m : ℕ) (e : ℤ) (hpos : 0 < m) (hlow : 2 ^ 52 ≤ m)
      (hhigh : m < 2 ^ 53) (hle : low ≤ e) (hge : e ≤ high) :
      Normal low high (.finite sign m e hpos)

theorem Normal.widen {low high low' high' : ℤ} {x : UnpackedFloat} (h : Normal low high x)
    (hlow : low' ≤ low) (hhigh : high ≤ high') : Normal low' high' x := by
  cases h with
  | finite sign m e hpos hm hm' hle hge =>
      exact .finite sign m e hpos hm hm' (by omega) (by omega)

/-! ### Rounding -/

/-- Rounding adds one unit at most. -/
theorem roundedMantissa_mem (em : ExtendedMantissa) :
    em.mantissa ≤ em.roundedMantissa ∧ em.roundedMantissa ≤ em.mantissa + 1 := by
  unfold ExtendedMantissa.roundedMantissa
  cases em.accuracy with
  | exact => simp [Accuracy.roundToNearestEven]
  | inexact order =>
      cases order with
      | lt => simp [Accuracy.roundToNearestEven]
      | eq =>
          simp only [Accuracy.roundToNearestEven]
          omega
      | gt => simp [Accuracy.roundToNearestEven]

theorem targetExponent_binary64 (t : ℤ) :
    Format.binary64.targetExponent t = max (t - 53) (-1074) := rfl

/-- A mantissa of enough bits keeps its first 53. -/
theorem shiftToTargetExponent_mem {m : ℕ} {e : ℤ} (hm : 2 ^ 52 ≤ m) (he : -1074 ≤ e)
    (accuracy : Accuracy) :
    2 ^ 52 ≤ (shiftToTargetExponent .binary64 m e accuracy).1.mantissa ∧
      (shiftToTargetExponent .binary64 m e accuracy).1.mantissa < 2 ^ 53 ∧
      (shiftToTargetExponent .binary64 m e accuracy).2 = e + (m.log2 - 52) := by
  have hne : m ≠ 0 := by omega
  have hlog : 52 ≤ m.log2 := (Nat.le_log2 hne).2 hm
  have hshift : (Format.binary64.targetExponent (totalExponent m e) - e).toNat =
      m.log2 - 52 := by
    rw [targetExponent_binary64, totalExponent]
    omega
  unfold shiftToTargetExponent shiftToExponent
  simp only [hshift, shiftRight_mantissa, mantissa_ofMantissaAndAccuracy]
  have hlow : 2 ^ 52 * 2 ^ (m.log2 - 52) ≤ m := by
    rw [← Nat.pow_add, Nat.add_sub_cancel' hlog]
    exact Nat.log2_self_le hne
  have hhigh : m < 2 ^ 53 * 2 ^ (m.log2 - 52) := by
    rw [← Nat.pow_add]
    have hsum : 53 + (m.log2 - 52) = m.log2 + 1 := by omega
    rw [hsum]
    exact Nat.lt_log2_self
  refine ⟨?_, ?_, ?_⟩
  · exact (Nat.le_div_iff_mul_le (Nat.two_pow_pos _)).2 hlow
  · exact (Nat.div_lt_iff_lt_mul (Nat.two_pow_pos _)).2 hhigh
  · omega

/-- Rounding a mantissa of enough bits gives a normal number. -/
theorem normal_roundWithAccuracy (sign : Sign) {m : ℕ} {e : ℤ} (hm : 2 ^ 52 ≤ m)
    (he : -1074 ≤ e) (accuracy : Accuracy) :
    Normal e (e + (m.log2 - 51)) (roundWithAccuracy .binary64 sign m e accuracy) := by
  have hlog : 52 ≤ m.log2 := (Nat.le_log2 (by omega)).2 hm
  obtain ⟨hlow, hhigh, hexp⟩ := shiftToTargetExponent_mem hm he accuracy
  unfold roundWithAccuracy
  generalize shiftToTargetExponent .binary64 m e accuracy = first at hlow hhigh hexp ⊢
  obtain ⟨hle, hge⟩ := roundedMantissa_mem first.1
  have hround : first.1.roundedMantissa.log2 ≤ 53 := by
    have hlt : first.1.roundedMantissa < 2 ^ 54 := by omega
    have := (Nat.log2_lt (by omega)).2 hlt
    omega
  -- the second shift takes back the bit that rounding may have added
  obtain ⟨hlow', hhigh', hexp'⟩ := shiftToTargetExponent_mem (m := first.1.roundedMantissa)
    (e := first.2) (by omega) (by omega) .exact
  have hlog' : 52 ≤ first.1.roundedMantissa.log2 := (Nat.le_log2 (by omega)).2 (by omega)
  simp only
  rw [dif_neg (by omega)]
  exact .finite _ _ _ _ hlow' hhigh' (by omega) (by omega)

/-! ### Packing -/

/-- A normal number within the exponents of the format is stored as it is. -/
theorem Normal.unpack_pack {x : UnpackedFloat} (h : Normal (-1074) 970 x) :
    (Float.Model.pack x).unpack = x := by
  cases h with
  | finite sign m e hpos hlow hhigh hle hge =>
      have hcanonical : Canonical .binary64 m e :=
        ⟨hpos, hhigh, hle, Or.inr hlow⟩
      have hplace : placeOf .binary64 m e = (e + 1074) * 2 ^ 52 + m := rfl
      have htop : topPlace .binary64 = 2047 * 2 ^ 52 := rfl
      have hfits : Representable .binary64 (.finite sign m e hpos) :=
        ⟨hcanonical, by omega⟩
      exact hfits.unpack_pack (by decide)

/-! ### Integers -/

/-- A positive integer of at most 64 bits is normal after rounding. -/
theorem normal_round (sign : Sign) {n : ℕ} (hpos : 0 < n) (hn : n ≤ 2 ^ 63) :
    Normal (-52) 12 (UnpackedFloat.round .binary64 sign n 0) := by
  have hlog : n.log2 ≤ 63 := by
    have hlt : n < 2 ^ 64 := by omega
    have := (Nat.log2_lt hpos.ne').2 hlt
    omega
  have htarget : Format.binary64.targetExponent (totalExponent n 0) = (n.log2 : ℤ) - 52 := by
    rw [targetExponent_binary64, totalExponent]
    omega
  have hshift : (0 - ((n.log2 : ℤ) - 52)).toNat = 52 - n.log2 := by omega
  unfold UnpackedFloat.round decreaseExponent
  simp only [htarget, hshift, Nat.shiftLeft_eq]
  -- shifted left until the mantissa is full
  have hfull : 2 ^ 52 ≤ n * 2 ^ (52 - n.log2) := by
    calc 2 ^ 52 ≤ 2 ^ n.log2 * 2 ^ (52 - n.log2) := by
          rw [← Nat.pow_add]
          exact Nat.pow_le_pow_right (by decide) (by omega)
      _ ≤ n * 2 ^ (52 - n.log2) := Nat.mul_le_mul_right _ (Nat.log2_self_le hpos.ne')
  refine (normal_roundWithAccuracy sign hfull (by omega) .exact).widen (by omega) ?_
  rw [log2_mul_two_pow hpos.ne']
  omega

theorem normal_ofInteger {n : ℤ} (hne : n ≠ 0) (hn : n.natAbs ≤ 2 ^ 63) :
    Normal (-52) 12 (ofInteger n).toModel.unpack := by
  have hround : Normal (-52) 12 (UnpackedFloat.ofInt .binary64 n) := by
    unfold UnpackedFloat.ofInt UnpackedFloat.normalize
    rcases lt_trichotomy n 0 with hlt | heq | hgt
    · rw [Int.compare_eq_lt.2 hlt]
      exact normal_round _ (by omega) (by omega)
    · exact absurd heq hne
    · rw [Int.compare_eq_gt.2 hgt]
      exact normal_round _ (by omega) (by omega)
  unfold ofInteger Float.Model.ofInt
  rw [(hround.widen (by omega) (by omega)).unpack_pack]
  exact hround

/-! ### Quotients -/

/-- A quotient of normal numbers with small exponents is normal. -/
theorem Normal.div {x y : UnpackedFloat} (hx : Normal (-52) 12 x) (hy : Normal (-52) 12 y) :
    Normal (-117) 13 (UnpackedFloat.div .binary64 x y) := by
  cases hx with
  | finite sign₁ m₁ e₁ hpos₁ hlow₁ hhigh₁ hle₁ hge₁ =>
      cases hy with
      | finite sign₂ m₂ e₂ hpos₂ hlow₂ hhigh₂ hle₂ hge₂ =>
          have hlog₁ : m₁.log2 = 52 := (Nat.log2_eq_iff hpos₁.ne').2 ⟨hlow₁, hhigh₁⟩
          have hlog₂ : m₂.log2 = 52 := (Nat.log2_eq_iff hpos₂.ne').2 ⟨hlow₂, hhigh₂⟩
          have htarget : min (e₁ - e₂) (Format.binary64.targetExponent
              (totalExponent m₁ e₁ - totalExponent m₂ e₂)) = e₁ - e₂ - 53 := by
            rw [targetExponent_binary64, totalExponent, totalExponent]
            omega
          have hshift : (e₁ - e₂ - (e₁ - e₂ - 53)).toNat = 53 := by omega
          unfold UnpackedFloat.div divCore
          simp only [htarget, hshift, Nat.shiftLeft_eq]
          -- the dividend is scaled so that the quotient has at least 53 bits
          have hfull : 2 ^ 52 ≤ m₁ * 2 ^ 53 / m₂ := by
            rw [Nat.le_div_iff_mul_le hpos₂]
            omega
          have hlog : (m₁ * 2 ^ 53 / m₂).log2 ≤ 53 := by
            have hlt : m₁ * 2 ^ 53 / m₂ < 2 ^ 54 := by
              rw [Nat.div_lt_iff_lt_mul hpos₂]
              omega
            have := (Nat.log2_lt (by omega)).2 hlt
            omega
          exact (normal_roundWithAccuracy _ hfull (by omega) _).widen (by omega) (by omega)

/-- The modulus of a quotient of two integers. -/
theorem quotient_positive {n d : ℤ} (hn : n ≠ 0) (hn' : n.natAbs ≤ 2 ^ 63) (hd : d ≠ 0)
    (hd' : d.natAbs ≤ 2 ^ 63) :
    ∃ m e hpos, (ofInteger n / ofInteger d).abs.toModel.unpack = .finite .positive m e hpos := by
  have hquotient : (ofInteger n / ofInteger d).toModel.unpack =
      UnpackedFloat.div .binary64 (ofInteger n).toModel.unpack (ofInteger d).toModel.unpack :=
    (((normal_ofInteger hn hn').div (normal_ofInteger hd hd')).widen
      (by omega) (by omega)).unpack_pack
  have habs : (ofInteger n / ofInteger d).abs.toModel.unpack =
      (Float.Model.pack (ofInteger n / ofInteger d).toModel.unpack.abs).unpack := rfl
  have hnormal := (normal_ofInteger hn hn').div (normal_ofInteger hd hd')
  rw [habs, hquotient]
  generalize UnpackedFloat.div .binary64 (ofInteger n).toModel.unpack
    (ofInteger d).toModel.unpack = q at hnormal
  cases hnormal with
  | finite sign m e hpos hlow hhigh hle hge =>
      refine ⟨m, e, hpos, ?_⟩
      exact Normal.unpack_pack (.finite .positive m e hpos hlow hhigh (by omega) (by omega))

/-! ### Order -/

/-- The order of binary64 numbers is that of the numbers taken apart. -/
theorem lt_iff_compare (x y : Float) :
    x < y ↔ x.toModel.unpack.compare y.toModel.unpack = some .lt := by
  have hbool : x < y ↔ (x.toModel.unpack.compare y.toModel.unpack == some .lt) = true := by
    change Float.lt x y = true ↔ _
    simp [Float.lt, LT.lt, Float.Model.lt, UnpackedFloat.lt]
  rw [hbool, beq_iff_eq]

end DenseFactor.Rounding
