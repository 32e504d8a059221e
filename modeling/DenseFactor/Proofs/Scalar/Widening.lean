import Mathlib
import DenseFactor.Proofs.Scalar.Identity
import DenseFactor.Proofs.Scalar.Rounding
import DenseFactor.Proofs.Scalar.Sign

/-!
# DenseFactor.Proofs.Scalar.Widening

Comparing numbers **as binary64 numbers**: widening keeps every comparison.

Design points:

* A finite binary32 number is widened by filling its mantissa with zeros from the right until
  the leading bit is set. Nothing is rounded, and no exponent is out of range.
* Numbers are compared by their exponents and then by their mantissas. Two that differ in the
  exponent still do so afterwards, since the one with the larger exponent had its leading bit
  set. Two with one exponent are told apart by their leading bits or shifted alike.
-/

namespace DenseFactor

namespace Rounding

open Float.Model Float.Model.UnpackedFloat

variable {m m' : ℕ} {e e' : ℤ}

/-- The bits of a binary64 mantissa that a smaller one leaves. -/
def spareBits (m : ℕ) : ℕ := 52 - m.log2

theorem Canonical.log2_le (h : Canonical .binary32 m e) : m.log2 ≤ 23 :=
  Nat.lt_succ_iff.1 ((Nat.log2_lt h.pos.ne').2 h.lt)

theorem Canonical.minExponent_le (h : Canonical .binary32 m e) : -149 ≤ e := h.le

/-- The widened mantissa has its leading bit set. -/
theorem Canonical.widen (h : Canonical .binary32 m e) :
    Canonical .binary64 (m * 2 ^ spareBits m) (e - spareBits m) := by
  have hlog := h.log2_le
  have hleast := h.minExponent_le
  have hbits : m.log2 + spareBits m = 52 := by
    unfold spareBits
    omega
  have hfull : 2 ^ 52 ≤ m * 2 ^ spareBits m := by
    rw [← hbits, Nat.pow_add]
    exact Nat.mul_le_mul_right _ (Nat.log2_self_le h.pos.ne')
  have hlt : m * 2 ^ spareBits m < 2 * 2 ^ 52 := by
    rw [← hbits, Nat.pow_add, ← mul_assoc, ← Nat.pow_succ']
    exact Nat.mul_lt_mul_of_pos_right Nat.lt_log2_self (Nat.two_pow_pos _)
  have hexponent : (-1074 : ℤ) ≤ e - spareBits m := by omega
  exact ⟨by omega, hlt, hexponent, .inr hfull⟩

/-- A finite number is widened without rounding. -/
theorem nearest_finite (h : Canonical .binary32 m e) (sign : Sign) :
    nearest .binary64 (.finite sign m e h.pos) =
      .finite sign (m * 2 ^ spareBits m) (e - spareBits m) h.widen.pos := by
  have hlog := h.log2_le
  have hleast := h.minExponent_le
  have htarget : Format.binary64.targetExponent (totalExponent m e) = e - spareBits m := by
    rw [targetExponent_binary64, totalExponent, spareBits]
    omega
  have hshift : (e - (e - (spareBits m : ℤ))).toNat = spareBits m := by omega
  have hround := h.widen.round_shift sign 0
  rw [pow_zero, mul_one, Nat.cast_zero, sub_zero] at hround
  rw [nearest, UnpackedFloat.round, decreaseExponent]
  simp only [htarget, hshift, Nat.shiftLeft_eq]
  exact hround

/-! ### Order -/

/-- A number with a larger exponent is widened to one. -/
theorem Canonical.exponent_widen_lt (h : Canonical .binary32 m e)
    (h' : Canonical .binary32 m' e') (he : e < e') : e - spareBits m < e' - spareBits m' := by
  have hleast := h.le
  have hfull : 2 ^ 23 ≤ m' := h'.normal.resolve_left (by omega)
  have hlog : m.log2 ≤ m'.log2 := h.log2_le.trans ((Nat.le_log2 h'.pos.ne').2 hfull)
  unfold spareBits
  omega

/-- Widening keeps the order of places. -/
theorem Canonical.placeOf_widen_lt (h : Canonical .binary32 m e)
    (h' : Canonical .binary32 m' e') (hlt : placeOf .binary32 m e < placeOf .binary32 m' e') :
    placeOf .binary64 (m * 2 ^ spareBits m) (e - spareBits m) <
      placeOf .binary64 (m' * 2 ^ spareBits m') (e' - spareBits m') := by
  rcases lt_trichotomy e e' with he | rfl | he
  · exact h.widen.placeOf_lt h'.widen (h.exponent_widen_lt h' he)
  · have hm : m < m' := by
      unfold placeOf at hlt
      omega
    have hlog : m.log2 ≤ m'.log2 :=
      (Nat.le_log2 h'.pos.ne').2 ((Nat.log2_self_le h.pos.ne').trans hm.le)
    rcases hlog.eq_or_lt with hlog | hlog
    · -- the same leading bit: both are shifted alike
      have hspare : spareBits m = spareBits m' := by rw [spareBits, spareBits, hlog]
      have hshifted : m * 2 ^ spareBits m < m' * 2 ^ spareBits m' := by
        rw [hspare]
        exact Nat.mul_lt_mul_of_pos_right hm (Nat.two_pow_pos _)
      unfold placeOf
      rw [hspare] at hshifted ⊢
      omega
    · have hlog' := h'.log2_le
      refine h.widen.placeOf_lt h'.widen ?_
      unfold spareBits
      omega
  · exact absurd hlt (h'.placeOf_lt h he).not_gt

/-- Widened numbers are compared as before. -/
theorem Canonical.compare_widen (h : Canonical .binary32 m e) (h' : Canonical .binary32 m' e') :
    (compare (e - (spareBits m : ℤ)) (e' - spareBits m')).then
        (compare (m * 2 ^ spareBits m) (m' * 2 ^ spareBits m')) =
      (compare e e').then (compare m m') := by
  rw [h.widen.compare_eq h'.widen, h.compare_eq h']
  rcases lt_trichotomy (placeOf .binary32 m e) (placeOf .binary32 m' e') with hlt | heq | hgt
  · rw [Int.compare_eq_lt.2 hlt, Int.compare_eq_lt.2 (h.placeOf_widen_lt h' hlt)]
  · obtain ⟨rfl, rfl⟩ := h.placeOf_inj h' heq
    rw [Int.compare_eq_eq.2 rfl, Int.compare_eq_eq.2 rfl]
  · rw [Int.compare_eq_gt.2 hgt, Int.compare_eq_gt.2 (h'.placeOf_widen_lt h hgt)]

section Nearest

variable {x y : UnpackedFloat}

/-- A widened number fits. -/
theorem Representable.nearest_binary64 (hx : Representable .binary32 x) :
    Representable .binary64 (nearest .binary64 x) := by
  cases x with
  | finite sign m e hm =>
      obtain ⟨hcanonical, hfits⟩ := hx
      rw [nearest_finite hcanonical]
      refine ⟨hcanonical.widen, ?_⟩
      have hlog := hcanonical.log2_le
      have hlt := hcanonical.widen.lt
      have hplace : placeOf .binary32 m e = (e + 149) * 2 ^ 23 + m := rfl
      have htop : topPlace .binary32 = 255 * 2 ^ 23 := rfl
      have hplace' : placeOf .binary64 (m * 2 ^ spareBits m) (e - spareBits m) =
          (e - spareBits m + 1074) * 2 ^ 52 + (m * 2 ^ spareBits m : ℕ) := rfl
      have htop' : topPlace .binary64 = 2047 * 2 ^ 52 := rfl
      have hfractions : fractions .binary64 = 2 ^ 52 := rfl
      omega
  | _ => trivial

/-- Widened numbers compare as before, also if one is a zero, an infinity or a NaN. -/
theorem compare_nearest (hx : Representable .binary32 x) (hy : Representable .binary32 y) :
    (nearest .binary64 x).compare (nearest .binary64 y) = x.compare y := by
  cases x with
  | finite s m e hm =>
      rw [nearest_finite hx.1]
      cases y with
      | finite t m' e' hm' =>
          rw [nearest_finite hy.1]
          have hcompare := hx.1.compare_widen hy.1
          cases s <;> cases t <;> simp only [UnpackedFloat.compare, hcompare]
      | infinity t => cases s <;> cases t <;> rfl
      | _ => cases s <;> rfl
  | infinity s =>
      cases y with
      | finite t m' e' hm' =>
          rw [nearest_finite hy.1]
          cases s <;> cases t <;> rfl
      | _ => rfl
  | _ =>
      cases y with
      | finite t m' e' hm' =>
          rw [nearest_finite hy.1]
          cases t <;> rfl
      | _ => rfl

end Nearest

end Rounding

open Float.Model Float.Model.UnpackedFloat

/-! ### Binary scalar types -/

namespace BinaryScalar

/-- A widened number, taken apart. -/
theorem unpacked_widen (x : Float32) :
    unpacked (Rounding.widen x) = Rounding.nearest .binary64 (unpacked x) :=
  (representable x).nearest_binary64.unpack_pack (by decide)

theorem widen_lt_iff (x y : Float32) : Rounding.widen x < Rounding.widen y ↔ x < y := by
  have hwidened := lt_iff (Rounding.widen x) (Rounding.widen y)
  have hcompare := Rounding.compare_nearest (representable x) (representable y)
  rw [unpacked_widen, unpacked_widen, UnpackedFloat.lt, hcompare] at hwidened
  exact hwidened.trans (lt_iff x y).symm

variable {ρ : Type} [RealScalar ρ] [BinaryScalar ρ] {x : ρ}

/-- Minus infinity is below every number that is not below zero. -/
theorem bottom_lt (hx : RealScalar.isNaN x = false) (hx₀ : ¬ x < 0) : -(1 / 0) < x := by
  have htop : unpacked (1 / 0 : ρ) = .infinity .positive := by
    rw [unpacked_div, unpacked_one, unpacked_zero]
    exact Rounding.unpack_pack_infinity _ _
  have hbottom : unpacked (-(1 / 0) : ρ) = .infinity .negative := by
    rw [unpacked_neg_eq, htop]
    rfl
  have hpos := Rounding.topPlace_pos (format ρ)
  have hplace := not_neg_iff.1 hx₀
  refine lt_iff_place.2 ⟨⟨?_, hx⟩, ?_⟩
  · rw [isNaN_eq, hbottom]
    rfl
  · rw [place, hbottom]
    exact (neg_lt_zero.2 hpos).trans_le hplace

end BinaryScalar

/-- A real scalar type whose numbers compare as their nearest binary64 numbers do. -/
class WideningScalar (ρ : Type) [RealScalar ρ] : Prop where
  toFloat_lt_iff (x y : ρ) : RealScalar.toFloat x < RealScalar.toFloat y ↔ x < y
  toFloat_bottom : RealScalar.toFloat (-(1 / 0) : ρ) = -(1 / 0)

instance : WideningScalar Float where
  toFloat_lt_iff _ _ := Iff.rfl
  toFloat_bottom := rfl

instance : WideningScalar Float32 where
  toFloat_lt_iff := BinaryScalar.widen_lt_iff
  toFloat_bottom := by decide +kernel

end DenseFactor
