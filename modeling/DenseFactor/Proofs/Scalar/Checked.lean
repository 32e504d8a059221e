import Mathlib
import DenseFactor.Proofs.Scalar.ZeroTerm

/-!
# DenseFactor.Proofs.Scalar.Checked

Integers and ratios of bounded width in **sums of products**: exact, or an overflow.

Design points:

* `ExactOrOverflow` asks less than an exact scalar. There is no division in it, so the
  values may lie in a ring, and the only failure is that of the width.
* A stored ratio has a numerator and a denominator of the width. The type alone says a
  little less: its bounds include the one modulus that only a negative number has. So a
  factor is asked for a denominator of the width, and a sum is shown to have both.
-/

namespace DenseFactor

/-- What succeeds is exact, what fails is an overflow, and factors can be exchanged. -/
structure ExactOrOverflow (α : Type) [Scalar α] {K : Type} [CommRing K] (value : α → K) :
    Prop where
  value_zero : value Scalar.zero = 0
  isZero_iff (x : α) : Scalar.isZero x = true ↔ value x = 0
  ends_add (x y : α) : Ends Overflow (fun z => value z = value x + value y) (Scalar.add x y)
  ends_mul (x y : α) : Ends Overflow (fun z => value z = value x * value y) (Scalar.mul x y)
  mul_comm (x y : α) : Scalar.mul x y = Scalar.mul y x

theorem fits_iff {bits : ℕ} {x : ℤ} :
    fits bits x = true ↔ -(2 ^ (bits - 1) : ℤ) ≤ x ∧ x < 2 ^ (bits - 1) := by
  rw [fits, decide_eq_true_iff]
  exact Iff.rfl

theorem fits_zero {bits : ℕ} : fits bits 0 = true := by
  have hpos : (0 : ℤ) < 2 ^ (bits - 1) := by positivity
  exact fits_iff.2 ⟨by omega, hpos⟩

namespace BoundedInt

variable {bits : ℕ}

theorem checked_of_fits {x : ℤ} (h : fits bits x = true) : checked bits x = .ok x := if_pos h

theorem ends_checked_fits (x : ℤ) :
    Ends Overflow (fun y => y = x ∧ fits bits y = true) (checked bits x) := by
  unfold checked
  by_cases h : fits bits x = true
  · rw [if_pos h]
    exact ⟨rfl, h⟩
  · rw [if_neg h]
    exact rfl

theorem ends_ofInt (x : ℤ) :
    Ends Overflow (fun z => z.value = x ∧ fits bits z.value = true) (ofInt bits x) := by
  refine Ends.map_iff.2 ((ends_checked_fits x).imp ?_)
  rintro _ ⟨rfl, h⟩
  exact ⟨rfl, h⟩

theorem ofInt_of_fits {x : ℤ} (h : fits bits x = true) : ofInt bits x = .ok ⟨x⟩ := by
  rw [ofInt, checked_of_fits h]
  rfl

theorem exactOrOverflow : ExactOrOverflow (BoundedInt bits) value where
  value_zero := rfl
  isZero_iff _ := beq_iff_eq
  ends_add _ _ := (ends_ofInt _).imp fun _ h => h.1
  ends_mul _ _ := (ends_ofInt _).imp fun _ h => h.1
  mul_comm x y := congrArg (ofInt bits) (Int.mul_comm x.value y.value)

/-- A zero may be left out whatever the other factor is. -/
theorem zeroTermsVanish :
    ZeroTermsVanish (BoundedInt bits) (fun _ => True) (fits bits ·.value = true) where
  zero := fits_zero
  step _ _ _ := Ends.always.bind fun _ _ =>
    ((ends_ofInt _).imp fun _ h => h.2).weaken fun _ _ => trivial
  skip {s x y} hs hx _ := by
    have hx : x.value = 0 := exactOrOverflow.isZero_iff x |>.1 hx
    have hproduct : Scalar.mul x y = .ok ⟨0⟩ := by
      show ofInt bits (x.value * y.value) = _
      rw [hx, zero_mul, ofInt_of_fits fits_zero]
    have hsum : Scalar.add s ⟨0⟩ = .ok s := by
      show ofInt bits (s.value + 0) = _
      rw [add_zero, ofInt_of_fits hs]
    rw [DenseMatrix.addProduct, hproduct]
    exact hsum

end BoundedInt

namespace Ratio

open BoundedInt (checked checked_of_fits ends_checked_fits)

variable {bits : ℕ}

/-- Numerator and denominator are integers of the width. -/
def Fits (bits : ℕ) (x : ℚ) : Prop := fits bits x.num = true ∧ fits bits x.den = true

/-- Lowest terms of a fraction of integers of the width. -/
theorem fits_divInt {n d : ℤ} (hd : 0 < d) (hn : fits bits n = true) (hdf : fits bits d = true) :
    Fits bits (Rat.divInt n d) := by
  obtain ⟨hlower, hupper⟩ := fits_iff.1 hn
  have hnum : (Rat.divInt n d).num ∣ n := Rat.num_dvd n hd.ne'
  have hden : ((Rat.divInt n d).den : ℤ) ≤ d := Int.le_of_dvd hd (Rat.den_dvd n d)
  have hsign : 0 ≤ (Rat.divInt n d).num ↔ 0 ≤ n := by
    rw [Rat.num_nonneg, Rat.divInt_nonneg_iff_of_pos_right hd]
  refine ⟨fits_iff.2 ?_, fits_iff.2 ⟨by omega, hden.trans_lt (fits_iff.1 hdf).2⟩⟩
  rcases lt_trichotomy n 0 with hneg | rfl | hpos
  · have hle : -(Rat.divInt n d).num ≤ -n :=
      Int.le_of_dvd (by omega) (Int.neg_dvd.2 (Int.dvd_neg.2 hnum))
    omega
  · rw [Rat.zero_divInt]
    exact ⟨hlower, hupper⟩
  · have hle : (Rat.divInt n d).num ≤ n := Int.le_of_dvd hpos hnum
    omega

theorem fits_one (hbits : 2 ≤ bits) : fits bits 1 = true := by
  have hone : (1 : ℤ) < 2 ^ (bits - 1) := one_lt_pow₀ one_lt_two (by omega)
  exact fits_iff.2 ⟨by omega, hone⟩

theorem ends_commonFactor_nonneg (x y : ℤ) :
    Ends Overflow (fun g => 0 ≤ g) (commonFactor bits x y) := by
  refine (ends_checked _).imp fun g hg => ?_
  rw [hg]
  exact Int.natCast_nonneg _

/-! ### Factors -/

/-- The checks of a product do not depend on the order of the factors. -/
theorem checkProduct_comm (x y : ℚ) : checkProduct bits x y = checkProduct bits y x := by
  have hleft : commonFactor bits x.num y.den = commonFactor bits y.den x.num := by
    rw [commonFactor, commonFactor, Int.gcd_comm]
  have hright : commonFactor bits x.den y.num = commonFactor bits y.num x.den := by
    rw [commonFactor, commonFactor, Int.gcd_comm]
  unfold checkProduct
  rw [hleft, hright]
  cases hg : commonFactor bits y.den x.num with
  | error e =>
      obtain rfl : e = .overflow := (ends_commonFactor _ _).of_error hg
      cases hh : commonFactor bits y.num x.den with
      | error e =>
          obtain rfl : e = .overflow := (ends_commonFactor _ _).of_error hh
          rfl
      | ok h => rfl
  | ok g =>
      cases hh : commonFactor bits y.num x.den with
      | error e => rfl
      | ok h =>
          simp only [bind, Except.bind]
          rw [Int.mul_comm (x.num.tdiv g), Int.mul_comm ((x.den : ℤ).tdiv h)]

/-- A product with zero can be formed if the other denominator is of the width. -/
theorem checkProduct_zero (hbits : 2 ≤ bits) {y : ℚ} (hy : fits bits y.den = true) :
    checkProduct bits 0 y = .ok () := by
  have hdenominator : commonFactor bits (0 : ℚ).num y.den = .ok (y.den : ℤ) := by
    rw [commonFactor, Rat.num_zero, Int.gcd_zero_left, Int.natAbs_natCast, checked_of_fits hy]
  have hnumerator : commonFactor bits (0 : ℚ).den y.num = .ok 1 := by
    have hgcd : Int.gcd ((0 : ℚ).den : ℤ) y.num = 1 := Int.gcd_one_left _
    rw [commonFactor, hgcd]
    exact checked_of_fits (fits_one hbits)
  have hquotient : ((0 : ℚ).den : ℤ).tdiv 1 * (y.den : ℤ).tdiv y.den = 1 := by
    rw [Int.tdiv_self (Int.natCast_ne_zero.2 y.den_nz), mul_one]
    rfl
  unfold checkProduct
  rw [hdenominator, hnumerator]
  simp only [bind, Except.bind]
  rw [hquotient, Rat.num_zero, Int.zero_tdiv, zero_mul, checked_of_fits DenseFactor.fits_zero,
    checked_of_fits (fits_one hbits)]
  rfl

/-! ### Sums -/

/-- A ratio is in lowest terms. -/
theorem checkReduced_self (hbits : 2 ≤ bits) (x : ℚ) :
    checkReduced bits x.num x.den = .ok () := by
  have hden : (x.den : ℤ) ≠ 0 := Int.natCast_ne_zero.2 x.den_nz
  have hgcd : Int.gcd x.num x.den = 1 := x.reduced
  unfold checkReduced
  rw [if_neg hden]
  split
  · rfl
  · have hfactor : commonFactor bits x.num x.den = .ok 1 := by
      rw [commonFactor, hgcd]
      exact checked_of_fits (fits_one hbits)
    rw [hfactor]
    simp only [bind, Except.bind]
    rw [if_neg (by omega)]
    rfl

/-- A ratio of the width can be formed again with a zero. -/
theorem checkCombined_zero (hbits : 2 ≤ bits) {x : ℚ} (hx : Fits bits x) :
    checkCombined bits (· + ·) x 0 = .ok () := by
  have hden : (x.den : ℤ) ≠ 0 := Int.natCast_ne_zero.2 x.den_nz
  unfold checkCombined
  split
  · simp only [Rat.num_zero, add_zero]
    rw [checked_of_fits hx.1]
    exact checkReduced_self hbits x
  · have hfactor : commonFactor bits x.den (0 : ℚ).den = .ok 1 := by
      have hgcd : Int.gcd (x.den : ℤ) ((0 : ℚ).den : ℤ) = 1 := Int.gcd_one_right _
      rw [commonFactor, hgcd]
      exact checked_of_fits (fits_one hbits)
    have hmultiple : (x.den : ℤ) * ((0 : ℚ).den : ℤ).tdiv 1 = x.den := by
      have hone : ((0 : ℚ).den : ℤ).tdiv 1 = 1 := rfl
      rw [hone, mul_one]
    rw [hfactor]
    simp only [bind, Except.bind]
    rw [hmultiple, checked_of_fits hx.2]
    simp only []
    rw [Int.tdiv_self hden, mul_one, checked_of_fits hx.1, Rat.num_zero, zero_mul,
      checked_of_fits DenseFactor.fits_zero]
    simp only []
    rw [add_zero, checked_of_fits hx.1]
    exact checkReduced_self hbits x

/-- A sum over any common multiple of the denominators. -/
theorem add_eq_divInt {x y : ℚ} {multiple k l : ℤ} (hne : multiple ≠ 0)
    (hx : (x.den : ℤ) * k = multiple) (hy : (y.den : ℤ) * l = multiple) :
    x + y = Rat.divInt (x.num * k + y.num * l) multiple := by
  have hmultiple : (multiple : ℚ) ≠ 0 := Int.cast_ne_zero.2 hne
  have hterm {z : ℚ} {j : ℤ} (hz : (z.den : ℤ) * j = multiple) :
      z * multiple = (z.num * j : ℤ) := by
    rw [← hz]
    push_cast
    rw [← mul_assoc, Rat.mul_den_eq_num]
  rw [Rat.divInt_eq_div, eq_div_iff hmultiple, add_mul, hterm hx, hterm hy]
  push_cast
  rfl

/-- What the checks of a sum let pass has a numerator and a denominator of the width. -/
theorem ends_checkCombined_fits {x : ℚ} (hx : Fits bits x) (y : ℚ) :
    Ends Overflow (fun _ => Fits bits (x + y)) (checkCombined bits (· + ·) x y) := by
  have hxpos : (0 : ℤ) < x.den := by exact_mod_cast x.den_pos
  have hypos : (0 : ℤ) < y.den := by exact_mod_cast y.den_pos
  unfold checkCombined
  split
  case isTrue hsame =>
    refine (ends_checked_fits _).bind fun n hn => ?_
    refine (ends_checkReduced n hxpos.ne').imp fun _ _ => ?_
    have hnumerator : n = x.num + y.num := hn.1
    have hsum : x + y = Rat.divInt n x.den := by
      rw [add_eq_divInt hxpos.ne' (mul_one _) (by rw [hsame, mul_one]), mul_one, mul_one,
        hnumerator]
    rw [hsum]
    exact fits_divInt hxpos hn.2 hx.2
  case isFalse =>
    refine ((ends_commonFactor _ _).and (ends_commonFactor_nonneg _ _)).bind fun g hg => ?_
    obtain ⟨⟨hgx, hgy⟩, hgnonneg⟩ := hg
    refine (ends_checked_fits _).bind fun multiple hmultiple => ?_
    refine (ends_checked_fits _).bind fun left hleft => ?_
    refine (ends_checked_fits _).bind fun right hright => ?_
    refine (ends_checked_fits _).bind fun n hn => ?_
    have hk : g * (y.den : ℤ).tdiv g = y.den := Int.mul_tdiv_cancel' hgy
    have hpos : 0 < multiple := by
      have hgpos : 0 < g :=
        lt_of_le_of_ne hgnonneg fun h => hypos.ne' (by rw [← hk, ← h, zero_mul])
      rw [hmultiple.1]
      exact mul_pos hxpos ((pos_iff_pos_of_mul_pos (hypos.trans_eq hk.symm)).1 hgpos)
    -- the product of one denominator and the rest of the other is a multiple of both
    have hx' : (x.den : ℤ) * multiple.tdiv x.den = multiple :=
      Int.mul_tdiv_cancel' (hmultiple.1 ▸ Int.dvd_mul_right _ _)
    have hy' : (y.den : ℤ) * multiple.tdiv y.den = multiple := by
      refine Int.mul_tdiv_cancel' ?_
      rw [hmultiple.1]
      nth_rewrite 1 [← hk]
      exact Int.mul_dvd_mul_right _ hgx
    have hnumerator : n = left + right := hn.1
    refine (ends_checkReduced n hpos.ne').imp fun _ _ => ?_
    rw [add_eq_divInt hpos.ne' hx' hy', ← hleft.1, ← hright.1, ← hnumerator]
    exact fits_divInt hpos hn.2 hmultiple.2

theorem exactOrOverflow : ExactOrOverflow (Ratio bits) value where
  value_zero := rfl
  isZero_iff _ := beq_iff_eq
  ends_add := ends_add
  ends_mul := ends_mul
  mul_comm x y := by
    show (do checkProduct bits x.value y.value; ofRat bits (x.value * y.value)) =
      (do checkProduct bits y.value x.value; ofRat bits (y.value * x.value))
    rw [checkProduct_comm, mul_comm x.value]

theorem ofRat_value (x : Ratio bits) : ofRat bits x.value = .ok x :=
  dif_pos ⟨x.num_le, x.den_le⟩

/-- A zero may be left out beside a ratio whose denominator is of the width. -/
theorem zeroTermsVanish (hbits : 2 ≤ bits) : ZeroTermsVanish (Ratio bits)
    (fits bits ·.value.den = true) (Fits bits ·.value) where
  zero := ⟨DenseFactor.fits_zero, fits_one hbits⟩
  step x y hs := by
    refine Ends.always.bind fun p _ => ?_
    show Ends Always _ (do checkCombined bits (· + ·) _ p.value; ofRat bits (_ + p.value))
    refine ((ends_checkCombined_fits hs p.value).weaken fun _ _ => trivial).bind fun _ hfits => ?_
    refine ((ends_ofRat _).weaken fun _ _ => trivial).imp fun z hz => ?_
    rw [hz]
    exact hfits
  skip {s x y} hs hx hy := by
    have hx : x.value = 0 := (exactOrOverflow.isZero_iff x).1 hx
    have hproduct : Scalar.mul x y = .ok Scalar.zero := by
      show (do checkProduct bits x.value y.value; ofRat bits (x.value * y.value)) = _
      rw [hx, checkProduct_zero hbits hy, zero_mul]
      exact ofRat_value (Scalar.zero : Ratio bits)
    have hsum : Scalar.add s Scalar.zero = .ok s := by
      show (do checkCombined bits (· + ·) s.value 0; ofRat bits (s.value + 0)) = _
      rw [checkCombined_zero hbits hs, add_zero]
      exact ofRat_value s
    rw [DenseMatrix.addProduct, hproduct]
    exact hsum

end Ratio

end DenseFactor
