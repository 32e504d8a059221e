import Mathlib
import DenseFactor.Scalar.Ratio
import DenseFactor.Proofs.Scalar.Exact
import DenseFactor.Proofs.Scalar.Rounding

/-!
# DenseFactor.Proofs.Scalar.Ratio

Ratios of bounded width are an **exact field**: what an operation returns is the
rational number it should be, and what it fails with is an overflow, or a division by
zero where the divisor is zero. Up to 64 bits their rounded magnitudes tell zero from
the other ratios.

Every operation checks the integers on its way and then stores the exact value. So
the proofs look at the failures of the checks only: a common factor leaves no
denominator zero, unless a divisor of zero became one.
-/

namespace DenseFactor.Ratio

open BoundedInt (checked)

variable {bits : ℕ}

/-! ### Checks -/

theorem ends_checked (x : ℤ) : Ends Overflow (· = x) (checked bits x) := by
  unfold checked
  split
  · rfl
  · exact rfl

theorem ends_ofRat (x : ℚ) : Ends Overflow (fun r => r.value = x) (ofRat bits x) := by
  unfold ofRat
  split
  · rfl
  · exact rfl

theorem ends_commonFactor (x y : ℤ) :
    Ends Overflow (fun g => g ∣ x ∧ g ∣ y) (commonFactor bits x y) := by
  refine (ends_checked _).imp fun g hg => ?_
  rw [hg]
  exact ⟨Int.gcd_dvd_left x y, Int.gcd_dvd_right x y⟩

/-- Dividing out a factor leaves no zero. -/
theorem tdiv_ne_zero_of_dvd {a g : ℤ} (ha : a ≠ 0) (hg : g ∣ a) : a.tdiv g ≠ 0 := by
  intro hzero
  have hcancel := Int.tdiv_mul_cancel hg
  rw [hzero, zero_mul] at hcancel
  exact ha hcancel.symm

theorem checkReduced_zero (n : ℤ) : checkReduced bits n 0 = .error .divisionByZero := rfl

theorem ends_checkReduced (n : ℤ) {d : ℤ} (hd : d ≠ 0) :
    Ends Overflow (fun _ => True) (checkReduced bits n d) := by
  unfold checkReduced
  rw [if_neg hd]
  split
  · trivial
  · refine (ends_commonFactor _ _).bind fun g _ => ?_
    split
    · refine (ends_checked _).bind fun _ _ => ?_
      exact (ends_checked _).bind fun _ _ => trivial
    · trivial

theorem ends_checkCombined (combine : ℤ → ℤ → ℤ) (x y : ℚ) :
    Ends Overflow (fun _ => True) (checkCombined bits combine x y) := by
  have hx : (x.den : ℤ) ≠ 0 := Int.natCast_ne_zero.2 x.den_nz
  have hy : (y.den : ℤ) ≠ 0 := Int.natCast_ne_zero.2 y.den_nz
  unfold checkCombined
  split
  · exact (ends_checked _).bind fun n _ => ends_checkReduced n hx
  · -- the least common multiple of two denominators is not zero
    refine (ends_commonFactor _ _).bind fun g hg => ?_
    refine (ends_checked _).bind fun multiple hmultiple => ?_
    refine (ends_checked _).bind fun left _ => ?_
    refine (ends_checked _).bind fun right _ => ?_
    refine (ends_checked _).bind fun n _ => ?_
    refine ends_checkReduced n ?_
    rw [hmultiple]
    exact mul_ne_zero hx (tdiv_ne_zero_of_dvd hy hg.2)

theorem ends_checkProduct (x y : ℚ) :
    Ends Overflow (fun _ => True) (checkProduct bits x y) := by
  have hx : (x.den : ℤ) ≠ 0 := Int.natCast_ne_zero.2 x.den_nz
  have hy : (y.den : ℤ) ≠ 0 := Int.natCast_ne_zero.2 y.den_nz
  unfold checkProduct
  refine (ends_commonFactor _ _).bind fun g hg => ?_
  refine (ends_commonFactor _ _).bind fun h hh => ?_
  refine (ends_checked _).bind fun n _ => ?_
  refine (ends_checked _).bind fun d hd => ?_
  refine ends_checkReduced n ?_
  rw [hd]
  exact mul_ne_zero (tdiv_ne_zero_of_dvd hx hh.1) (tdiv_ne_zero_of_dvd hy hg.2)

theorem ends_checkQuotient (x : ℚ) {y : ℚ} (hy : y ≠ 0) :
    Ends Overflow (fun _ => True) (checkQuotient bits x y) := by
  have hx : (x.den : ℤ) ≠ 0 := Int.natCast_ne_zero.2 x.den_nz
  have hnum : y.num ≠ 0 := Rat.num_ne_zero.2 hy
  unfold checkQuotient
  refine (ends_commonFactor _ _).bind fun g hg => ?_
  refine (ends_commonFactor _ _).bind fun h hh => ?_
  have hne : g ≠ 0 := ne_zero_of_dvd_ne_zero hnum hg.2
  rw [if_neg hne]
  refine (ends_checked _).bind fun n _ => ?_
  refine (ends_checked _).bind fun d hd => ?_
  refine ends_checkReduced n ?_
  rw [hd]
  exact mul_ne_zero (tdiv_ne_zero_of_dvd hx hh.1) (tdiv_ne_zero_of_dvd hnum hg.2)

/-- A divisor of zero does not pass: its numerator makes the new denominator
zero. -/
theorem ends_checkQuotient_zero (x : ℚ) :
    Ends Fault (fun _ => False) (checkQuotient bits x 0) := by
  unfold checkQuotient
  refine ((ends_commonFactor _ _).weaken fun _ => Overflow.fault).bind fun g _ => ?_
  refine ((ends_commonFactor _ _).weaken fun _ => Overflow.fault).bind fun h _ => ?_
  split
  · exact rfl
  · refine ((ends_checked _).weaken fun _ => Overflow.fault).bind fun n _ => ?_
    refine ((ends_checked _).weaken fun _ => Overflow.fault).bind fun d hd => ?_
    rw [hd, Rat.num_zero, Int.zero_tdiv, mul_zero, checkReduced_zero]
    exact rfl

/-! ### Operations -/

theorem ends_add (x y : Ratio bits) :
    Ends Overflow (fun z => z.value = x.value + y.value) (Scalar.add x y) :=
  (ends_checkCombined _ _ _).bind fun _ _ => ends_ofRat _

theorem ends_sub (x y : Ratio bits) :
    Ends Overflow (fun z => z.value = x.value - y.value) (Scalar.sub x y) :=
  (ends_checkCombined _ _ _).bind fun _ _ => ends_ofRat _

theorem ends_mul (x y : Ratio bits) :
    Ends Overflow (fun z => z.value = x.value * y.value) (Scalar.mul x y) :=
  (ends_checkProduct _ _).bind fun _ _ => ends_ofRat _

theorem ends_div (x y : Ratio bits) (hy : y.value ≠ 0) :
    Ends Overflow (fun z => z.value = x.value / y.value) (Scalar.div x y) :=
  (ends_checkQuotient _ hy).bind fun _ _ => ends_ofRat _

theorem ends_div_zero (x y : Ratio bits) (hy : y.value = 0) :
    Ends Fault (fun _ => False) (Scalar.div x y) := by
  change Ends Fault _ (checkQuotient bits x.value y.value >>= fun _ => _)
  rw [hy]
  exact (ends_checkQuotient_zero x.value).bind fun _ h => h.elim

instance : ExactField (Ratio bits) ℚ where
  value := Ratio.value
  value_zero := rfl
  value_one := rfl
  beq_iff _ _ := beq_iff_eq
  ends_add x y := (ends_add x y).weaken fun _ => Overflow.fault
  ends_sub x y := (ends_sub x y).weaken fun _ => Overflow.fault
  ends_mul x y := (ends_mul x y).weaken fun _ => Overflow.fault
  ends_div x y hy := (ends_div x y hy).weaken fun _ => Overflow.fault
  ends_div_zero := ends_div_zero

/-- As long as they are not divided by zero, ratios fail by an overflow only. -/
theorem failsBy_overflow : FailsBy (Ratio bits) Overflow fun y => ExactScalar.value y ≠ 0 where
  ends_add x y := (ends_add x y).imp fun _ _ => trivial
  ends_sub x y := (ends_sub x y).imp fun _ _ => trivial
  ends_mul x y := (ends_mul x y).imp fun _ _ => trivial
  ends_div x y hy := (ends_div x y hy).imp fun _ _ => trivial

/-! ### Magnitudes -/

open ExactScalar (value)

theorem magnitude_of_zero {x : Ratio bits} (hx : value x = 0) :
    (FieldScalar.magnitude x).toModel.unpack = .zero .positive := by
  have hmagnitude : FieldScalar.magnitude x =
      (Rounding.ofInteger x.value.num / Rounding.ofInteger x.value.den).abs := rfl
  have hvalue : x.value = 0 := hx
  rw [hmagnitude, hvalue]
  rfl

/-- Neither the numerator nor the denominator can be so large, or the one so much
smaller than the other, that the rounded quotient is not a positive number. -/
theorem magnitude_of_ne_zero (hbits : bits ≤ 64) {x : Ratio bits} (hx : value x ≠ 0) :
    ∃ m e hpos, (FieldScalar.magnitude x).toModel.unpack = .finite .positive m e hpos := by
  have hbound : widthBound bits ≤ 2 ^ 63 := Nat.pow_le_pow_right (by decide) (by omega)
  have hvalue : x.value ≠ 0 := hx
  have hden : ((x.value.den : ℤ)).natAbs ≤ 2 ^ 63 := by
    rw [Int.natAbs_natCast]
    exact x.den_le.trans hbound
  exact Rounding.quotient_positive (Rat.num_ne_zero.2 hvalue) (x.num_le.trans hbound)
    (Int.natCast_ne_zero.2 x.value.den_nz) hden

theorem faithfulMagnitude (hbits : bits ≤ 64) : FaithfulMagnitude (Ratio bits) where
  bottom_lt x := by
    have hbottom : (-(1 / 0) : Float).toModel.unpack = .infinity .negative := rfl
    rw [Rounding.lt_iff_compare, hbottom]
    by_cases hx : value x = 0
    · rw [magnitude_of_zero hx]
      rfl
    · obtain ⟨m, e, hpos, hmagnitude⟩ := magnitude_of_ne_zero hbits hx
      rw [hmagnitude]
      rfl
  zero_lt x y hx hy := by
    obtain ⟨m, e, hpos, hmagnitude⟩ := magnitude_of_ne_zero hbits hy
    rw [Rounding.lt_iff_compare, magnitude_of_zero hx, hmagnitude]
    rfl
  not_lt_zero x y hx hy := by
    obtain ⟨m, e, hpos, hmagnitude⟩ := magnitude_of_ne_zero hbits hy
    rw [Rounding.lt_iff_compare, magnitude_of_zero hx, hmagnitude]
    simp [Float.Model.UnpackedFloat.compare]

instance : FaithfulMagnitude (Ratio 32) := faithfulMagnitude (by decide)

instance : FaithfulMagnitude (Ratio 64) := faithfulMagnitude (by decide)

end DenseFactor.Ratio
