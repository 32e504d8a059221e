import Mathlib
import DenseFactor.Proofs.Scalar.Binary
import DenseFactor.Scalar.Cartesian

/-!
# DenseFactor.Proofs.Scalar.Sign

The **signs** of rounded numbers, and how a limit that is a multiple of a size depends on its
factor.

Design points:

* Rounding and storing treat both signs alike, so a product changes its sign with its factor.
  This carries the order of products from factors that are not negative over to all.
* Roots, absolute values and lengths are never below zero. They may be a NaN, so what is
  stated is `¬ x < 0`, and of the sizes in this module nothing more is known.
* With an infinite size the product is not monotone: a factor of zero makes it a NaN. The two
  lemmas about limits go through nevertheless, since neither test can change its answer there.
-/

namespace DenseFactor

namespace Rounding

open Float.Model Float.Model.UnpackedFloat

variable {format : Format} {x y : UnpackedFloat}

/-! ### Both signs -/

theorem neg_mul_sign (s t : Sign) : -s * t = -(s * t) := by
  cases s <;> cases t <;> rfl

theorem unpack_packComponents_neg (s : Sign) (e : BitVec format.exponentBits)
    (m : BitVec format.mantissaBitsWithoutImplicit) :
    unpack format (packComponents format (-s) e m) =
      (unpack format (packComponents format s e m)).neg := by
  simp only [UnpackedFloat.unpack, unpackMantissa_packComponents, unpackExponent_packComponents,
    unpackSign_packComponents, ofBitVec_toBitVec]
  split_ifs <;> rfl

/-- Storing keeps the sign and treats the rest alike. -/
theorem unpack_pack_neg (x : UnpackedFloat) :
    unpack format (pack format x.neg) = (unpack format (pack format x)).neg := by
  cases x with
  | notANumber => rw [UnpackedFloat.neg, unpack_pack_notANumber, UnpackedFloat.neg]
  | infinity s => exact unpack_packComponents_neg s _ _
  | zero s => exact unpack_packComponents_neg s _ _
  | finite s m e h =>
      simp only [UnpackedFloat.neg, UnpackedFloat.pack]
      split_ifs <;> exact unpack_packComponents_neg s _ _

theorem roundWithAccuracy_neg (s : Sign) (m : ℕ) (e : ℤ) (accuracy : Accuracy) :
    roundWithAccuracy format (-s) m e accuracy =
      (roundWithAccuracy format s m e accuracy).neg := by
  unfold roundWithAccuracy
  dsimp only
  split_ifs <;> rfl

/-- A product changes its sign with its first factor. -/
theorem neg_mul (x y : UnpackedFloat) : mul format x.neg y = (mul format x y).neg := by
  cases x with
  | notANumber => rfl
  | infinity s =>
      cases y with
      | notANumber => rfl
      | zero t => rfl
      | infinity t => exact congrArg UnpackedFloat.infinity (neg_mul_sign s t)
      | finite t m e h => exact congrArg UnpackedFloat.infinity (neg_mul_sign s t)
  | zero s =>
      cases y with
      | notANumber => rfl
      | infinity t => rfl
      | zero t => exact congrArg UnpackedFloat.zero (neg_mul_sign s t)
      | finite t m e h => exact congrArg UnpackedFloat.zero (neg_mul_sign s t)
  | finite s m e h =>
      cases y with
      | notANumber => rfl
      | infinity t => exact congrArg UnpackedFloat.infinity (neg_mul_sign s t)
      | zero t => exact congrArg UnpackedFloat.zero (neg_mul_sign s t)
      | finite t m' e' h' =>
          show roundWithAccuracy format (-s * t) _ _ _ = _
          rw [neg_mul_sign]
          exact roundWithAccuracy_neg _ _ _ _

/-! ### Sizes -/

/-- A number without a negative sign, unless it is a zero. -/
inductive NotNegative : UnpackedFloat → Prop
  | notANumber : NotNegative .notANumber
  | zero (s : Sign) : NotNegative (.zero s)
  | infinity : NotNegative (.infinity .positive)
  | finite (m : ℕ) (e : ℤ) (h : 0 < m) : NotNegative (.finite .positive m e h)

theorem place_unpack_positive (e : BitVec format.exponentBits)
    (m : BitVec format.mantissaBitsWithoutImplicit) :
    0 ≤ place format (unpack format (packComponents format .positive e m)) := by
  have hrepresentable := representable_unpack format (packComponents format .positive e m)
  simp only [UnpackedFloat.unpack, unpackMantissa_packComponents, unpackExponent_packComponents,
    unpackSign_packComponents, ofBitVec_toBitVec] at hrepresentable ⊢
  split_ifs at hrepresentable ⊢
  · exact (topPlace_pos format).le
  · exact le_rfl
  · exact le_rfl
  · exact hrepresentable.1.placeOf_pos.le
  · exact hrepresentable.1.placeOf_pos.le

/-- Storing does not make a number negative. -/
theorem NotNegative.place_stored (h : NotNegative x) :
    0 ≤ place format (unpack format (pack format x)) := by
  cases h with
  | notANumber => rw [unpack_pack_notANumber, place]
  | zero s => rw [unpack_pack_zero, place]
  | infinity => exact place_unpack_positive _ _
  | finite m e h =>
      simp only [UnpackedFloat.pack]
      split_ifs <;> exact place_unpack_positive _ _

theorem notNegative_round (m : ℕ) (e : ℤ) (accuracy : Accuracy) :
    NotNegative (roundWithAccuracy format .positive m e accuracy) := by
  unfold roundWithAccuracy
  dsimp only
  split_ifs
  · exact .zero _
  · exact .finite _ _ _

theorem notNegative_abs (x : UnpackedFloat) : NotNegative x.abs := by
  cases x with
  | notANumber => exact .notANumber
  | infinity s => exact .infinity
  | zero s => exact .zero _
  | finite s m e h => exact .finite _ _ _

theorem notNegative_sqrt (x : UnpackedFloat) : NotNegative (sqrt format x) := by
  cases x with
  | notANumber => exact .notANumber
  | zero s => exact .zero s
  | infinity s =>
      cases s with
      | negative => exact .notANumber
      | positive => exact .infinity
  | finite s m e h =>
      cases s with
      | negative => exact .notANumber
      | positive => exact notNegative_round _ _ _

theorem notNegative_hypotenuse (x y : UnpackedFloat) : NotNegative (hypotenuse format x y) := by
  cases x with
  | infinity s => exact .infinity
  | notANumber =>
      cases y with
      | infinity t => exact .infinity
      | _ => exact .notANumber
  | zero s =>
      cases y with
      | infinity t => exact .infinity
      | notANumber => exact .notANumber
      | zero t => exact .zero _
      | finite t m e h => exact .finite _ _ _
  | finite s m e h =>
      cases y with
      | infinity t => exact .infinity
      | notANumber => exact .notANumber
      | zero t => exact .finite _ _ _
      | finite t m' e' h' => exact notNegative_round _ _ _

end Rounding

/-! ### Roots and lengths -/

section Roots

open Float.Model.UnpackedFloat
open BinaryScalar (format unpacked)

/-- A binary scalar type whose roots and lengths are those of its format. -/
class RootScalar (ρ : Type) [RealScalar ρ] [BinaryScalar ρ] : Prop where
  unpacked_sqrt (x : ρ) : unpacked (RealScalar.sqrt x) =
    unpack (format ρ) (pack (format ρ) (sqrt (format ρ) (unpacked x)))
  unpacked_hypot (x y : ρ) : unpacked (RealScalar.hypot x y) =
    unpack (format ρ)
      (pack (format ρ) (Rounding.hypotenuse (format ρ) (unpacked x) (unpacked y)))

end Roots

instance : RootScalar Float where
  unpacked_sqrt _ := rfl
  unpacked_hypot _ _ := rfl

instance : RootScalar Float32 where
  unpacked_sqrt _ := rfl
  unpacked_hypot _ _ := rfl

/-- Elements whose modulus is a NaN or not below zero. -/
class SizedScalar (α : Type) {ρ : outParam Type} [RealScalar ρ] [EuclideanScalar α ρ] :
    Prop where
  modulus_not_neg (x : α) : ¬ EuclideanScalar.modulus x < (0 : ρ)

/-- The larger of two numbers is one of them. -/
theorem RealScalar.maximum_not_neg {ρ : Type} [RealScalar ρ] {x y : ρ} (hx : ¬ x < 0)
    (hy : ¬ y < 0) : ¬ RealScalar.maximum x y < 0 := by
  unfold RealScalar.maximum
  split_ifs
  · exact hy
  · exact hx
  · exact hy
  · exact hx

namespace BinaryScalar

open Float.Model Float.Model.UnpackedFloat

variable {ρ : Type} [RealScalar ρ] [BinaryScalar ρ] {x y z s t : ρ}

theorem place_of_isNaN (h : RealScalar.isNaN x = true) : place x = 0 := by
  rw [isNaN_eq] at h
  rw [place]
  cases hx : unpacked x <;> rw [hx] at h
  case notANumber => rfl
  all_goals exact absurd h Bool.false_ne_true

/-- A NaN has the place of a zero. -/
theorem not_neg_iff : ¬ x < 0 ↔ 0 ≤ place x := by
  rw [lt_iff_place, place_zero]
  cases hx : RealScalar.isNaN x with
  | true => simp [place_of_isNaN hx]
  | false => simp

theorem abs_not_neg (x : ρ) : ¬ RealScalar.abs x < 0 := by
  rw [not_neg_iff, place, unpacked_abs]
  exact (Rounding.notNegative_abs _).place_stored

theorem sqrt_not_neg [RootScalar ρ] (x : ρ) : ¬ RealScalar.sqrt x < 0 := by
  rw [not_neg_iff, place, RootScalar.unpacked_sqrt]
  exact (Rounding.notNegative_sqrt _).place_stored

theorem hypot_not_neg [RootScalar ρ] (x y : ρ) : ¬ RealScalar.hypot x y < 0 := by
  rw [not_neg_iff, place, RootScalar.unpacked_hypot]
  exact (Rounding.notNegative_hypotenuse _ _).place_stored

instance : SizedScalar ρ where
  modulus_not_neg := abs_not_neg

instance [RootScalar ρ] : SizedScalar (Cartesian ρ) where
  modulus_not_neg x := hypot_not_neg x.re x.im

/-! ### Order -/

theorem lt_asymm (h : x < y) : ¬ y < x := fun h' =>
  (lt_iff_place.1 h).2.not_gt (lt_iff_place.1 h').2

theorem lt_of_lt_of_le (hxy : x < y) (hyz : y ≤ z) : x < z := by
  obtain ⟨⟨hx, -⟩, hplace⟩ := lt_iff_place.1 hxy
  obtain ⟨⟨-, hz⟩, hplace'⟩ := le_iff_place.1 hyz
  exact lt_iff_place.2 ⟨⟨hx, hz⟩, hplace.trans_le hplace'⟩

theorem lt_of_le_of_lt (hxy : x ≤ y) (hyz : y < z) : x < z := by
  obtain ⟨⟨hx, -⟩, hplace⟩ := le_iff_place.1 hxy
  obtain ⟨⟨-, hz⟩, hplace'⟩ := lt_iff_place.1 hyz
  exact lt_iff_place.2 ⟨⟨hx, hz⟩, hplace.trans_lt hplace'⟩

/-! ### Products -/

theorem unpacked_neg_mul (x y : ρ) : unpacked (-x * y) = (unpacked (x * y)).neg := by
  rw [unpacked_mul, unpacked_neg_eq, Rounding.neg_mul, Rounding.unpack_pack_neg, ← unpacked_mul]

@[simp]
theorem isNaN_neg (x : ρ) : RealScalar.isNaN (-x) = RealScalar.isNaN x := by
  rw [isNaN_eq, isNaN_eq, unpacked_neg_eq]
  cases unpacked x <;> rfl

@[simp]
theorem place_neg (x : ρ) : place (-x) = -place x := by
  rw [place, unpacked_neg_eq, Rounding.place_neg, place]

@[simp]
theorem isNaN_neg_mul (x y : ρ) : RealScalar.isNaN (-x * y) = RealScalar.isNaN (x * y) := by
  rw [isNaN_eq, isNaN_eq, unpacked_neg_mul]
  cases unpacked (x * y) <;> rfl

@[simp]
theorem place_neg_mul (x y : ρ) : place (-x * y) = -place (x * y) := by
  rw [place, unpacked_neg_mul, Rounding.place_neg, place]

/-- Multiplying by a positive finite number keeps the order. -/
theorem mul_le_mul (hs : 0 < s) (hfinite : RealScalar.isFinite s = true) (hxy : x ≤ y) :
    x * s ≤ y * s := by
  obtain ⟨⟨hx, hy⟩, hplace⟩ := le_iff_place.1 hxy
  have hneg : 0 ≤ -x ↔ place x ≤ 0 := by
    rw [le_iff_place, place_zero, place_neg, isNaN_neg]
    simp [hx]
  by_cases hx₀ : 0 ≤ place x
  · exact (le_mul_of_le hs hfinite (le_iff_place.2 ⟨⟨isNaN_zero, hx⟩, by simpa⟩) hxy).2
  by_cases hy₀ : 0 ≤ place y
  · -- zero is between the products
    have hleft := (le_mul_of_le hs hfinite (hneg.2 (by omega)) (le_refl (by simpa))).1
    have hright := (le_mul_of_le hs hfinite (le_iff_place.2 ⟨⟨isNaN_zero, hy⟩, by simpa⟩)
      (le_refl hy)).1
    obtain ⟨⟨-, hx'⟩, hleft⟩ := le_iff_place.1 hleft
    obtain ⟨⟨-, hy'⟩, hright⟩ := le_iff_place.1 hright
    rw [isNaN_neg_mul] at hx'
    rw [place_zero, place_neg_mul] at hleft
    rw [place_zero] at hright
    exact le_iff_place.2 ⟨⟨hx', hy'⟩, by omega⟩
  · -- the opposite factors are in the opposite order
    have hopposite : -y ≤ -x := le_iff_place.2 ⟨by simp [hx, hy], by simpa⟩
    have hpositive : 0 ≤ -y := le_iff_place.2 ⟨by simp [hy], by simp; omega⟩
    have hproducts := le_iff_place.1 (le_mul_of_le hs hfinite hpositive hopposite).2
    simpa [le_iff_place, and_comm] using hproducts

/-- A size is zero, finite and positive, infinite, or a NaN. -/
theorem size_cases (hs : RealScalar.isNaN s = false) (hs₀ : ¬ s < 0) :
    (∃ sign, unpacked s = .zero sign) ∨ (0 < s ∧ RealScalar.isFinite s = true) ∨
      unpacked s = .infinity .positive := by
  have hrepresentable := representable s
  have htop := Rounding.topPlace_pos (format ρ)
  have hplace := not_neg_iff.1 hs₀
  rw [lt_iff_place, isNaN_zero, place_zero, isFinite_eq]
  rw [isNaN_eq] at hs ⊢
  rw [place] at hplace ⊢
  cases hcase : unpacked s with
  | notANumber =>
      rw [hcase] at hs
      exact absurd hs (by decide)
  | zero sign => exact .inl ⟨sign, rfl⟩
  | infinity sign =>
      rw [hcase] at hplace
      cases sign with
      | positive => exact .inr (.inr rfl)
      | negative => exact absurd hplace (not_le.2 (neg_lt_zero.2 htop))
  | finite sign m e h =>
      rw [hcase] at hplace hrepresentable
      have hpos := hrepresentable.1.placeOf_pos
      cases sign with
      | positive => exact .inr (.inl ⟨⟨⟨rfl, rfl⟩, hpos⟩, rfl⟩)
      | negative => exact absurd hplace (not_le.2 (neg_lt_zero.2 hpos))

/-- A finite number times a zero is a zero. -/
theorem mul_zero_place {sign : Sign} (hs : unpacked s = .zero sign)
    (hx : RealScalar.isFinite x = true) :
    RealScalar.isNaN (x * s) = false ∧ place (x * s) = 0 := by
  rw [isFinite_eq] at hx
  rw [isNaN_eq, place, unpacked_mul, hs]
  cases hcase : unpacked x with
  | notANumber => simp [hcase, UnpackedFloat.isFinite] at hx
  | infinity t => simp [hcase, UnpackedFloat.isFinite] at hx
  | zero t =>
      rw [UnpackedFloat.mul, Rounding.unpack_pack_zero]
      exact ⟨rfl, rfl⟩
  | finite t m e h =>
      rw [UnpackedFloat.mul, Rounding.unpack_pack_zero]
      exact ⟨rfl, rfl⟩

/-- A finite number times infinity is infinite, and a NaN if it is zero. -/
theorem mul_infinity (hs : unpacked s = .infinity .positive)
    (hx : RealScalar.isFinite x = true) :
    (place x < 0 ∧ unpacked (x * s) = .infinity .negative) ∨
      (place x = 0 ∧ unpacked (x * s) = .notANumber) ∨
      (0 < place x ∧ unpacked (x * s) = .infinity .positive) := by
  have hrepresentable := representable x
  rw [isFinite_eq] at hx
  rw [place, unpacked_mul, hs]
  cases hcase : unpacked x with
  | notANumber => simp [hcase, UnpackedFloat.isFinite] at hx
  | infinity t => simp [hcase, UnpackedFloat.isFinite] at hx
  | zero t => exact .inr (.inl ⟨rfl, Rounding.unpack_pack_notANumber _⟩)
  | finite t m e h =>
      rw [hcase] at hrepresentable
      have hpos := hrepresentable.1.placeOf_pos
      cases t with
      | positive => exact .inr (.inr ⟨hpos, Rounding.unpack_pack_infinity _ _⟩)
      | negative => exact .inl ⟨neg_lt_zero.2 hpos, Rounding.unpack_pack_infinity _ _⟩

/-! ### Limits -/

theorem not_infinity_lt (h : unpacked x = .infinity .positive) : ¬ x < y := by
  rw [lt_iff, h]
  cases unpacked y with
  | infinity t => cases t <;> decide
  | _ => exact Bool.false_ne_true

theorem not_le_infinity (h : unpacked y = .infinity .negative) (hx : ¬ x < 0) : ¬ x ≤ y := by
  have hbottom : place y = -Rounding.topPlace (format ρ) := by
    rw [place, h]
    rfl
  have hplace := not_neg_iff.1 hx
  have htop := Rounding.topPlace_pos (format ρ)
  rw [le_iff_place]
  omega

variable {factor factor' size : ρ}

/-- A size within a multiple of another is within any larger multiple. -/
theorem le_mul_of_factor_le (hfinite : RealScalar.isFinite factor = true)
    (hfinite' : RealScalar.isFinite factor' = true) (hle : factor ≤ factor')
    (hsize : ¬ size < 0) (hx : ¬ x < 0) (h : x ≤ factor * size) : x ≤ factor' * size := by
  obtain ⟨⟨hnumber, hproduct⟩, hplace⟩ := le_iff_place.1 h
  rcases size_cases (isNaN_of_mul hproduct).2 hsize with ⟨sign, hzero⟩ | ⟨hpos, hsmall⟩ | htop
  · have hproducts := mul_zero_place hzero hfinite
    have hproducts' := mul_zero_place hzero hfinite'
    rw [hproducts.2] at hplace
    exact le_iff_place.2 ⟨⟨hnumber, hproducts'.1⟩, hplace.trans hproducts'.2.ge⟩
  · exact le_trans h (mul_le_mul hpos hsmall hle)
  · have hfactors := (le_iff_place.1 hle).2
    rcases mul_infinity htop hfinite with ⟨-, hbottom⟩ | ⟨-, hnan⟩ | ⟨hfactor, hinfinite⟩
    · exact absurd h (not_le_infinity hbottom hx)
    · exact absurd (isNaN_iff.2 hnan) (by simp [hproduct])
    · -- both multiples are infinite
      rcases mul_infinity htop hfinite' with ⟨hneg, -⟩ | ⟨hzero, -⟩ | ⟨-, hinfinite'⟩
      · omega
      · omega
      · rwa [le_iff, hinfinite', ← hinfinite, ← le_iff]

/-- A number above a multiple of a size is above any smaller multiple. -/
theorem mul_lt_of_factor_le (hfinite : RealScalar.isFinite factor = true)
    (hfinite' : RealScalar.isFinite factor' = true) (hle : factor ≤ factor')
    (hsize : ¬ size < 0) (h : factor' * size < x) : factor * size < x := by
  obtain ⟨⟨hproduct, hnumber⟩, hplace⟩ := lt_iff_place.1 h
  rcases size_cases (isNaN_of_mul hproduct).2 hsize with ⟨sign, hzero⟩ | ⟨hpos, hsmall⟩ | htop
  · have hproducts := mul_zero_place hzero hfinite
    have hproducts' := mul_zero_place hzero hfinite'
    rw [hproducts'.2] at hplace
    exact lt_iff_place.2 ⟨⟨hproducts.1, hnumber⟩, hproducts.2.trans_lt hplace⟩
  · exact lt_of_le_of_lt (mul_le_mul hpos hsmall hle) h
  · have hfactors := (le_iff_place.1 hle).2
    rcases mul_infinity htop hfinite' with ⟨hfactor, hbottom'⟩ | ⟨-, hnan⟩ | ⟨-, hinfinite⟩
    · -- both multiples are below every number
      rcases mul_infinity htop hfinite with ⟨-, hbottom⟩ | ⟨hzero, -⟩ | ⟨hpos, -⟩
      · rwa [lt_iff, hbottom, ← hbottom', ← lt_iff]
      · omega
      · omega
    · exact absurd (isNaN_iff.2 hnan) (by simp [hproduct])
    · exact absurd h (not_infinity_lt hinfinite)

end BinaryScalar

end DenseFactor
