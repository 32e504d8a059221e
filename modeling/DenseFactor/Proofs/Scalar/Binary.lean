import Mathlib
import DenseFactor.Scalar.Binary
import DenseFactor.Proofs.Scalar.Monotone

/-!
# DenseFactor.Proofs.Scalar.Binary

The two binary floating-point types as **ordered scalars with a NaN**.

Design points:

* `BinaryScalar` says which operation on unpacked numbers each operation of the type is. For
  both types this holds by definition, and everything else here is proved for any such type.
* A NaN passes through arithmetic, and a comparison that holds has none on either side. This
  is how a successful test shows that its numbers are numbers.
* Numbers are ordered by their places, so between numbers `≤` is a total order up to the sign
  of zero. Without this nothing could be concluded from a comparison that fails.
-/

namespace DenseFactor

open Float.Model Float.Model.UnpackedFloat

/-- A real scalar type whose numbers are stored in a binary format. -/
class BinaryScalar (ρ : Type) [RealScalar ρ] where
  format : Format
  two_le_exponentBits : 2 ≤ format.exponentBits
  unpacked : ρ → UnpackedFloat
  representable (x : ρ) : Rounding.Representable format (unpacked x)
  unpacked_zero : unpacked 0 = .zero .positive
  unpacked_one : unpacked 1 = .finite .positive (Rounding.fractions format)
    (-format.mantissaBitsWithoutImplicit) (Nat.two_pow_pos _)
  unpacked_nan : unpacked RealScalar.nan = .notANumber
  unpacked_neg (x : ρ) : unpacked (-x) = unpack format (pack format (unpacked x).neg)
  unpacked_abs (x : ρ) :
    unpacked (RealScalar.abs x) = unpack format (pack format (unpacked x).abs)
  unpacked_add (x y : ρ) :
    unpacked (x + y) = unpack format (pack format (add format (unpacked x) (unpacked y)))
  unpacked_sub (x y : ρ) :
    unpacked (x - y) = unpack format (pack format (sub format (unpacked x) (unpacked y)))
  unpacked_mul (x y : ρ) :
    unpacked (x * y) = unpack format (pack format (mul format (unpacked x) (unpacked y)))
  unpacked_div (x y : ρ) :
    unpacked (x / y) = unpack format (pack format (div format (unpacked x) (unpacked y)))
  beq_eq (x y : ρ) : (x == y) = (unpacked x).beq (unpacked y)
  lt_iff (x y : ρ) : x < y ↔ (unpacked x).lt (unpacked y) = true
  le_iff (x y : ρ) : x ≤ y ↔ (unpacked x).le (unpacked y) = true
  isNaN_eq (x : ρ) : RealScalar.isNaN x = (unpacked x).isNaN
  isFinite_eq (x : ρ) : RealScalar.isFinite x = (unpacked x).isFinite

instance : BinaryScalar Float where
  format := .binary64
  two_le_exponentBits := by decide
  unpacked x := x.toModel.unpack
  representable x := Rounding.representable_unpack .binary64 x.toModel.toBits.toBitVec
  unpacked_zero := rfl
  unpacked_one := rfl
  unpacked_nan := Rounding.unpack_pack_notANumber .binary64
  unpacked_neg _ := rfl
  unpacked_abs _ := rfl
  unpacked_add _ _ := rfl
  unpacked_sub _ _ := rfl
  unpacked_mul _ _ := rfl
  unpacked_div _ _ := rfl
  beq_eq _ _ := rfl
  lt_iff _ _ := decide_eq_true_iff
  le_iff _ _ := decide_eq_true_iff
  isNaN_eq _ := rfl
  isFinite_eq _ := rfl

instance : BinaryScalar Float32 where
  format := .binary32
  two_le_exponentBits := by decide
  unpacked x := x.toModel.unpack
  representable x := Rounding.representable_unpack .binary32 x.toModel.toBits.toBitVec
  unpacked_zero := rfl
  unpacked_one := rfl
  unpacked_nan := Rounding.unpack_pack_notANumber .binary32
  unpacked_neg _ := rfl
  unpacked_abs _ := rfl
  unpacked_add _ _ := rfl
  unpacked_sub _ _ := rfl
  unpacked_mul _ _ := rfl
  unpacked_div _ _ := rfl
  beq_eq _ _ := rfl
  lt_iff _ _ := decide_eq_true_iff
  le_iff _ _ := decide_eq_true_iff
  isNaN_eq _ := rfl
  isFinite_eq _ := rfl

namespace BinaryScalar

variable {ρ : Type} [RealScalar ρ] [BinaryScalar ρ] {x y s : ρ}

/-- The place of a number in the order of the type. -/
def place (x : ρ) : ℤ := Rounding.place (format ρ) (unpacked x)

theorem isNaN_iff : RealScalar.isNaN x = true ↔ unpacked x = .notANumber := by
  rw [isNaN_eq]
  cases unpacked x with
  | notANumber => exact iff_of_true rfl rfl
  | _ => exact iff_of_false Bool.false_ne_true nofun

/-! ### Order -/

/-- What a comparison of unpacked numbers says, if neither is a NaN. -/
theorem compare_eq (hx : RealScalar.isNaN x = false) (hy : RealScalar.isNaN y = false) :
    (unpacked x).compare (unpacked y) = some (compare (place x) (place y)) := by
  rw [isNaN_eq] at hx hy
  exact Rounding.compare_eq_place (representable x) (representable y) hx hy

/-- A comparison with a NaN has no answer. -/
theorem isNaN_of_compare {o : Ordering} (h : (unpacked x).compare (unpacked y) = some o) :
    RealScalar.isNaN x = false ∧ RealScalar.isNaN y = false := by
  rw [isNaN_eq, isNaN_eq]
  cases hx : unpacked x with
  | notANumber => simp [hx, UnpackedFloat.compare] at h
  | _ =>
      cases hy : unpacked y with
      | notANumber => simp [hx, hy, UnpackedFloat.compare] at h
      | _ => exact ⟨rfl, rfl⟩

theorem lt_iff_place : x < y ↔
    (RealScalar.isNaN x = false ∧ RealScalar.isNaN y = false) ∧ place x < place y := by
  rw [lt_iff, UnpackedFloat.lt, beq_iff_eq]
  constructor
  · intro h
    have hnumbers := isNaN_of_compare h
    rw [compare_eq hnumbers.1 hnumbers.2] at h
    exact ⟨hnumbers, Int.compare_eq_lt.1 (Option.some.inj h)⟩
  · rintro ⟨hnumbers, hlt⟩
    rw [compare_eq hnumbers.1 hnumbers.2, Int.compare_eq_lt.2 hlt]

theorem le_iff_place : x ≤ y ↔
    (RealScalar.isNaN x = false ∧ RealScalar.isNaN y = false) ∧ place x ≤ place y := by
  rw [le_iff, UnpackedFloat.le, Option.any_eq_true]
  constructor
  · rintro ⟨o, h, hle⟩
    have hnumbers := isNaN_of_compare h
    rw [compare_eq hnumbers.1 hnumbers.2] at h
    obtain rfl := Option.some.inj h
    exact ⟨hnumbers, Int.isLE_compare.1 hle⟩
  · rintro ⟨hnumbers, hle⟩
    exact ⟨_, compare_eq hnumbers.1 hnumbers.2, Int.isLE_compare.2 hle⟩

@[simp]
theorem place_zero : place (0 : ρ) = 0 := by
  rw [place, unpacked_zero, Rounding.place]

@[simp]
theorem isNaN_zero : RealScalar.isNaN (0 : ρ) = false := by
  rw [isNaN_eq, unpacked_zero]
  rfl

@[simp]
theorem isNaN_nan : RealScalar.isNaN (RealScalar.nan : ρ) = true := by
  rw [isNaN_eq, unpacked_nan]
  rfl

/-- Numbers that are not in one order are in the other. -/
theorem le_of_not_lt (hx : RealScalar.isNaN x = false) (hy : RealScalar.isNaN y = false)
    (h : ¬ x < y) : y ≤ x :=
  le_iff_place.2 ⟨⟨hy, hx⟩, not_lt.1 fun hlt => h (lt_iff_place.2 ⟨⟨hx, hy⟩, hlt⟩)⟩

/-- A number is not at most another one if it is larger, and also if one of them is a NaN. -/
theorem not_le_iff : ¬ x ≤ y ↔
    y < x ∨ ¬ (RealScalar.isNaN x = false ∧ RealScalar.isNaN y = false) := by
  rw [le_iff_place, lt_iff_place, not_and_or, not_le, or_comm,
    and_comm (a := RealScalar.isNaN y = false)]
  tauto

theorem le_refl (hx : RealScalar.isNaN x = false) : x ≤ x :=
  le_iff_place.2 ⟨⟨hx, hx⟩, le_rfl⟩

theorem le_of_lt (h : x < y) : x ≤ y :=
  le_iff_place.2 ⟨(lt_iff_place.1 h).1, (lt_iff_place.1 h).2.le⟩

theorem le_trans {z : ρ} (hxy : x ≤ y) (hyz : y ≤ z) : x ≤ z := by
  obtain ⟨⟨hx, -⟩, hplace⟩ := le_iff_place.1 hxy
  obtain ⟨⟨-, hz⟩, hplace'⟩ := le_iff_place.1 hyz
  exact le_iff_place.2 ⟨⟨hx, hz⟩, hplace.trans hplace'⟩

/-! ### Arithmetic -/

/-- An operation that passes on a NaN has none where its stored result is a number. -/
theorem isNaN_of_stored {op : UnpackedFloat → UnpackedFloat → UnpackedFloat}
    (hleft : ∀ v, op .notANumber v = .notANumber) (hright : ∀ u, op u .notANumber = .notANumber)
    {z : ρ} (hz : unpacked z = unpack (format ρ) (pack (format ρ) (op (unpacked x) (unpacked y))))
    (h : RealScalar.isNaN z = false) :
    RealScalar.isNaN x = false ∧ RealScalar.isNaN y = false := by
  rw [isNaN_eq, hz] at h
  rw [isNaN_eq, isNaN_eq]
  constructor
  · cases hx : unpacked x with
    | notANumber =>
        rw [hx, hleft, Rounding.unpack_pack_notANumber] at h
        exact h
    | _ => rfl
  · cases hy : unpacked y with
    | notANumber =>
        rw [hy, hright, Rounding.unpack_pack_notANumber] at h
        exact h
    | _ => rfl

theorem isNaN_of_add (h : RealScalar.isNaN (x + y) = false) :
    RealScalar.isNaN x = false ∧ RealScalar.isNaN y = false :=
  isNaN_of_stored (fun _ => rfl) (fun u => by cases u <;> rfl) (unpacked_add x y) h

theorem isNaN_of_mul (h : RealScalar.isNaN (x * y) = false) :
    RealScalar.isNaN x = false ∧ RealScalar.isNaN y = false :=
  isNaN_of_stored (fun _ => rfl) (fun u => by cases u <;> rfl) (unpacked_mul x y) h

theorem isNaN_of_sub (h : RealScalar.isNaN (x - y) = false) :
    RealScalar.isNaN x = false ∧ RealScalar.isNaN y = false :=
  isNaN_of_stored (fun _ => rfl) (fun u => by cases u <;> rfl) (unpacked_sub x y) h

theorem isNaN_of_div (h : RealScalar.isNaN (x / y) = false) :
    RealScalar.isNaN x = false ∧ RealScalar.isNaN y = false :=
  isNaN_of_stored (fun _ => rfl) (fun u => by cases u <;> rfl) (unpacked_div x y) h

theorem isNaN_of_abs (h : RealScalar.isNaN (RealScalar.abs x) = false) :
    RealScalar.isNaN x = false := by
  rw [isNaN_eq, unpacked_abs] at h
  rw [isNaN_eq]
  cases hx : unpacked x with
  | notANumber =>
      rw [hx, UnpackedFloat.abs, Rounding.unpack_pack_notANumber] at h
      exact h
  | _ => rfl

omit [BinaryScalar ρ] in
/-- An operation whose numbers come from numbers only passes on a NaN. -/
theorem isNaN_of_operand {z : ρ}
    (hop : RealScalar.isNaN z = false → RealScalar.isNaN x = false ∧ RealScalar.isNaN y = false)
    (h : RealScalar.isNaN x = true ∨ RealScalar.isNaN y = true) : RealScalar.isNaN z = true := by
  by_contra hz
  obtain ⟨hx, hy⟩ := hop (Bool.eq_false_of_not_eq_true hz)
  rw [hx, hy] at h
  exact h.elim Bool.false_ne_true Bool.false_ne_true

/-- Negation changes the sign and nothing else. -/
theorem unpacked_neg_eq (x : ρ) : unpacked (-x) = (unpacked x).neg := by
  have hx := representable x
  rw [unpacked_neg]
  refine Rounding.Representable.unpack_pack ?_ two_le_exponentBits
  cases hcase : unpacked x <;> rw [hcase] at hx <;> exact hx

/-- The opposite of a number below zero. -/
theorem zero_le_neg (h : x < 0) : 0 ≤ -x := by
  obtain ⟨⟨hx, -⟩, hlt⟩ := lt_iff_place.1 h
  rw [isNaN_eq] at hx
  rw [place_zero, place] at hlt
  refine le_iff_place.2 ⟨⟨isNaN_zero, ?_⟩, ?_⟩
  · rw [isNaN_eq, unpacked_neg_eq]
    cases hcase : unpacked x <;> rw [hcase] at hx <;> exact hx
  · rw [place_zero, place, unpacked_neg_eq, Rounding.place_neg]
    omega

/-! ### Scaling -/

/-- A positive finite number, taken apart. -/
theorem exists_canonical (hs : 0 < s) (hfinite : RealScalar.isFinite s = true) :
    ∃ m e, ∃ h : Rounding.Canonical (format ρ) m e, unpacked s = .finite .positive m e h.pos := by
  obtain ⟨-, hlt⟩ := lt_iff_place.1 hs
  have hrepresentable := representable s
  rw [isFinite_eq] at hfinite
  rw [place_zero, place] at hlt
  cases hcase : unpacked s with
  | notANumber => simp [hcase, UnpackedFloat.isFinite] at hfinite
  | infinity sign => simp [hcase, UnpackedFloat.isFinite] at hfinite
  | zero sign =>
      rw [hcase] at hlt
      exact absurd hlt (lt_irrefl 0)
  | finite sign m e hm =>
      rw [hcase] at hlt hrepresentable
      cases sign with
      | positive => exact ⟨m, e, hrepresentable.1, rfl⟩
      | negative => exact absurd hlt (not_lt.2 (neg_nonpos.2 hrepresentable.1.placeOf_pos.le))

/-- Multiplying by a positive finite number keeps numbers that are not negative, and their
order. -/
theorem le_mul_of_le (hs : 0 < s) (hfinite : RealScalar.isFinite s = true) (hx : 0 ≤ x)
    (hxy : x ≤ y) : 0 ≤ x * s ∧ x * s ≤ y * s := by
  obtain ⟨m, e, hcanonical, hscale⟩ := exists_canonical hs hfinite
  obtain ⟨⟨hx', hy'⟩, hplace⟩ := le_iff_place.1 hxy
  have hx₀ : 0 ≤ place x := place_zero.symm.le.trans (le_iff_place.1 hx).2
  -- the product in terms of the place of the factor
  have hmul {z : ρ} (hz : RealScalar.isNaN z = false) (hz₀ : 0 ≤ place z) :
      RealScalar.isNaN (z * s) = false ∧ place (z * s) = min (Rounding.topPlace (format ρ))
        (Rounding.scaledPlace (format ρ) m e (unpacked z)) := by
    rw [isNaN_eq] at hz ⊢
    rw [place, unpacked_mul, hscale]
    exact Rounding.place_mul two_le_exponentBits hcanonical (representable z) hz hz₀
  obtain ⟨hx₁, hx₂⟩ := hmul hx' hx₀
  obtain ⟨hy₁, hy₂⟩ := hmul hy' (hx₀.trans hplace)
  constructor
  · refine le_iff_place.2 ⟨⟨isNaN_zero, hx₁⟩, ?_⟩
    rw [place_zero, hx₂]
    exact le_min (Rounding.topPlace_pos _).le (Rounding.scaledPlace_nonneg _ _ _ _)
  · refine le_iff_place.2 ⟨⟨hx₁, hy₁⟩, ?_⟩
    rw [hx₂, hy₂]
    exact Rounding.scaledPlace_mono hcanonical (representable x) (representable y) hx₀ hplace

end BinaryScalar

end DenseFactor
