import Mathlib
import DenseFactor.Scalar.Rounding

/-!
# DenseFactor.Proofs.Scalar.Canonical

The numbers of a binary format **in order**: every one has an integer as its place, and
comparing two numbers compares their places.

Design points:

* A format is any with at least two bits of exponent. Nothing here is about a particular
  width.
* The place of a positive number is what its exponent and mantissa bits spell as one
  integer, and infinity has the first place that no finite number has. Neighbouring
  numbers have neighbouring places, so the place of a rounded result is easy to bound.
* `Canonical` is the form in which finite numbers are compared, whether or not they fit;
  `Representable` is what can be read from bits. Packing keeps a representable number, and
  makes one that does not fit infinite: it cuts the place off at the top.
-/

namespace DenseFactor.Rounding

open Float.Model Float.Model.UnpackedFloat

variable {format : Format}

/-! ### Formats -/

theorem minExponent_add (format : Format) :
    format.minExponent + format.exponentBias + format.mantissaBitsWithoutImplicit = 1 := by
  have hpos : 1 ≤ 2 ^ (format.exponentBits - 1) := Nat.one_le_two_pow
  unfold Format.minExponent Format.exponentBias Format.mantissaBits
  push_cast [hpos]
  ring

theorem minExponent_nonpos (format : Format) : format.minExponent ≤ 0 := by
  have hsum := minExponent_add format
  have hmantissa := format.hm
  omega

/-- A shift moves the leading bit. -/
theorem log2_mul_two_pow {m : ℕ} (hm : m ≠ 0) (d : ℕ) : (m * 2 ^ d).log2 = m.log2 + d := by
  refine (Nat.log2_eq_iff (Nat.mul_pos (Nat.pos_of_ne_zero hm) (Nat.two_pow_pos d)).ne').2 ⟨?_, ?_⟩
  · rw [Nat.pow_add]
    exact Nat.mul_le_mul_right _ (Nat.log2_self_le hm)
  · rw [Nat.add_right_comm, Nat.pow_add]
    exact Nat.mul_lt_mul_of_pos_right Nat.lt_log2_self (Nat.two_pow_pos d)

/-- The mantissas without the leading bit. -/
def fractions (format : Format) : ℕ := 2 ^ format.mantissaBitsWithoutImplicit

theorem two_le_fractions (format : Format) : 2 ≤ fractions format :=
  Nat.le_pow format.hm

theorem two_pow_mantissaBits (format : Format) :
    2 ^ format.mantissaBits = 2 * fractions format := by
  rw [Format.mantissaBits, Nat.pow_add, Nat.pow_one, fractions]

/-! ### Places -/

/-- The place of a positive finite number. -/
def placeOf (format : Format) (m : ℕ) (e : ℤ) : ℤ :=
  (e - format.minExponent) * fractions format + m

/-- The place of infinity. -/
def topPlace (format : Format) : ℤ := (2 ^ format.exponentBits - 1) * fractions format

/-- The place of a number; those of both zeros are the same. -/
def place (format : Format) : UnpackedFloat → ℤ
  | .notANumber => 0
  | .infinity s => s.apply (topPlace format)
  | .zero _ => 0
  | .finite s m e _ => s.apply (placeOf format m e)

theorem apply_neg (s : Sign) (n : ℤ) : (-s).apply n = -s.apply n := by
  cases s with
  | negative => exact (Int.neg_neg n).symm
  | positive => rfl

theorem place_neg (format : Format) (x : UnpackedFloat) :
    place format x.neg = -place format x := by
  cases x with
  | notANumber => rfl
  | infinity s => exact apply_neg s _
  | zero s => rfl
  | finite s m e hm => exact apply_neg s _

/-- Mantissa and exponent of a finite number in the form in which it is compared: the
leading bit is set, unless the exponent is the least. -/
structure Canonical (format : Format) (m : ℕ) (e : ℤ) : Prop where
  pos : 0 < m
  lt : m < 2 * fractions format
  le : format.minExponent ≤ e
  normal : e = format.minExponent ∨ fractions format ≤ m

/-- What can be read from bits. -/
def Representable (format : Format) : UnpackedFloat → Prop
  | .finite _ m e _ => Canonical format m e ∧ placeOf format m e < topPlace format
  | _ => True

theorem fractions_pos (format : Format) : (0 : ℤ) < fractions format := by
  have htwo := two_le_fractions format
  omega

theorem Canonical.placeOf_pos {m : ℕ} {e : ℤ} (h : Canonical format m e) :
    0 < placeOf format m e := by
  have hexponent : 0 ≤ (e - format.minExponent) * fractions format :=
    mul_nonneg (by have := h.le; omega) (fractions_pos format).le
  have hpos := h.pos
  unfold placeOf
  omega

/-- A larger exponent puts a number in a later place. -/
theorem Canonical.placeOf_lt {m m' : ℕ} {e e' : ℤ} (h : Canonical format m e)
    (h' : Canonical format m' e') (he : e < e') : placeOf format m e < placeOf format m' e' := by
  have hfull : fractions format ≤ m' := h'.normal.resolve_left (by have := h.le; omega)
  have hstep : (e - format.minExponent + 1) * fractions format ≤
      (e' - format.minExponent) * fractions format :=
    mul_le_mul_of_nonneg_right (by omega) (fractions_pos format).le
  have hlt := h.lt
  rw [add_mul, one_mul] at hstep
  unfold placeOf
  omega

/-- Comparing exponents and then mantissas compares places. -/
theorem Canonical.compare_eq {m m' : ℕ} {e e' : ℤ} (h : Canonical format m e)
    (h' : Canonical format m' e') : (compare e e').then (compare m m') =
      compare (placeOf format m e) (placeOf format m' e') := by
  rcases lt_trichotomy e e' with he | rfl | he
  · rw [Int.compare_eq_lt.2 he, Int.compare_eq_lt.2 (h.placeOf_lt h' he)]
    rfl
  · have hmantissa : compare (placeOf format m e) (placeOf format m' e) = compare m m' := by
      unfold placeOf
      rcases lt_trichotomy m m' with hm | rfl | hm
      · rw [Nat.compare_eq_lt.2 hm, Int.compare_eq_lt.2 (by omega)]
      · rw [Nat.compare_eq_eq.2 rfl, Int.compare_eq_eq.2 rfl]
      · rw [Nat.compare_eq_gt.2 hm, Int.compare_eq_gt.2 (by omega)]
    rw [Int.compare_eq_eq.2 rfl, hmantissa]
    rfl
  · rw [Int.compare_eq_gt.2 he, Int.compare_eq_gt.2 (h'.placeOf_lt h he)]
    rfl

theorem topPlace_pos (format : Format) : 0 < topPlace format := by
  have hbits : (2 : ℤ) ≤ 2 ^ format.exponentBits := by
    exact_mod_cast Nat.le_pow format.he
  exact mul_pos (by omega) (fractions_pos format)

theorem compare_neg (a b : ℤ) : compare (-a) (-b) = (compare a b).swap := by
  rcases lt_trichotomy a b with h | rfl | h
  · rw [Int.compare_eq_lt.2 h, Int.compare_eq_gt.2 (by omega)]
    rfl
  · rw [Int.compare_eq_eq.2 rfl, Int.compare_eq_eq.2 rfl]
    rfl
  · rw [Int.compare_eq_gt.2 h, Int.compare_eq_lt.2 (by omega)]
    rfl

theorem some_lt {a b : ℤ} (h : a < b) : some Ordering.lt = some (compare a b) := by
  rw [Int.compare_eq_lt.2 h]

theorem some_eq (a : ℤ) : some Ordering.eq = some (compare a a) := by
  rw [Int.compare_eq_eq.2 rfl]

theorem some_gt {a b : ℤ} (h : b < a) : some Ordering.gt = some (compare a b) := by
  rw [Int.compare_eq_gt.2 h]

section Compare

variable {x y : UnpackedFloat} {s : Sign} {m : ℕ} {e : ℤ} {hm : 0 < m}

theorem infinity_compare (s : Sign) (hy : Representable format y) (hy' : y.isNaN = false) :
    (infinity s).compare y = some (compare (place format (.infinity s)) (place format y)) := by
  have htop := topPlace_pos format
  cases y with
  | notANumber => exact absurd hy' (by decide)
  | infinity s' =>
      cases s <;> cases s'
      · exact some_eq _
      · exact some_lt (by simp only [place, Sign.apply]; omega)
      · exact some_gt (by simp only [place, Sign.apply]; omega)
      · exact some_eq _
  | zero s' =>
      cases s
      · exact some_lt (by simp only [place, Sign.apply]; omega)
      · exact some_gt (by simp only [place, Sign.apply]; omega)
  | finite s' m' e' hm' =>
      have hpos := hy.1.placeOf_pos
      have hfits := hy.2
      cases s <;> cases s'
      · exact some_lt (by simp only [place, Sign.apply]; omega)
      · exact some_lt (by simp only [place, Sign.apply]; omega)
      · exact some_gt (by simp only [place, Sign.apply]; omega)
      · exact some_gt (by simp only [place, Sign.apply]; omega)

theorem zero_compare (s : Sign) (hy : Representable format y) (hy' : y.isNaN = false) :
    (zero s).compare y = some (compare (place format (.zero s)) (place format y)) := by
  have htop := topPlace_pos format
  cases y with
  | notANumber => exact absurd hy' (by decide)
  | infinity s' =>
      cases s'
      · exact some_gt (by simp only [place, Sign.apply]; omega)
      · exact some_lt (by simp only [place, Sign.apply]; omega)
  | zero s' => exact some_eq _
  | finite s' m' e' hm' =>
      have hpos := hy.1.placeOf_pos
      cases s'
      · exact some_gt (by simp only [place, Sign.apply]; omega)
      · exact some_lt (by simp only [place, Sign.apply]; omega)

theorem finite_compare (hx : Representable format (.finite s m e hm))
    (hy : Representable format y) (hy' : y.isNaN = false) :
    (finite s m e hm).compare y =
      some (compare (place format (.finite s m e hm)) (place format y)) := by
  have hpos := hx.1.placeOf_pos
  have hfits := hx.2
  cases y with
  | notANumber => exact absurd hy' (by decide)
  | infinity s' =>
      cases s' <;> cases s
      · exact some_gt (by simp only [place, Sign.apply]; omega)
      · exact some_gt (by simp only [place, Sign.apply]; omega)
      · exact some_lt (by simp only [place, Sign.apply]; omega)
      · exact some_lt (by simp only [place, Sign.apply]; omega)
  | zero s' =>
      cases s
      · exact some_lt (by simp only [place, Sign.apply]; omega)
      · exact some_gt (by simp only [place, Sign.apply]; omega)
  | finite s' m' e' hm' =>
      have hpos' := hy.1.placeOf_pos
      cases s <;> cases s'
      · simp only [place, Sign.apply, compare_neg, ← hx.1.compare_eq hy.1]
        rfl
      · exact some_lt (by simp only [place, Sign.apply]; omega)
      · exact some_gt (by simp only [place, Sign.apply]; omega)
      · simp only [place, Sign.apply, ← hx.1.compare_eq hy.1]
        rfl

/-- Numbers are compared by their places. -/
theorem compare_eq_place (hx : Representable format x) (hy : Representable format y)
    (hx' : x.isNaN = false) (hy' : y.isNaN = false) :
    x.compare y = some (compare (place format x) (place format y)) := by
  cases x with
  | notANumber => exact absurd hx' (by decide)
  | infinity s => exact infinity_compare s hy hy'
  | zero s => exact zero_compare s hy hy'
  | finite s m e hm => exact finite_compare hx hy hy'

end Compare

/-! ### Packing -/

theorem unpackSign_packComponents {format : Format} (sign : Sign) (e m) :
    unpackSign (packComponents format sign e m) = sign.toBitVec := by
  ext i hi
  have hi : i = 0 := by omega
  subst hi
  simp [unpackSign, packComponents, BitVec.getLsbD_eq_getElem, BitVec.getLsbD_append,
    BitVec.getElem_append]

theorem ofBitVec_toBitVec (sign : Sign) : Sign.ofBitVec sign.toBitVec = sign := by
  cases sign <;> rfl

theorem toNat_neg_one (n : ℕ) : (-1#n).toNat = 2 ^ n - 1 := by
  rw [BitVec.neg_one_eq_allOnes, BitVec.toNat_allOnes]

/-- The exponent field of zeros and subnormal numbers is not that of infinity. -/
theorem zero_ne_neg_one (format : Format) :
    (0#_ : BitVec format.exponentBits) ≠ -1#_ := by
  intro heq
  have hnat := congrArg BitVec.toNat heq
  have hbits : 2 ≤ 2 ^ format.exponentBits := Nat.le_pow format.he
  rw [toNat_neg_one, BitVec.toNat_zero] at hnat
  omega

theorem unpack_pack_notANumber (format : Format) :
    unpack format (pack format .notANumber) = .notANumber := by
  have hquiet : (1#_ : BitVec format.mantissaBitsWithoutImplicit) <<<
      (format.mantissaBitsWithoutImplicit - 1) ≠ 0#_ := by
    intro heq
    have hlast := congrArg (fun b => b.getLsbD (format.mantissaBitsWithoutImplicit - 1)) heq
    have hlt : format.mantissaBitsWithoutImplicit - 1 < format.mantissaBitsWithoutImplicit :=
      Nat.sub_lt format.hm Nat.one_pos
    simp [hlt] at hlast
  simp only [UnpackedFloat.pack, UnpackedFloat.unpack, packedNaN, unpackMantissa_packComponents,
    unpackExponent_packComponents, if_true, if_neg hquiet]

theorem unpack_pack_infinity (format : Format) (sign : Sign) :
    unpack format (pack format (.infinity sign)) = .infinity sign := by
  have hzero : (0 : BitVec format.mantissaBitsWithoutImplicit) = 0#_ := rfl
  simp only [UnpackedFloat.pack, UnpackedFloat.unpack, packedInfinity,
    unpackMantissa_packComponents, unpackExponent_packComponents, unpackSign_packComponents,
    ofBitVec_toBitVec, if_true, hzero]

theorem unpack_pack_zero (format : Format) (sign : Sign) :
    unpack format (pack format (.zero sign)) = .zero sign := by
  have hzero : (0 : BitVec format.mantissaBitsWithoutImplicit) = 0#_ := rfl
  have hzero' : (0 : BitVec format.exponentBits) = 0#_ := rfl
  simp only [UnpackedFloat.pack, UnpackedFloat.unpack, packedZero, unpackMantissa_packComponents,
    unpackExponent_packComponents, unpackSign_packComponents, ofBitVec_toBitVec, if_true, hzero,
    hzero', if_neg (zero_ne_neg_one format), dif_pos]

section Finite

variable {m : ℕ} {e : ℤ}

/-- The leading bit, which is not stored, comes back. -/
theorem toNat_append_leading (hlow : fractions format ≤ m) (hhigh : m < 2 * fractions format) :
    (1#1 ++ BitVec.ofNat format.mantissaBitsWithoutImplicit m).toNat = m := by
  have hstored :
      (BitVec.ofNat format.mantissaBitsWithoutImplicit m).toNat = m - fractions format := by
    have hmod : m % fractions format = (m - fractions format) % fractions format :=
      (Nat.mod_eq_sub_mod hlow)
    rw [BitVec.toNat_ofNat, ← fractions, hmod, Nat.mod_eq_of_lt (by omega)]
  have hlt := (BitVec.ofNat format.mantissaBitsWithoutImplicit m).isLt
  rw [BitVec.toNat_append, ← Nat.shiftLeft_add_eq_or_of_lt hlt, hstored, Nat.shiftLeft_eq]
  have hone : (1#1).toNat * 2 ^ format.mantissaBitsWithoutImplicit = fractions format := one_mul _
  omega

/-- The exponent field of a finite number, and when it is too large. -/
theorem Canonical.biased (h : Canonical format m e) :
    ((e + format.exponentBias + format.mantissaBitsWithoutImplicit).toNat : ℤ) =
      e - format.minExponent + 1 := by
  have hsum := minExponent_add format
  have hle := h.le
  omega

theorem Canonical.overflow_iff (h : Canonical format m e) (hbits : 2 ≤ format.exponentBits) :
    2 ^ format.exponentBits ≤
        (e + format.exponentBias + format.mantissaBitsWithoutImplicit).toNat + 1 ↔
      topPlace format ≤ placeOf format m e := by
  have hbiased := h.biased
  have hfour : 4 ≤ 2 ^ format.exponentBits :=
    Nat.pow_le_pow_right (n := 2) Nat.two_pos hbits
  have hfractions := fractions_pos format
  have hlt := h.lt
  constructor
  · intro hover
    have hover' : (2 : ℤ) ^ format.exponentBits ≤ e - format.minExponent + 2 := by
      have hcast : ((2 ^ format.exponentBits : ℕ) : ℤ) ≤
          ((e + format.exponentBias + format.mantissaBitsWithoutImplicit).toNat : ℤ) + 1 := by
        exact_mod_cast hover
      push_cast at hcast
      omega
    have hfour' : (4 : ℤ) ≤ 2 ^ format.exponentBits := by exact_mod_cast hfour
    have hfull : fractions format ≤ m := h.normal.resolve_left (by omega)
    have hstep : (2 ^ format.exponentBits - 2) * (fractions format : ℤ) ≤
        (e - format.minExponent) * fractions format :=
      mul_le_mul_of_nonneg_right (by omega) hfractions.le
    unfold topPlace placeOf
    linarith
  · intro htop
    by_contra hover
    have hunder : e - format.minExponent + 3 ≤ (2 : ℤ) ^ format.exponentBits := by
      have hcast : ((e + format.exponentBias + format.mantissaBitsWithoutImplicit).toNat : ℤ) + 2 ≤
          ((2 ^ format.exponentBits : ℕ) : ℤ) := by
        exact_mod_cast not_le.1 hover
      push_cast at hcast
      omega
    have hstep : (e - format.minExponent) * fractions format ≤
        (2 ^ format.exponentBits - 3) * (fractions format : ℤ) :=
      mul_le_mul_of_nonneg_right (by omega) hfractions.le
    unfold topPlace placeOf at htop
    linarith

/-- The exponent field of a number that fits. -/
theorem Canonical.toNat_field (h : Canonical format m e) (hbits : 2 ≤ format.exponentBits)
    (hfits : ¬ topPlace format ≤ placeOf format m e) :
    (BitVec.ofNat format.exponentBits
      (e + format.exponentBias + format.mantissaBitsWithoutImplicit).toNat).toNat =
        (e + format.exponentBias + format.mantissaBitsWithoutImplicit).toNat := by
  have hover := (h.overflow_iff hbits).not.2 hfits
  rw [BitVec.toNat_ofNat, Nat.mod_eq_of_lt (by omega)]

/-- With the leading bit set, the bit is not stored and comes back. -/
theorem Canonical.unpack_pack_normal (h : Canonical format m e) (hbits : 2 ≤ format.exponentBits)
    (hfits : ¬ topPlace format ≤ placeOf format m e) (hfull : fractions format ≤ m) (sign : Sign) :
    unpack format (pack format (.finite sign m e h.pos)) = .finite sign m e h.pos := by
  have hbiased := h.biased
  have hsum := minExponent_add format
  have hle := h.le
  have hlt := h.lt
  have hover := (h.overflow_iff hbits).not.2 hfits
  have hfield := h.toNat_field hbits hfits
  generalize hb : (e + format.exponentBias + format.mantissaBitsWithoutImplicit).toNat = biased
    at hbiased hover hfield
  have hlog : m.log2 + 1 = format.mantissaBits := by
    have heq : m.log2 = format.mantissaBitsWithoutImplicit :=
      (Nat.log2_eq_iff h.pos.ne').2 ⟨hfull, by rw [Nat.pow_succ]; unfold fractions at hlt; omega⟩
    rw [heq, Format.mantissaBits, add_comm]
  have hinfinite : BitVec.ofNat format.exponentBits biased ≠ -1#_ := fun heq => by
    have hnat := congrArg BitVec.toNat heq
    rw [hfield, toNat_neg_one] at hnat
    omega
  have hsubnormal : BitVec.ofNat format.exponentBits biased ≠ 0#_ := fun heq => by
    have hnat := congrArg BitVec.toNat heq
    rw [hfield, BitVec.toNat_zero] at hnat
    omega
  simp only [UnpackedFloat.pack, hb, if_neg hover, if_pos hlog, UnpackedFloat.unpack,
    unpackMantissa_packComponents, unpackExponent_packComponents, unpackSign_packComponents,
    ofBitVec_toBitVec, if_neg hinfinite, if_neg hsubnormal, hfield,
    toNat_append_leading hfull hlt]
  congr 1
  omega

/-- Without the leading bit, the exponent is the least and its field is zero. -/
theorem Canonical.unpack_pack_subnormal (h : Canonical format m e)
    (hbits : 2 ≤ format.exponentBits) (hfits : ¬ topPlace format ≤ placeOf format m e)
    (hfull : ¬ fractions format ≤ m) (sign : Sign) :
    unpack format (pack format (.finite sign m e h.pos)) = .finite sign m e h.pos := by
  have hsum := minExponent_add format
  have hover := (h.overflow_iff hbits).not.2 hfits
  have hleast : e = format.minExponent := h.normal.resolve_right hfull
  have hstored : (BitVec.ofNat format.mantissaBitsWithoutImplicit m).toNat = m := by
    rw [BitVec.toNat_ofNat, ← fractions, Nat.mod_eq_of_lt (not_le.1 hfull)]
  have hlog : ¬ m.log2 + 1 = format.mantissaBits := by
    have hsmall : m.log2 < format.mantissaBitsWithoutImplicit :=
      (Nat.log2_lt h.pos.ne').2 (not_le.1 hfull)
    rw [Format.mantissaBits]
    omega
  have hnonzero : BitVec.ofNat format.mantissaBitsWithoutImplicit m ≠ 0#_ := fun heq => by
    have hnat := congrArg BitVec.toNat heq
    rw [hstored, BitVec.toNat_zero] at hnat
    exact h.pos.ne' hnat
  simp only [UnpackedFloat.pack, if_neg hover, if_neg hlog, UnpackedFloat.unpack,
    unpackMantissa_packComponents, unpackExponent_packComponents, unpackSign_packComponents,
    ofBitVec_toBitVec, if_neg (zero_ne_neg_one format), if_true, dif_neg hnonzero, hstored,
    BitVec.toNat_zero]
  congr 1
  omega

/-- A finite number that fits is stored as it is, any other as infinity. -/
theorem Canonical.unpack_pack (h : Canonical format m e) (hbits : 2 ≤ format.exponentBits)
    (sign : Sign) :
    unpack format (pack format (.finite sign m e h.pos)) =
      if topPlace format ≤ placeOf format m e then .infinity sign else .finite sign m e h.pos := by
  by_cases htop : topPlace format ≤ placeOf format m e
  · have hover := (h.overflow_iff hbits).2 htop
    have hpack : pack format (.finite sign m e h.pos) = pack format (.infinity sign) := by
      simp only [UnpackedFloat.pack, if_pos hover]
    rw [hpack, unpack_pack_infinity, if_pos htop]
  rw [if_neg htop]
  by_cases hfull : fractions format ≤ m
  · exact h.unpack_pack_normal hbits htop hfull sign
  · exact h.unpack_pack_subnormal hbits htop hfull sign

end Finite

/-- A number without the leading bit. -/
theorem representable_subnormal (sign : Sign) {m : ℕ} (hpos : 0 < m) (hlt : m < fractions format) :
    Representable format (.finite sign m format.minExponent hpos) := by
  refine ⟨⟨hpos, by omega, le_rfl, Or.inl rfl⟩, ?_⟩
  have hbits : (2 : ℤ) ≤ 2 ^ format.exponentBits := by
    exact_mod_cast Nat.le_pow format.he
  have htop : (1 : ℤ) * fractions format ≤ topPlace format :=
    mul_le_mul_of_nonneg_right (by omega) (fractions_pos format).le
  rw [placeOf, sub_self, zero_mul]
  omega

/-- A number with the leading bit, by its exponent field and the rest of its mantissa. -/
theorem representable_normal (sign : Sign) {m field : ℕ} {e : ℤ} (hpos : 0 < fractions format + m)
    (hlt : m < fractions format) (hfield : 0 < field)
    (hfield' : field + 1 < 2 ^ format.exponentBits) (he : e = format.minExponent + field - 1) :
    Representable format (.finite sign (fractions format + m) e hpos) := by
  refine ⟨⟨hpos, by omega, by omega, Or.inr (Nat.le_add_right _ m)⟩, ?_⟩
  have hbelow : (field : ℤ) ≤ 2 ^ format.exponentBits - 2 := by
    have hcast : ((field + 1 : ℕ) : ℤ) < ((2 ^ format.exponentBits : ℕ) : ℤ) := by
      exact_mod_cast hfield'
    push_cast at hcast
    omega
  have hstep : (field : ℤ) * fractions format ≤ (2 ^ format.exponentBits - 2) * fractions format :=
    mul_le_mul_of_nonneg_right hbelow (fractions_pos format).le
  have hexponent : e - format.minExponent = field - 1 := by omega
  rw [placeOf, hexponent, topPlace]
  push_cast
  linarith

/-- What is read from bits is representable. -/
theorem representable_unpack (format : Format) (b : BitVec format.numBits) :
    Representable format (unpack format b) := by
  have hsum := minExponent_add format
  have hmantissa : (unpackMantissa b).toNat < fractions format := (unpackMantissa b).isLt
  unfold UnpackedFloat.unpack
  dsimp only
  by_cases hinfinite : unpackExponent b = -1#_
  · rw [if_pos hinfinite]
    by_cases hzero : unpackMantissa b = 0#_
    · rw [if_pos hzero]
      trivial
    · rw [if_neg hzero]
      trivial
  rw [if_neg hinfinite]
  by_cases hsubnormal : unpackExponent b = 0#_
  · rw [if_pos hsubnormal]
    by_cases hzero : unpackMantissa b = 0#_
    · rw [dif_pos hzero]
      trivial
    · have hpos : 0 < (unpackMantissa b).toNat :=
        Nat.pos_of_ne_zero fun heq => hzero (BitVec.eq_of_toNat_eq heq)
      have hleast : ((unpackExponent b).toNat : ℤ) -
          (format.exponentBias + format.mantissaBitsWithoutImplicit) + 1 = format.minExponent := by
        rw [hsubnormal, BitVec.toNat_zero]
        omega
      rw [dif_neg hzero]
      simp only [hleast]
      exact representable_subnormal _ hpos hmantissa
  · have hleading :
        (1#1 ++ unpackMantissa b).toNat = fractions format + (unpackMantissa b).toNat := by
      rw [BitVec.toNat_append, ← Nat.shiftLeft_add_eq_or_of_lt (unpackMantissa b).isLt,
        Nat.shiftLeft_eq]
      exact congrArg (· + _) (one_mul _)
    have hfield : 0 < (unpackExponent b).toNat :=
      Nat.pos_of_ne_zero fun heq => hsubnormal (BitVec.eq_of_toNat_eq heq)
    have hfield' : (unpackExponent b).toNat + 1 < 2 ^ format.exponentBits := by
      have hlt := (unpackExponent b).isLt
      have hne : (unpackExponent b).toNat ≠ 2 ^ format.exponentBits - 1 := fun heq =>
        hinfinite (BitVec.eq_of_toNat_eq (heq.trans (toNat_neg_one _).symm))
      omega
    rw [if_neg hsubnormal]
    simp only [hleading]
    exact representable_normal _ _ hmantissa hfield hfield' (by omega)

/-- A representable number is stored as it is. -/
theorem Representable.unpack_pack {x : UnpackedFloat} (h : Representable format x)
    (hbits : 2 ≤ format.exponentBits) : unpack format (pack format x) = x := by
  cases x with
  | notANumber => exact unpack_pack_notANumber format
  | infinity s => exact unpack_pack_infinity format s
  | zero s => exact unpack_pack_zero format s
  | finite s m e hm =>
      rw [h.1.unpack_pack hbits s, if_neg (not_le.2 h.2)]

end DenseFactor.Rounding
