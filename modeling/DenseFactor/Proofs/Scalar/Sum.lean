import Mathlib
import DenseFactor.Proofs.Scalar.Identity
import DenseFactor.Proofs.Scalar.Root

/-!
# DenseFactor.Proofs.Scalar.Sum

**Sums of rounded numbers**: which of them are zero, which sign they have, and how large they
are at least.

Design points:

* All numbers of a format are multiples of its least one, and so are exact sums. A sum that is
  not zero is therefore not rounded to zero, and terms of a sum of zero are opposite.
* `HasSign s x` is as little as a sign can mean: nothing is said of a NaN or a zero. In this
  form signs go through sums, products and quotients, whether or not these are rounded away.
* A sum of two numbers of one sign is at least as large as either.
-/

namespace DenseFactor

namespace Rounding

open Float.Model Float.Model.UnpackedFloat

variable {format : Format} {x y : UnpackedFloat} {s t : Sign} {m m₁ m₂ : ℕ} {e e₁ e₂ : ℤ}

/-! ### Rounding exact sums -/

/-- Bits are added on the right where there are too few. -/
theorem round_eq (format : Format) (s : Sign) (m : ℕ) (e : ℤ) : round format s m e =
    roundWithAccuracy format s (m * 2 ^ (e - roundedExponent format m e).toNat)
      (e - (e - roundedExponent format m e).toNat) .exact := by
  unfold UnpackedFloat.round decreaseExponent
  simp only [Nat.shiftLeft_eq]
  rfl

theorem roundedExponent_mul_two_pow (hm : 0 < m) (k : ℕ) :
    roundedExponent format (m * 2 ^ k) (e - k) = roundedExponent format m e := by
  rw [roundedExponent_eq, roundedExponent_eq, log2_mul_two_pow hm.ne']
  congr 1
  push_cast
  ring

variable (format) in
/-- A multiple of the least number is not rounded away, and not below a number of the format
that it is not below. -/
theorem round_multiple (s : Sign) (hm : 0 < m) (he : format.minExponent ≤ e) :
    ∃ m' e', ∃ h' : Canonical format m' e', round format s m e = .finite s m' e' h'.pos ∧
      ∀ m₂ d : ℕ, Canonical format m₂ (e + d) → m₂ * 2 ^ d ≤ m →
        placeOf format m₂ (e + d) ≤ placeOf format m' e' := by
  set k := (e - roundedExponent format m e).toNat with hk
  have hpos : 0 < m * 2 ^ k := Nat.mul_pos hm (Nat.two_pow_pos k)
  have hexponent : roundedExponent format (m * 2 ^ k) (e - k) = roundedExponent format m e :=
    roundedExponent_mul_two_pow hm k
  have hfits : e - k ≤ roundedExponent format (m * 2 ^ k) (e - k) := by
    rw [hexponent]
    omega
  have hround := round_eq format s m e
  rw [← hk] at hround
  -- nothing is shifted out beyond the leading bit
  obtain ⟨_, _, _, hfinite⟩ := roundWithAccuracy_canonical format s .exact hpos hfits
    (by rw [hexponent, roundedExponent_eq, log2_mul_two_pow hm.ne']; push_cast; omega)
  rcases roundWithAccuracy_place s hpos hfits with ⟨hzero, -⟩ | ⟨m', e', h', hcase, hplace⟩
  · rw [hfinite] at hzero
    cases hzero
  refine ⟨m', e', h', hround.trans hcase, fun m₂ d h₂ hle => ?_⟩
  have hshift : e + d - (d + k : ℕ) = e - k := by
    push_cast
    ring
  have hsame := h₂.roundedPlace_shift (d + k)
  have hbelow : e + d - (d + k : ℕ) ≤
      roundedExponent format (m₂ * 2 ^ (d + k)) (e + d - (d + k : ℕ)) := by
    rw [h₂.roundedExponent_shift]
    omega
  rw [hshift] at hsame hbelow
  have hmantissa : m₂ * 2 ^ (d + k) ≤ m * 2 ^ k * 2 ^ 0 := by
    rw [pow_zero, mul_one, pow_add, ← mul_assoc]
    exact Nat.mul_le_mul_right _ hle
  have hmono := roundedPlace_mono (Nat.mul_pos h₂.pos (Nat.two_pow_pos _)) hmantissa hbelow
    (by simpa using hfits)
  rw [hplace, ← hsame]
  simpa using hmono

/-! ### Sums -/

theorem sub_eq_add (x y : UnpackedFloat) : sub format x y = add format x y.neg := by
  cases x with
  | finite s m e h =>
      cases y with
      | finite t m' e' h' =>
          simp only [UnpackedFloat.sub, UnpackedFloat.add, UnpackedFloat.neg, apply_neg,
            sub_eq_add_neg]
      | _ => rfl
  | _ => cases y <;> rfl

/-- The exponent at which two numbers are added. -/
theorem add_finite (h₁ : 0 < m₁) (h₂ : 0 < m₂) :
    add format (.finite s m₁ e₁ h₁) (.finite t m₂ e₂ h₂) = normalize format
      (s.apply (m₁ * 2 ^ (e₁ - min e₁ e₂).toNat : ℕ) +
        t.apply (m₂ * 2 ^ (e₂ - min e₁ e₂).toNat : ℕ)) (min e₁ e₂) .positive := by
  simp only [UnpackedFloat.add, decreaseExponent, Nat.shiftLeft_eq]

theorem normalize_apply (hm : 0 < m) : normalize format (s.apply m) e t = round format s m e := by
  unfold UnpackedFloat.normalize
  cases s with
  | positive =>
      rw [Sign.apply, Int.compare_eq_gt.2 (by omega)]
      rfl
  | negative =>
      rw [Sign.apply, Int.compare_eq_lt.2 (by omega), neg_neg]
      rfl

/-- A sum of two numbers of one sign has this sign and is at least as large as the second. -/
theorem Canonical.add_same (h₁ : Canonical format m₁ e₁) (h₂ : Canonical format m₂ e₂)
    (s : Sign) : ∃ m' e', ∃ h' : Canonical format m' e',
      add format (.finite s m₁ e₁ h₁.pos) (.finite s m₂ e₂ h₂.pos) = .finite s m' e' h'.pos ∧
        placeOf format m₂ e₂ ≤ placeOf format m' e' := by
  have hsum (a b : ℕ) : s.apply (a : ℕ) + s.apply (b : ℕ) = s.apply (a + b : ℕ) := by
    cases s with
    | positive => exact (Int.natCast_add a b).symm
    | negative =>
        simp only [Sign.apply]
        push_cast
        ring
  have hpos : 0 < m₁ * 2 ^ (e₁ - min e₁ e₂).toNat + m₂ * 2 ^ (e₂ - min e₁ e₂).toNat :=
    Nat.add_pos_left (Nat.mul_pos h₁.pos (Nat.two_pow_pos _)) _
  obtain ⟨m', e', h', hround, hle⟩ := round_multiple format s hpos
    (le_min h₁.le h₂.le)
  refine ⟨m', e', h', ?_, ?_⟩
  · rw [add_finite, hsum, normalize_apply hpos, hround]
  · have hexponent : min e₁ e₂ + (e₂ - min e₁ e₂).toNat = e₂ := by omega
    have hplace := hle m₂ (e₂ - min e₁ e₂).toNat (by rwa [hexponent])
      (Nat.le_add_left _ _)
    rwa [hexponent] at hplace

/-- With a larger exponent a number is larger. -/
theorem Canonical.lt_aligned (h₁ : Canonical format m₁ e₁) (h₂ : Canonical format m₂ e₂)
    (he : e₁ < e₂) : m₁ * 2 ^ (e₁ - min e₁ e₂).toNat < m₂ * 2 ^ (e₂ - min e₁ e₂).toNat := by
  have hfull : fractions format ≤ m₂ := h₂.normal.resolve_left (by have := h₁.le; omega)
  have hnone : (e₁ - min e₁ e₂).toNat = 0 := by omega
  have hsome : (e₂ - min e₁ e₂).toNat ≠ 0 := by omega
  rw [hnone, pow_zero, mul_one, mul_comm m₂]
  exact h₁.lt.trans_le (Nat.mul_le_mul (Nat.le_pow (Nat.pos_of_ne_zero hsome)) hfull)

/-- A number of the format is written in one way only. -/
theorem Canonical.eq_of_aligned (h₁ : Canonical format m₁ e₁) (h₂ : Canonical format m₂ e₂)
    (heq : m₁ * 2 ^ (e₁ - min e₁ e₂).toNat = m₂ * 2 ^ (e₂ - min e₁ e₂).toNat) :
    m₁ = m₂ ∧ e₁ = e₂ := by
  rcases lt_trichotomy e₁ e₂ with hlt | rfl | hgt
  · exact absurd heq (h₁.lt_aligned h₂ hlt).ne
  · simpa using heq
  · have hlt := h₂.lt_aligned h₁ hgt
    rw [min_comm] at hlt
    exact absurd heq hlt.ne'

/-- What is stored of a number that is not zero is not zero. -/
theorem Canonical.stored_ne_zero (h : Canonical format m e) (hbits : 2 ≤ format.exponentBits)
    (s t : Sign) : unpack format (pack format (.finite s m e h.pos)) ≠ .zero t := by
  rw [h.unpack_pack hbits]
  split_ifs
  · exact nofun
  · exact nofun

/-- Finite terms of a sum of zero cancel before anything is rounded. -/
theorem Canonical.aligned_of_add_zero (h₁ : Canonical format m₁ e₁) (h₂ : Canonical format m₂ e₂)
    (hbits : 2 ≤ format.exponentBits) {r : Sign}
    (h : unpack format (pack format (add format (.finite s m₁ e₁ h₁.pos)
      (.finite t m₂ e₂ h₂.pos))) = .zero r) :
    s.apply (m₁ * 2 ^ (e₁ - min e₁ e₂).toNat : ℕ) +
      t.apply (m₂ * 2 ^ (e₂ - min e₁ e₂).toNat : ℕ) = 0 := by
  have hleast : format.minExponent ≤ min e₁ e₂ := le_min h₁.le h₂.le
  -- a sum that is not zero is rounded to a number that is stored
  have hrounded (u : Sign) {n : ℕ} (hn : 0 < n) (z : Sign)
      (hz : unpack format (pack format (normalize format (u.apply n) (min e₁ e₂) z)) = .zero r) :
      False := by
    obtain ⟨m', e', h', hround, -⟩ := round_multiple format u hn hleast
    rw [normalize_apply hn, hround] at hz
    exact h'.stored_ne_zero hbits u r hz
  rw [add_finite] at h
  generalize m₁ * 2 ^ (e₁ - min e₁ e₂).toNat = a at h ⊢
  generalize m₂ * 2 ^ (e₂ - min e₁ e₂).toNat = b at h ⊢
  rcases lt_trichotomy (s.apply (a : ℕ) + t.apply (b : ℕ)) 0 with hneg | hzero | hpos
  · refine (hrounded .negative (n := (-(s.apply (a : ℕ) + t.apply (b : ℕ))).toNat) (by omega)
      .positive ?_).elim
    rwa [Sign.apply, Int.toNat_of_nonneg (by omega), neg_neg]
  · exact hzero
  · refine (hrounded .positive (n := (s.apply (a : ℕ) + t.apply (b : ℕ)).toNat) (by omega)
      .positive ?_).elim
    rwa [Sign.apply, Int.toNat_of_nonneg hpos.le]

/-- Finite terms of a sum of zero are opposite. -/
theorem Canonical.place_of_add_zero (h₁ : Canonical format m₁ e₁) (h₂ : Canonical format m₂ e₂)
    (hbits : 2 ≤ format.exponentBits) {r : Sign}
    (h : unpack format (pack format (add format (.finite s m₁ e₁ h₁.pos)
      (.finite t m₂ e₂ h₂.pos))) = .zero r) :
    s.apply (placeOf format m₁ e₁) = -t.apply (placeOf format m₂ e₂) := by
  have hpos₁ := Nat.mul_pos h₁.pos (Nat.two_pow_pos (e₁ - min e₁ e₂).toNat)
  have hexact := h₁.aligned_of_add_zero h₂ hbits h
  generalize ha : m₁ * 2 ^ (e₁ - min e₁ e₂).toNat = a at hexact hpos₁
  generalize hb : m₂ * 2 ^ (e₂ - min e₁ e₂).toNat = b at hexact
  have heq : a = b := by
    cases s <;> cases t <;> simp only [Sign.apply] at hexact <;> omega
  obtain ⟨rfl, rfl⟩ := h₁.eq_of_aligned h₂ (by rw [ha, hb, heq])
  cases s <;> cases t <;> simp only [Sign.apply] at hexact ⊢ <;> omega

/-- Finite terms that cancel leave a positive zero. -/
theorem Canonical.add_ne_zero_negative (h₁ : Canonical format m₁ e₁)
    (h₂ : Canonical format m₂ e₂) (hbits : 2 ≤ format.exponentBits) :
    unpack format (pack format (add format (.finite s m₁ e₁ h₁.pos) (.finite t m₂ e₂ h₂.pos))) ≠
      .zero .negative := by
  intro h
  have hexact := h₁.aligned_of_add_zero h₂ hbits h
  have hzero (e : ℤ) : normalize format 0 e .positive = .zero .positive := rfl
  rw [add_finite, hexact, hzero, unpack_pack_zero] at h
  cases h

/-- The terms of a sum of zero are opposite numbers. -/
theorem place_of_add_zero (hbits : 2 ≤ format.exponentBits) (hx : Representable format x)
    (hy : Representable format y) (h : unpack format (pack format (add format x y)) = .zero s) :
    (x.isNaN = false ∧ y.isNaN = false) ∧ place format x = -place format y := by
  have hinfinity {u : UnpackedFloat} {t : Sign} (hu : u = .infinity t ∨ u = .notANumber)
      (hzero : unpack format (pack format u) = .zero s) : False := by
    rcases hu with rfl | rfl
    · rw [unpack_pack_infinity] at hzero
      cases hzero
    · rw [unpack_pack_notANumber] at hzero
      cases hzero
  cases x with
  | notANumber => exact (hinfinity (t := s) (.inr rfl) h).elim
  | infinity t => exact (hinfinity (add_infinity_left t y) h).elim
  | zero t =>
      cases y with
      | notANumber => exact (hinfinity (t := s) (.inr rfl) h).elim
      | infinity u => exact (hinfinity (add_infinity_right u _) h).elim
      | zero u => exact ⟨⟨rfl, rfl⟩, rfl⟩
      | finite u m e hm => exact absurd h (hy.1.stored_ne_zero hbits u s)
  | finite t m e hm =>
      cases y with
      | notANumber => exact (hinfinity (t := s) (.inr rfl) h).elim
      | infinity u => exact (hinfinity (add_infinity_right u _) h).elim
      | zero u => exact absurd h (hx.1.stored_ne_zero hbits t s)
      | finite u m' e' hm' => exact ⟨⟨rfl, rfl⟩, hx.1.place_of_add_zero hy.1 hbits h⟩

/-! ### Signs -/

/-- A number that is infinite, or finite and not zero, has the sign. -/
def HasSign (s : Sign) : UnpackedFloat → Prop
  | .infinity t => t = s
  | .finite t _ _ _ => t = s
  | _ => True

theorem exists_hasSign (x : UnpackedFloat) : ∃ s, HasSign s x := by
  cases x with
  | infinity t => exact ⟨t, rfl⟩
  | finite t m e h => exact ⟨t, rfl⟩
  | _ => exact ⟨.positive, trivial⟩

theorem NotNegative.hasSign (h : NotNegative x) : HasSign .positive x := by
  cases h with
  | infinity => rfl
  | finite => rfl
  | _ => trivial

theorem HasSign.neg (h : HasSign s x) : HasSign (-s) x.neg := by
  cases x with
  | infinity t => exact congrArg _ h
  | finite t m e hm => exact congrArg _ h
  | _ => trivial

theorem HasSign.apply_place_nonneg (h : HasSign s x) (hx : Representable format x) :
    0 ≤ s.apply (place format x) := by
  have htop := topPlace_pos format
  cases x with
  | infinity t =>
      obtain rfl : t = s := h
      cases t <;> simp only [place, Sign.apply] <;> omega
  | finite t m e hm =>
      obtain rfl : t = s := h
      have hpos := hx.1.placeOf_pos
      cases t <;> simp only [place, Sign.apply] <;> omega
  | _ => cases s <;> exact le_rfl

theorem hasSign_roundWithAccuracy (s : Sign) (m : ℕ) (e : ℤ) (accuracy : Accuracy) :
    HasSign s (roundWithAccuracy format s m e accuracy) := by
  unfold roundWithAccuracy
  dsimp only
  split_ifs
  · trivial
  · rfl

theorem hasSign_unpack (s : Sign) (e : BitVec format.exponentBits)
    (m : BitVec format.mantissaBitsWithoutImplicit) :
    HasSign s (unpack format (packComponents format s e m)) := by
  simp only [UnpackedFloat.unpack, unpackMantissa_packComponents, unpackExponent_packComponents,
    unpackSign_packComponents, ofBitVec_toBitVec]
  split_ifs <;> simp only [HasSign]

/-- Storing keeps the sign. -/
theorem HasSign.stored (h : HasSign s x) : HasSign s (unpack format (pack format x)) := by
  cases x with
  | notANumber =>
      rw [unpack_pack_notANumber]
      trivial
  | zero t =>
      rw [unpack_pack_zero]
      trivial
  | infinity t =>
      rw [unpack_pack_infinity]
      exact h
  | finite t m e hm =>
      obtain rfl : t = s := h
      simp only [UnpackedFloat.pack]
      split_ifs <;> exact hasSign_unpack t _ _

theorem HasSign.mul (hx : HasSign s x) (hy : HasSign t y) :
    HasSign (s * t) (UnpackedFloat.mul format x y) := by
  cases x <;> cases y
  case finite.finite =>
    obtain rfl := hx
    obtain rfl := hy
    exact hasSign_roundWithAccuracy _ _ _ _
  all_goals simp_all [HasSign, UnpackedFloat.mul]

/-- A product with zero is rounded to nothing that has a sign. -/
theorem hasSign_mul_zero (s t : Sign) (x : UnpackedFloat) :
    HasSign s (UnpackedFloat.mul format x (.zero t)) := by
  cases x <;> trivial

/-- Divided by a positive number, a number keeps its sign; a zero counts by its own. -/
theorem HasSign.div (hx : HasSign s x) (hy : HasSign .positive y) (hne : y ≠ .zero .negative) :
    HasSign s (UnpackedFloat.div format x y) := by
  have hone (u : Sign) : u / .positive = u := by cases u <;> rfl
  have hzero (t : Sign) (ht : y = .zero t) : t = .positive := by
    cases t with
    | negative => exact absurd ht hne
    | positive => rfl
  cases x <;> cases y
  case finite.finite =>
    obtain rfl := hx
    obtain rfl := hy
    simp only [UnpackedFloat.div, hone]
    exact hasSign_roundWithAccuracy _ _ _ _
  all_goals simp_all [HasSign, UnpackedFloat.div]

theorem HasSign.add (hx : HasSign s x) (hy : HasSign s y) (hx' : Representable format x)
    (hy' : Representable format y) : HasSign s (UnpackedFloat.add format x y) := by
  cases x <;> cases y
  case finite.finite =>
    obtain rfl := hx
    obtain rfl := hy
    obtain ⟨m', e', h', hsum, -⟩ := hx'.1.add_same hy'.1 _
    rw [hsum]
    rfl
  case zero.zero =>
    simp only [UnpackedFloat.add]
    split_ifs <;> trivial
  all_goals simp_all [HasSign, UnpackedFloat.add]

theorem apply_apply (s : Sign) (n : ℤ) : s.apply (s.apply n) = n := by
  cases s with
  | positive => rfl
  | negative => exact neg_neg n

theorem apply_apply_of_ne {t : Sign} (h : t ≠ s) (n : ℤ) : s.apply (t.apply n) = -n := by
  cases s <;> cases t <;> simp_all [Sign.apply]

theorem apply_neg_neg (s : Sign) (n : ℤ) : (-s).apply (-n) = s.apply n := by
  cases s with
  | positive => exact neg_neg n
  | negative => rfl

theorem apply_le_abs (s : Sign) (n : ℤ) : s.apply n ≤ |n| := by
  cases s with
  | positive => exact le_abs_self n
  | negative => exact neg_le_abs n

theorem abs_apply (s : Sign) (n : ℤ) : |s.apply n| = |n| := by
  cases s with
  | positive => rfl
  | negative => exact abs_neg n

/-- No number of its sign has a later place than infinity. -/
theorem HasSign.apply_place_le (h : HasSign s x) (hx : Representable format x) :
    s.apply (place format x) ≤ topPlace format := by
  have htop := topPlace_pos format
  cases x with
  | infinity t =>
      obtain rfl : t = s := h
      exact (apply_apply t _).le
  | finite t m e hm =>
      obtain rfl : t = s := h
      exact (apply_apply t _).le.trans hx.2.le
  | _ => cases s <;> exact htop.le

/-- What is stored of a number has its place, up to infinity. -/
theorem Canonical.place_stored (h : Canonical format m e) (hbits : 2 ≤ format.exponentBits)
    (s : Sign) : (unpack format (pack format (.finite s m e h.pos))).isNaN = false ∧
      s.apply (place format (unpack format (pack format (.finite s m e h.pos)))) =
        min (topPlace format) (placeOf format m e) := by
  rw [h.unpack_pack hbits]
  split_ifs with htop
  · exact ⟨rfl, (apply_apply s _).trans (min_eq_left htop).symm⟩
  · exact ⟨rfl, (apply_apply s _).trans (min_eq_right (not_le.1 htop).le).symm⟩

/-- A sum of two numbers of one sign is a number at least as large as the second. -/
theorem place_add_same (hbits : 2 ≤ format.exponentBits) (hx : HasSign s x)
    (hy : HasSign s y) (hx' : Representable format x) (hy' : Representable format y)
    (hnumber : x.isNaN = false) (hnumber' : y.isNaN = false) :
    (unpack format (pack format (add format x y))).isNaN = false ∧
      s.apply (place format y) ≤
        s.apply (place format (unpack format (pack format (add format x y)))) := by
  have htop := hy.apply_place_le hy'
  cases x with
  | notANumber => cases hnumber
  | infinity t =>
      obtain rfl : t = s := hx
      have hsum : add format (.infinity t) y = .infinity t := by
        cases y with
        | notANumber => cases hnumber'
        | infinity u =>
            obtain rfl : u = t := hy
            exact if_pos (beq_self_eq_true u)
        | _ => rfl
      rw [hsum, unpack_pack_infinity]
      exact ⟨rfl, htop.trans (apply_apply t _).ge⟩
  | zero t =>
      cases y with
      | zero u =>
          cases t <;> cases u <;>
            simp [UnpackedFloat.add, unpack_pack_zero, UnpackedFloat.isNaN, place]
      | _ =>
          show (unpack format (pack format _)).isNaN = false ∧ _ ≤ s.apply (place format _)
          exact (hy'.unpack_pack hbits).symm ▸ ⟨hnumber', le_rfl⟩
  | finite t m e hm =>
      obtain rfl : t = s := hx
      cases y with
      | notANumber => cases hnumber'
      | infinity u =>
          obtain rfl : u = t := hy
          have hsum : add format (.finite u m e hm) (.infinity u) = .infinity u := rfl
          rw [hsum, unpack_pack_infinity]
          exact ⟨rfl, le_rfl⟩
      | zero u =>
          obtain ⟨hstored, hplace⟩ := hx'.1.place_stored hbits t
          refine ⟨hstored, ?_⟩
          calc t.apply 0 = 0 := by cases t <;> rfl
            _ ≤ min (topPlace format) (placeOf format m e) :=
              le_min (topPlace_pos format).le hx'.1.placeOf_pos.le
            _ = _ := hplace.symm
      | finite u m' e' hm' =>
          obtain rfl : u = t := hy
          obtain ⟨m'', e'', h, hsum, hle⟩ := hx'.1.add_same hy'.1 u
          obtain ⟨hstored, hplace⟩ := h.place_stored hbits u
          rw [hsum, hplace]
          exact ⟨hstored, le_min htop ((apply_apply u _).le.trans hle)⟩

end Rounding

/-! ### Stored numbers -/

namespace BinaryScalar

open Float.Model Float.Model.UnpackedFloat

variable {ρ : Type} [RealScalar ρ] [BinaryScalar ρ] {x y z : ρ} {s t : Sign}

theorem isZero_iff_place :
    Scalar.isZero x = true ↔ RealScalar.isNaN x = false ∧ place x = 0 := by
  have hrepresentable := representable x
  have htop := Rounding.topPlace_pos (format ρ)
  rw [isZero_iff, isNaN_eq, place]
  cases hx : unpacked x with
  | notANumber => simp [UnpackedFloat.isNaN]
  | zero s => simp [UnpackedFloat.isNaN, Rounding.place]
  | infinity s => cases s <;> simp [UnpackedFloat.isNaN, Rounding.place, Sign.apply, htop.ne']
  | finite s m e h =>
      rw [hx] at hrepresentable
      have hpos := hrepresentable.1.placeOf_pos
      cases s <;> simp [UnpackedFloat.isNaN, Rounding.place, Sign.apply, hpos.ne']

theorem unpacked_sub_eq (x y : ρ) : unpacked (x - y) = unpacked (x + -y) := by
  rw [unpacked_sub, Rounding.sub_eq_add, unpacked_add, unpacked_neg_eq]

/-- The terms of a sum of zero are opposite numbers. -/
theorem place_of_add_isZero (h : Scalar.isZero (x + y) = true) :
    (RealScalar.isNaN x = false ∧ RealScalar.isNaN y = false) ∧ place x = -place y := by
  obtain ⟨s, hs⟩ := isZero_iff.1 h
  rw [unpacked_add] at hs
  rw [isNaN_eq, isNaN_eq]
  exact Rounding.place_of_add_zero two_le_exponentBits (representable x) (representable y) hs

/-- A difference is zero only of equal numbers. -/
theorem place_of_sub_isZero (h : Scalar.isZero (x - y) = true) :
    (RealScalar.isNaN x = false ∧ RealScalar.isNaN y = false) ∧ place x = place y := by
  have hsum : Scalar.isZero (x + -y) = true := by
    rw [isZero_iff, ← unpacked_sub_eq, ← isZero_iff]
    exact h
  simpa using place_of_add_isZero hsum

/-- Terms that are not below zero sum up to zero only if they are zero. -/
theorem isZero_of_add (hx : ¬ x < 0) (hy : ¬ y < 0) (h : Scalar.isZero (x + y) = true) :
    Scalar.isZero x = true ∧ Scalar.isZero y = true := by
  obtain ⟨⟨hnumber, hnumber'⟩, hplace⟩ := place_of_add_isZero h
  rw [not_neg_iff] at hx hy
  exact ⟨isZero_iff_place.2 ⟨hnumber, by omega⟩, isZero_iff_place.2 ⟨hnumber', by omega⟩⟩

/-- A number that is infinite, or finite and not zero, has the sign. -/
def Signed (s : Sign) (x : ρ) : Prop := Rounding.HasSign s (unpacked x)

theorem exists_signed (x : ρ) : ∃ s, Signed s x := Rounding.exists_hasSign _

theorem Signed.apply_place_nonneg (h : Signed s x) : 0 ≤ s.apply (place x) :=
  Rounding.HasSign.apply_place_nonneg h (representable x)

/-- A number with both signs is a zero or a NaN. -/
theorem Signed.place_eq_zero (h : Signed s x) (h' : Signed (-s) y) (heq : place x = place y) :
    place x = 0 := by
  have hx := h.apply_place_nonneg
  have hy := h'.apply_place_nonneg
  rw [Rounding.apply_neg] at hy
  cases s <;> simp only [Sign.apply] at hx hy <;> omega

theorem Signed.add (hx : Signed s x) (hy : Signed s y) : Signed s (x + y) := by
  rw [Signed, unpacked_add]
  exact (Rounding.HasSign.add hx hy (representable x) (representable y)).stored

/-- A sum of two numbers of one sign is a number at least as large as the second. -/
theorem Signed.place_add (hx : Signed s x) (hy : Signed s y)
    (hnumber : RealScalar.isNaN x = false) (hnumber' : RealScalar.isNaN y = false) :
    RealScalar.isNaN (x + y) = false ∧ s.apply (place y) ≤ s.apply (place (x + y)) := by
  rw [isNaN_eq] at hnumber hnumber'
  rw [isNaN_eq, place, place, unpacked_add]
  exact Rounding.place_add_same two_le_exponentBits hx hy (representable x) (representable y)
    hnumber hnumber'

theorem Signed.neg (h : Signed s x) : Signed (-s) (-x) := by
  rw [Signed, unpacked_neg_eq]
  exact Rounding.HasSign.neg h

theorem Signed.sub (hx : Signed s x) (hy : Signed (-s) y) : Signed s (x - y) := by
  have hneg : - -s = s := by cases s <;> rfl
  rw [Signed, unpacked_sub_eq]
  exact hx.add (hneg ▸ hy.neg)

theorem Signed.mul (hx : Signed s x) (hy : Signed t y) : Signed (s * t) (x * y) := by
  rw [Signed, unpacked_mul]
  exact (Rounding.HasSign.mul hx hy).stored

theorem signed_zero (s : Sign) : Signed s (0 : ρ) := by
  rw [Signed, unpacked_zero]
  trivial

theorem signed_mul_zero (s : Sign) (x : ρ) : Signed s (x * 0) := by
  rw [Signed, unpacked_mul, unpacked_zero]
  exact (Rounding.hasSign_mul_zero s _ _).stored

theorem Signed.div (hx : Signed s x) (hy : Signed .positive y)
    (hne : unpacked y ≠ .zero .negative) : Signed s (x / y) := by
  rw [Signed, unpacked_div]
  exact (Rounding.HasSign.div hx hy hne).stored

theorem signed_hypot [RootScalar ρ] (x y : ρ) : Signed .positive (RealScalar.hypot x y) := by
  rw [Signed, RootScalar.unpacked_hypot]
  exact (Rounding.notNegative_hypotenuse _ _).hasSign.stored

/-- Signs can be read off places. -/
theorem signed_iff_place : Signed s x ↔ 0 ≤ s.apply (place x) := by
  refine ⟨Signed.apply_place_nonneg, fun h => ?_⟩
  have hx := representable x
  have htop := Rounding.topPlace_pos (format ρ)
  rw [place] at h
  rw [Signed]
  cases hcase : unpacked x with
  | notANumber => trivial
  | zero t => trivial
  | infinity t =>
      by_contra hne
      rw [hcase, Rounding.place, Rounding.apply_apply_of_ne hne] at h
      omega
  | finite t m e hm =>
      by_contra hne
      rw [hcase] at hx h
      have hpos := hx.1.placeOf_pos
      rw [Rounding.place, Rounding.apply_apply_of_ne hne] at h
      omega

theorem signed_positive_iff : Signed .positive x ↔ ¬ x < 0 := by
  rw [signed_iff_place, not_neg_iff]
  rfl

theorem square_not_neg (x : ρ) : ¬ x * x < 0 := by
  obtain ⟨s, hs⟩ := exists_signed x
  have hsign : s * s = .positive := by cases s <;> rfl
  exact signed_positive_iff.1 (hsign ▸ hs.mul hs)

theorem add_not_neg (hx : ¬ x < 0) (hy : ¬ y < 0) : ¬ x + y < 0 :=
  signed_positive_iff.1 ((signed_positive_iff.2 hx).add (signed_positive_iff.2 hy))

theorem isZero_add_iff (hx : ¬ x < 0) (hy : ¬ y < 0) : Scalar.isZero (x + y) = true ↔
    Scalar.isZero x = true ∧ Scalar.isZero y = true :=
  ⟨isZero_of_add hx hy, fun h => isZero_add h.1 h.2⟩

theorem Signed.mul_size (hx : Signed s x) (hy : Signed .positive y) : Signed s (x * y) := by
  have hsign : s * .positive = s := by cases s <;> rfl
  exact hsign ▸ hx.mul hy

theorem Signed.zero_sub (hx : Signed s x) : Signed (-s) (0 - x) := by
  have hsign : - -s = s := by cases s <;> rfl
  exact (signed_zero (-s)).sub (hsign.symm ▸ hx)

/-- Taken away from zero, a number changes its sign and nothing else, unless it is a zero. -/
theorem zero_sub_place (x : ρ) : RealScalar.isNaN (0 - x) = RealScalar.isNaN x ∧
    place (0 - x) = -place x := by
  have hzero : Scalar.isZero (0 : ρ) = true := isZero_iff.2 ⟨_, unpacked_zero⟩
  rw [isNaN_eq, place, unpacked_sub_eq, ← isNaN_eq, ← place]
  by_cases hx : Scalar.isZero (-x) = true
  · have hsum := isZero_iff_place.1 (isZero_add hzero hx)
    have hterm := isZero_iff_place.1 hx
    rw [isNaN_neg, place_neg] at hterm
    exact ⟨hsum.1.trans hterm.1.symm, hsum.2.trans hterm.2.symm⟩
  · have hsum := unpacked_add_of_isZero_left hzero hx
    rw [isNaN_eq, place, hsum, ← isNaN_eq, ← place]
    exact ⟨isNaN_neg x, place_neg x⟩

/-- A sum with a positive zero is no negative one. -/
theorem add_ne_zero_negative (hy : unpacked y = .zero .positive) :
    unpacked (x + y) ≠ .zero .negative := by
  have hzero : Scalar.isZero y = true := isZero_iff.2 ⟨_, hy⟩
  by_cases hx : Scalar.isZero x = true
  · obtain ⟨t, ht⟩ := isZero_iff.1 hx
    rw [unpacked_add, ht, hy]
    cases t <;> simp [UnpackedFloat.add, Rounding.unpack_pack_zero]
  · rw [unpacked_add_of_isZero_right hzero hx]
    exact fun h => hx (isZero_iff.2 ⟨_, h⟩)

/-- A sum whose first term is no negative zero is none either. -/
theorem add_ne_zero_negative_of_left (hx : unpacked x ≠ .zero .negative) :
    unpacked (x + y) ≠ .zero .negative := by
  intro hsum
  by_cases hy : Scalar.isZero y = true
  · by_cases hzero : Scalar.isZero x = true
    · obtain ⟨s, hs⟩ := isZero_iff.1 hzero
      obtain ⟨t, ht⟩ := isZero_iff.1 hy
      rw [unpacked_add, hs, ht] at hsum
      cases s with
      | positive => cases t <;> simp [UnpackedFloat.add, Rounding.unpack_pack_zero] at hsum
      | negative => exact hx hs
    · exact hx ((unpacked_add_of_isZero_right hy hzero).symm.trans hsum)
  · by_cases hzero : Scalar.isZero x = true
    · exact hy (isZero_iff.2 ⟨_, (unpacked_add_of_isZero_left hzero hy).symm.trans hsum⟩)
    · -- both terms are finite, since their sum is
      have hfinite : RealScalar.isFinite (x + y) = true := by
        rw [isFinite_eq, hsum]
        rfl
      have hterms := isFinite_of_add hfinite
      rw [isFinite_eq, isFinite_eq] at hterms
      have hrepresentable := And.intro (representable x) (representable y)
      rw [unpacked_add] at hsum
      cases hxcase : unpacked x with
      | finite s m e hm =>
          cases hycase : unpacked y with
          | finite t m' e' hm' =>
              rw [hxcase, hycase] at hsum hrepresentable
              exact hrepresentable.1.1.add_ne_zero_negative hrepresentable.2.1
                two_le_exponentBits hsum
          | zero t => exact hy (isZero_iff.2 ⟨t, hycase⟩)
          | _ => simp [hycase, UnpackedFloat.isFinite] at hterms
      | zero s => exact hzero (isZero_iff.2 ⟨s, hxcase⟩)
      | _ => simp [hxcase, UnpackedFloat.isFinite] at hterms

end BinaryScalar

end DenseFactor
