import Mathlib
import DenseFactor.SVD.Rotation
import DenseFactor.Proofs.Orthogonal
import DenseFactor.Proofs.QR.Reflector
import DenseFactor.Proofs.Stored

/-!
# DenseFactor.Proofs.SVD.Rotation

What the two orthogonal steps of the singular value decomposition do to a stored matrix,
over exact real elements.

Design points:

* A rotation is on the unit circle whatever pair it is made from, and it turns the second
  coordinate of that pair to zero. Only the quotient of the smaller coordinate by the
  larger is formed, so no division by zero can spoil it.
* A normalised reflection is the matrix `mirror w τ`. That a reflection `h` of the program
  is one is said by `h.Along k w`, and what it makes of the vector it was built from by
  `h.Reflects`.
* Both are known to later modules by these facts only, never by their formulas.
-/

namespace DenseFactor

open ExactScalar (value)
open scoped Matrix

variable {ρ : Type} [RealScalar ρ] [ExactReal ρ] {m n r : ℕ} {E : Failure → Prop}

/-! ### Rotations -/

namespace Rotation

/-- The length of `(1, t)`. It is not zero. -/
theorem value_sqrt_one_add (t : ρ) :
    value (RealScalar.sqrt (1 + t * t)) = √(1 + value t * value t) ∧
      value (RealScalar.sqrt (1 + t * t)) ≠ 0 := by
  have hsquare : value (1 + t * t) = 1 + value t * value t := by
    rw [ExactScalar.value_add, ExactScalar.value_mul, ExactScalar.value_one']
  have hpos : 0 < 1 + value t * value t := add_pos_of_pos_of_nonneg one_pos (mul_self_nonneg _)
  have hroot : value (RealScalar.sqrt (1 + t * t)) = √(1 + value t * value t) := by
    rw [ExactReal.value_sqrt _ (hsquare ▸ hpos.le), hsquare]
  exact ⟨hroot, hroot ▸ (Real.sqrt_pos.2 hpos).ne'⟩

/-- The reciprocal of the length of `(1, t)`, as the program forms it. -/
theorem value_one_div_sqrt (t : ρ) :
    value (1 / RealScalar.sqrt (1 + t * t)) = 1 / √(1 + value t * value t) := by
  obtain ⟨hroot, hne⟩ := value_sqrt_one_add t
  rw [ExactScalar.value_div _ _ hne, hroot, ExactScalar.value_one']

/-- The larger coordinate of a pair is not zero, if one of them is not. -/
theorem value_ne_zero_of_larger {a b : ρ} (hb : ¬ (b == 0) = true) :
    value b ≠ 0 ∧ (¬ RealScalar.abs a < RealScalar.abs b → value a ≠ 0) := by
  have hb' : value b ≠ 0 := fun h => hb <| by
    rw [ExactScalar.eq_iff, h, ExactScalar.value_zero']
  refine ⟨hb', fun hab ha => hab ?_⟩
  rw [ExactReal.lt_iff, ExactReal.value_abs, ExactReal.value_abs, ha, abs_zero]
  exact abs_pos.2 hb'

/-- The direction `(1, t)` divided by its length is on the circle. -/
theorem normalized_direction (t : ℝ) :
    1 / √(1 + t * t) * (1 / √(1 + t * t)) * (1 + t * t) = 1 := by
  have hpos : 0 < 1 + t * t := add_pos_of_pos_of_nonneg one_pos (mul_self_nonneg _)
  have hroot : √(1 + t * t) * √(1 + t * t) = 1 + t * t := Real.mul_self_sqrt hpos.le
  rw [div_mul_div_comm, one_mul, hroot, one_div_mul_cancel hpos.ne']

/-- Every rotation is on the unit circle. -/
theorem ofPair_circle (a b : ρ) :
    value (ofPair a b).cos * value (ofPair a b).cos +
      value (ofPair a b).sin * value (ofPair a b).sin = 1 := by
  unfold ofPair
  by_cases hb : (b == 0) = true
  · rw [if_pos hb, ExactScalar.value_one', ExactScalar.value_zero', mul_one, mul_zero, add_zero]
  rw [if_neg hb]
  by_cases hab : RealScalar.abs a < RealScalar.abs b
  · rw [if_pos hab]
    dsimp only
    rw [ExactScalar.value_mul, value_one_div_sqrt]
    linear_combination normalized_direction (value (a / b))
  · rw [if_neg hab]
    dsimp only
    rw [ExactScalar.value_mul, value_one_div_sqrt]
    linear_combination normalized_direction (value (b / a))

/-- A rotation turns the second coordinate of its pair to zero. -/
theorem ofPair_turns (a b : ρ) :
    value (ofPair a b).cos * value b - value (ofPair a b).sin * value a = 0 := by
  unfold ofPair
  by_cases hb : (b == 0) = true
  · have hzero : value b = 0 := by
      rw [(ExactScalar.eq_iff b 0).1 hb, ExactScalar.value_zero']
    rw [if_pos hb, hzero, ExactScalar.value_zero', mul_zero, zero_mul, sub_zero]
  obtain ⟨hb', ha⟩ := value_ne_zero_of_larger (a := a) hb
  rw [if_neg hb]
  by_cases hab : RealScalar.abs a < RealScalar.abs b
  · rw [if_pos hab]
    dsimp only
    rw [ExactScalar.value_mul, ExactScalar.value_div a b hb']
    field_simp
    ring
  · rw [if_neg hab]
    dsimp only
    rw [ExactScalar.value_mul, ExactScalar.value_div b a (ha hab)]
    have ha := ha hab
    field_simp
    ring

theorem value_first (g : Rotation ρ) (a b : ρ) :
    value (g.first a b) = value g.cos * value a + value g.sin * value b := by
  rw [first, ExactScalar.value_add, ExactScalar.value_mul, ExactScalar.value_mul]

theorem value_second (g : Rotation ρ) (a b : ρ) :
    value (g.second a b) = value g.cos * value b - value g.sin * value a := by
  rw [second, ExactScalar.value_sub, ExactScalar.value_mul, ExactScalar.value_mul]

/-- The columns of a stored matrix are turned into each other. -/
theorem ends_columns (g : Rotation ρ) {a : DenseMatrix ρ} {M : Matrix (Fin m) (Fin n) ρ}
    (hM : a.Stores M) (j k : Fin n) :
    Ends E (fun a' => ∃ M' : Matrix (Fin m) (Fin n) ρ, a'.Stores M' ∧
        M'.map value = turnColumns (value g.cos) (value g.sin) j k (M.map value))
      (g.columns a j k) := by
  unfold columns
  refine Ends.mapEntries_map hM fun i l => ?_
  unfold turnColumns
  rw [Matrix.of_apply]
  by_cases hj : l = j
  · rw [if_pos (congrArg Fin.val hj), if_pos hj, hM.entry i k, Ends.ok_bind_iff, hj]
    exact value_first g _ _
  have hj' : ¬ (l : ℕ) = j := fun h => hj (Fin.ext h)
  rw [if_neg hj', if_neg hj]
  by_cases hk : l = k
  · rw [if_pos (congrArg Fin.val hk), if_pos hk, hM.entry i j, Ends.ok_bind_iff, hk]
    exact value_second g _ _
  · have hk' : ¬ (l : ℕ) = k := fun h => hk (Fin.ext h)
    rw [if_neg hk', if_neg hk]
    rfl

end Rotation

/-! ### Normalised reflections -/

noncomputable section

/-- The reflection along `w`, if `τ · (w · w) = 2`. -/
def mirror (w : Fin m → ℝ) (τ : ℝ) : Matrix (Fin m) (Fin m) ℝ := QR.reflector w (-τ⁻¹)

section Mirror

variable {w : Fin m → ℝ} {τ : ℝ}

theorem mirror_mul_apply (w : Fin m → ℝ) (τ : ℝ) (M : Matrix (Fin m) (Fin n) ℝ) (i : Fin m)
    (j : Fin n) : (mirror w τ * M) i j = M i j - (∑ t, w t * M t j) * τ * w i := by
  rw [mirror, QR.reflector_mul_apply]
  simp only [star_trivial, div_neg, div_inv_eq_mul]
  ring

theorem mul_mirror_apply (w : Fin m → ℝ) (τ : ℝ) (M : Matrix (Fin n) (Fin m) ℝ) (i : Fin n)
    (j : Fin m) : (M * mirror w τ) i j = M i j - (∑ t, M i t * w t) * τ * w j := by
  rw [mirror, QR.mul_reflector_apply]
  simp only [star_trivial, div_neg, div_inv_eq_mul]
  ring

theorem star_dot_self (h : τ * (w ⬝ᵥ w) = 2) : star w ⬝ᵥ w = -2 * (-τ⁻¹) := by
  have hτ : τ ≠ 0 := fun h0 => by
    rw [h0, zero_mul] at h
    exact two_ne_zero h.symm
  rw [star_trivial]
  field_simp
  linarith

theorem mirror_transpose (h : τ * (w ⬝ᵥ w) = 2) : (mirror w τ)ᵀ = mirror w τ := by
  have hself := QR.reflector_conjTranspose (star_dot_self h)
  rwa [Matrix.conjTranspose_eq_transpose_of_trivial] at hself

theorem mirror_orthogonal (h : τ * (w ⬝ᵥ w) = 2) : (mirror w τ)ᵀ * mirror w τ = 1 := by
  have hunitary := QR.reflector_unitary (star_dot_self h)
  rwa [Matrix.conjTranspose_eq_transpose_of_trivial] at hunitary

end Mirror

namespace Reflection

/-- The reflection is along `w`, which starts with a one at `k`. -/
structure Along (h : Reflection ρ) (k : Fin m) (w : Fin m → ℝ) : Prop where
  head : h.head = k
  stop : h.stop = m
  tail (t : Fin m) (ht : k < t) : ∃ y, Storage.read h.tail t = .ok y ∧ value y = w t
  one : w k = 1
  before (t : Fin m) (ht : t < k) : w t = 0
  factor : value h.factor * (w ⬝ᵥ w) = 2

/-- The reflection takes `y` to a multiple of the unit vector `k`. -/
def Reflects (h : Reflection ρ) (k : Fin m) (w y : Fin m → ℝ) : Prop :=
  ∀ i, y i - (∑ t, w t * y t) * value h.factor * w i = if i = k then value h.image else 0

section Along

variable {h : Reflection ρ} {k : Fin m} {w : Fin m → ℝ}

/-- A product with the vector is the head and the terms after it. -/
theorem Along.sum_eq (hw : h.Along k w) (x : Fin m → ℝ) :
    ∑ t, x t * w t = x k + ∑ t : Fin m, if (k : ℕ) + 1 ≤ t then x t * w t else 0 := by
  have hbefore (t : Fin m) : x t * w t = if (k : ℕ) ≤ (t : ℕ) then x t * w t else 0 := by
    by_cases ht : (k : ℕ) ≤ t
    · rw [if_pos ht]
    · rw [if_neg ht, hw.before t (not_le.1 ht), mul_zero]
  rw [Finset.sum_congr rfl fun t _ => hbefore t, sum_ge_eq, hw.one, mul_one]

/-- How much of a line the reflection takes away, as the program computes it. -/
theorem Along.ends_dot (hw : h.Along k w) (x : Fin m → ρ) {step : ρ → ℕ → Except Failure ρ}
    (hstep : ∀ (t : Fin m) (sum y : ρ), k < t → Storage.read h.tail t = .ok y →
      Ends E (fun s => value s = value sum + value (x t) * value y) (step sum t)) :
    Ends E (fun y => value y = (∑ t, value (x t) * w t) * value h.factor) (do
      let sum ← foldPositions (h.head + 1) h.stop (x k) step
      return sum * h.factor) := by
  rw [hw.head, hw.stop]
  refine (ends_sum_add (K := ℝ) k.isLt (x k) (fun t => value (x t) * w t)
    fun t sum ht => ?_).bind fun sum hsum => ?_
  · obtain ⟨y, hy, hyw⟩ := hw.tail t ht
    rw [← hyw]
    exact hstep t sum y ht hy
  · rw [Ends.pure_iff, ExactScalar.value_mul, hsum, hw.sum_eq fun t => value (x t)]

/-- One entry of a reflected line. -/
theorem Along.ends_entry (hw : h.Along k w) {dots : Array ρ} {j : ℕ} {dot : ρ}
    (hdot : Storage.read dots j = .ok dot) {C : Prop} [Decidable C] (hC : C) (i : Fin m) (x : ρ) :
    Ends E (fun y => value y = value x - value dot * w i)
      (if C ∧ (i : ℕ) = h.head then do return x - (← Storage.read dots j)
      else if C ∧ h.head < i ∧ (i : ℕ) < h.stop then do
        return x - (← Storage.read dots j) * (← Storage.read h.tail i)
      else .ok x) := by
  rw [hw.head, hw.stop, hdot]
  rcases lt_trichotomy i k with hik | hik | hik
  · have hne : ¬ (i : ℕ) = k := fun heq => hik.ne (Fin.ext heq)
    have hnot : ¬ (k : ℕ) < i := not_lt.2 hik.le
    rw [if_neg fun hand => hne hand.2, if_neg fun hand => hnot hand.2.1, hw.before i hik, mul_zero,
      sub_zero]
    rfl
  · rw [if_pos ⟨hC, congrArg Fin.val hik⟩, hik, hw.one, mul_one]
    exact ExactScalar.value_sub _ _
  · have hne : ¬ (i : ℕ) = k := fun heq => hik.ne' (Fin.ext heq)
    obtain ⟨y, hy, hyw⟩ := hw.tail i hik
    rw [if_neg fun hand => hne hand.2, if_pos ⟨hC, hik, i.isLt⟩, hy, ← hyw]
    exact (ExactScalar.value_sub _ _).trans (congrArg _ (ExactScalar.value_mul _ _))

/-- Reflecting rows reflects those from `start` on. -/
theorem Along.ends_rows (hw : h.Along k w) {a : DenseMatrix ρ} {M : Matrix (Fin r) (Fin m) ρ}
    (hM : a.Stores M) (start : ℕ) :
    Ends E (fun a' => ∃ M' : Matrix (Fin r) (Fin m) ρ, a'.Stores M' ∧ M'.map value =
        Matrix.of fun (i : Fin r) (j : Fin m) =>
          if start ≤ (i : ℕ) then (M.map value * mirror w (value h.factor)) i j
          else M.map value i j)
      (h.rows a start) := by
  unfold rows
  rw [hM.nrows]
  refine Ends.bind (Ends.collect (P := fun i y => start ≤ (i : ℕ) →
    value y = (∑ t, value (M i t) * w t) * value h.factor) fun i => ?_) ?_
  · by_cases hi : start ≤ (i : ℕ)
    · have hhead : a.entry i h.head = .ok (M i k) := by
        rw [hw.head]
        exact hM.entry i k
      rw [if_pos hi, hhead, Ends.ok_bind_iff]
      refine (hw.ends_dot (M i) fun t sum y ht hy => ?_).imp fun y hy _ => hy
      rw [hM.entry i t, hy]
      exact (ExactScalar.value_add _ _).trans (congrArg _ (ExactScalar.value_mul _ _))
    · rw [if_neg hi]
      exact fun hi' => absurd hi' hi
  · rintro dots ⟨x, hx⟩
    refine Ends.mapEntries_map hM fun i j => ?_
    rw [Matrix.of_apply, mul_mirror_apply]
    by_cases hi : start ≤ (i : ℕ)
    · refine (hw.ends_entry (hx i).1 hi j _).imp fun y hy => ?_
      rw [hy, (hx i).2 hi, if_pos hi]
      rfl
    · rw [if_neg hi, if_neg fun hand => hi hand.1, if_neg fun hand => hi hand.1]
      rfl

/-- Reflecting columns reflects those from `start` on. -/
theorem Along.ends_columns (hw : h.Along k w) {a : DenseMatrix ρ} {M : Matrix (Fin m) (Fin r) ρ}
    (hM : a.Stores M) (start : ℕ) :
    Ends E (fun a' => ∃ M' : Matrix (Fin m) (Fin r) ρ, a'.Stores M' ∧ M'.map value =
        Matrix.of fun (i : Fin m) (j : Fin r) =>
          if start ≤ (j : ℕ) then (mirror w (value h.factor) * M.map value) i j
          else M.map value i j)
      (h.columns a start) := by
  unfold columns
  rw [hM.ncols]
  refine Ends.bind (Ends.collect (P := fun j y => start ≤ (j : ℕ) →
    value y = (∑ t, value (M t j) * w t) * value h.factor) fun j => ?_) ?_
  · by_cases hj : start ≤ (j : ℕ)
    · have hhead : a.entry h.head j = .ok (M k j) := by
        rw [hw.head]
        exact hM.entry k j
      rw [if_pos hj, hhead, Ends.ok_bind_iff]
      refine (hw.ends_dot (fun t => M t j) fun t sum y ht hy => ?_).imp fun y hy _ => hy
      rw [hM.entry t j, hy]
      refine (ExactScalar.value_add _ _).trans (congrArg _ ?_)
      rw [ExactScalar.value_mul, mul_comm]
    · rw [if_neg hj]
      exact fun hj' => absurd hj' hj
  · rintro dots ⟨x, hx⟩
    refine Ends.mapEntries_map hM fun i j => ?_
    rw [Matrix.of_apply, mirror_mul_apply]
    by_cases hj : start ≤ (j : ℕ)
    · refine (hw.ends_entry (hx j).1 hj i _).imp fun y hy => ?_
      have hsum : ∑ t, w t * M.map value t j = ∑ t, value (M t j) * w t :=
        Finset.sum_congr rfl fun t _ => mul_comm _ _
      rw [hy, (hx j).2 hj, if_pos hj, hsum]
      rfl
    · rw [if_neg hj, if_neg fun hand => hj hand.1, if_neg fun hand => hj hand.1]
      rfl

end Along

/-! ### The reflection of a vector -/

section OfVector

variable {k : Fin m} {y : Fin m → ℝ} {c : ℝ}

/-- The vector with `c` added to its head, over the new head. -/
def direction (k : Fin m) (c : ℝ) (y : Fin m → ℝ) : Fin m → ℝ :=
  fun i => (y i + if i = k then c else 0) / (y k + c)

theorem direction_head (hc : y k + c ≠ 0) : direction k c y k = 1 := by
  rw [direction, if_pos rfl, div_self hc]

theorem direction_of_ne {i : Fin m} (hi : i ≠ k) : direction k c y i = y i / (y k + c) := by
  rw [direction, if_neg hi, add_zero]

/-- If `c` is as long as the vector, the vector has its projection along the direction. -/
theorem direction_dot (hc : y k + c ≠ 0) (hlength : c * c = ∑ t, y t * y t) :
    ∑ t, direction k c y t * y t = c := by
  have hterm (t : Fin m) : direction k c y t * y t =
      y t * y t / (y k + c) + if t = k then c * y k / (y k + c) else 0 := by
    by_cases ht : t = k
    · rw [direction, if_pos ht, if_pos ht, ht]
      ring
    · rw [direction_of_ne ht, if_neg ht]
      ring
  rw [Finset.sum_congr rfl fun t _ => hterm t, Finset.sum_add_distrib, ← Finset.sum_div, ← hlength,
    Finset.sum_ite_eq' Finset.univ k, if_pos (Finset.mem_univ k)]
  field_simp
  ring

theorem direction_dot_self (hc : y k + c ≠ 0) (hlength : c * c = ∑ t, y t * y t) :
    direction k c y ⬝ᵥ direction k c y = 2 * c / (y k + c) := by
  have hterm (t : Fin m) : direction k c y t * direction k c y t =
      direction k c y t * y t / (y k + c) + if t = k then c / (y k + c) else 0 := by
    by_cases ht : t = k
    · rw [if_pos ht, ht, direction_head hc]
      field_simp
    · rw [direction_of_ne ht, if_neg ht]
      ring
  rw [dotProduct, Finset.sum_congr rfl fun t _ => hterm t, Finset.sum_add_distrib,
    ← Finset.sum_div, direction_dot hc hlength, Finset.sum_ite_eq' Finset.univ k,
    if_pos (Finset.mem_univ k)]
  ring

/-- The factor that makes the direction a reflection. -/
theorem direction_factor (hhead : y k + c ≠ 0) (hc : c ≠ 0)
    (hlength : c * c = ∑ t, y t * y t) :
    (y k + c) / c * (direction k c y ⬝ᵥ direction k c y) = 2 := by
  rw [direction_dot_self hhead hlength]
  field_simp

/-- The reflection along the direction takes the vector to its head. -/
theorem direction_image (hhead : y k + c ≠ 0) (hc : c ≠ 0) (hlength : c * c = ∑ t, y t * y t)
    (i : Fin m) :
    y i - (∑ t, direction k c y t * y t) * ((y k + c) / c) * direction k c y i =
      if i = k then -c else 0 := by
  rw [direction_dot hhead hlength]
  by_cases hi : i = k
  · rw [if_pos hi, hi, direction_head hhead]
    field_simp
    ring
  · rw [if_neg hi, direction_of_ne hi]
    field_simp
    ring

end OfVector

/-- The length with the sign of the first coordinate: the two do not cancel. -/
theorem value_signed {squares : ρ} (first : ρ) (hpos : 0 < value squares) :
    let signed := if first < 0 then -RealScalar.sqrt squares else RealScalar.sqrt squares
    value signed * value signed = value squares ∧ value signed ≠ 0 ∧
      value first + value signed ≠ 0 := by
  intro signed
  have hnorm : value (RealScalar.sqrt squares) = √(value squares) :=
    ExactReal.value_sqrt _ hpos.le
  have hroot : √(value squares) * √(value squares) = value squares := Real.mul_self_sqrt hpos.le
  have hnormpos : 0 < √(value squares) := Real.sqrt_pos.2 hpos
  by_cases hneg : first < 0
  · have hs : value signed = -√(value squares) := by
      simp only [signed, if_pos hneg, ExactReal.value_neg, hnorm]
    rw [ExactReal.lt_iff, ExactScalar.value_zero'] at hneg
    rw [hs, neg_mul_neg]
    exact ⟨hroot, (neg_lt_zero.2 hnormpos).ne, (by linarith : _ < (0 : ℝ)).ne⟩
  · have hs : value signed = √(value squares) := by
      simp only [signed, if_neg hneg, hnorm]
    rw [ExactReal.lt_iff, ExactScalar.value_zero', not_lt] at hneg
    rw [hs]
    exact ⟨hroot, hnormpos.ne', (by linarith : (0 : ℝ) < _).ne'⟩

/-- The reflection of a vector, if there is one, is a reflection along some direction and
takes the rest of the vector to its head. -/
theorem ends_ofVector? (hmin : 0 ≤ value (RealScalar.minPositive : ρ))
    {vector : ℕ → Except Failure ρ} {x : Fin m → ρ} (hx : ∀ i : Fin m, vector i = .ok (x i))
    (k : Fin m) :
    Ends E (fun h? => ∀ h ∈ h?, ∃ w : Fin m → ℝ, h.Along k w ∧
        h.Reflects k w (QR.rest k fun i => value (x i)))
      (ofVector? vector k m) := by
  let y : Fin m → ℝ := QR.rest k fun i => value (x i)
  have hsquare (t : Fin m) : y t * y t =
      if (k : ℕ) ≤ (t : ℕ) then value (x t) * value (x t) else 0 := by
    by_cases ht : (k : ℕ) ≤ (t : ℕ)
    · simp only [y, QR.rest, if_pos ht]
    · simp only [y, QR.rest, if_neg ht, mul_zero]
  unfold ofVector?
  refine (ends_sum (K := ℝ) k.isLt.le (fun t => value (x t) * value (x t))
    fun t sum _ => ?_).bind fun squares hsquares => ?_
  · rw [hx t]
    exact (ExactScalar.value_add _ _).trans (congrArg _ (ExactScalar.value_mul _ _))
  have hsum : value squares = ∑ t, y t * y t := by
    rw [hsquares, Finset.sum_congr rfl fun t _ => hsquare t]
  by_cases hlarge : RealScalar.minPositive < squares
  swap
  · rw [if_neg hlarge]
    exact fun h hh => absurd hh (Option.not_mem_none h)
  have hpos : 0 < value squares := hmin.trans_lt ((ExactReal.lt_iff _ _).1 hlarge)
  rw [if_pos hlarge, hx k, Ends.ok_bind_iff]
  have hk : y k = value (x k) := QR.rest_self k _
  have hsign := value_signed (x k) hpos
  rw [← hk] at hsign
  set signed : ρ := if x k < 0 then -RealScalar.sqrt squares else RealScalar.sqrt squares
  obtain ⟨hlength, hsigned, hhead⟩ := hsign
  rw [hsum] at hlength
  have hnewHead : value (x k + signed) = y k + value signed := by
    rw [ExactScalar.value_add, hk]
  let w := direction k (value signed) y
  refine Ends.bind (Ends.collect (P := fun i z => (k : ℕ) < i → value z = w i) fun i => ?_) ?_
  · by_cases hi : (k : ℕ) < i
    · have hne : value (x k + signed) ≠ 0 := hnewHead ▸ hhead
      have hyi : y i = value (x i) := if_pos hi.le
      rw [if_pos hi, hx i]
      refine fun _ => (ExactScalar.value_div _ _ hne).trans ?_
      rw [hnewHead, ← hyi]
      exact (direction_of_ne (fun heq => hi.ne' (congrArg Fin.val heq))).symm
    · rw [if_neg hi]
      exact fun hi' => absurd hi' hi
  · rintro tail ⟨z, hz⟩ h hh
    obtain rfl := Option.some.inj hh
    have hfactor : value ((x k + signed) / signed) = (y k + value signed) / value signed := by
      rw [ExactScalar.value_div _ _ hsigned, hnewHead]
    refine ⟨w, ⟨rfl, rfl, fun t ht => ⟨z t, (hz t).1, (hz t).2 ht⟩, direction_head hhead,
      fun t ht => ?_, ?_⟩, fun i => ?_⟩
    · have hyt : y t = 0 := if_neg (not_le.2 ht)
      have hwt : w t = y t / (y k + value signed) := direction_of_ne ht.ne
      rw [hwt, hyt, zero_div]
    · dsimp only
      rw [hfactor]
      exact direction_factor hhead hsigned hlength
    · dsimp only
      rw [hfactor, ExactReal.value_neg]
      exact direction_image hhead hsigned hlength i

end Reflection

end

end DenseFactor
