import Mathlib
import DenseFactor.Proofs.Norm
import DenseFactor.Proofs.SVD.Iteration

/-!
# DenseFactor.Proofs.SVD.Shift

The shift of a sweep, over exact real elements: **an eigenvalue of the trailing block**, found
without a division by zero.

Design points:

* What the shift divides by is a root of a quadratic (`value_shiftDivisor_mul`). That it is not
  zero, and that the shift is an eigenvalue, are both read off this.
* In a block of two rows the trailing block is all of `BᵀB`. So the first rotation of columns
  makes them orthogonal, and the sweep leaves nothing beside the diagonal, or nothing on it in
  the first row (`ends_sweep_two`). A zero on the diagonal is chased out by the next pass.
* Therefore a form of at most two columns never needs more than two passes. For larger forms
  nothing is said of how many are needed.
-/

namespace DenseFactor.SVD.Bidiagonal

open ExactScalar (value)

variable {ρ : Type} [RealScalar ρ] [ExactReal ρ] {m n : ℕ}

/-! ### The divisor of the shift -/

namespace Corner

/-- The divisor of the shift of a corner. -/
def divisor (c : Corner ρ) : ρ :=
  shiftDivisor
    ((c.previous * c.previous + c.besidePrevious * c.besidePrevious -
      (c.last * c.last + c.besideLast * c.besideLast)) / (1 + 1))
    (c.previous * c.besideLast)

/-- The two divisors of a sweep are not zero: the size of the entries that determine the shift,
and half the difference of the trailing block of those entries, moved away from zero. -/
structure DividesOffZero (c : Corner ρ) : Prop where
  size_pos : 0 < value c.size
  divisor_ne_zero : value (c.dividedBy c.size).divisor ≠ 0

/-- Half the difference, moved away from zero, is the root of a quadratic. -/
theorem value_shiftDivisor_mul (d t : ρ) :
    value (shiftDivisor d t) * (value (shiftDivisor d t) - 2 * value d) = value t * value t := by
  have hsum : 0 ≤ value d * value d + value t * value t :=
    add_nonneg (mul_self_nonneg _) (mul_self_nonneg _)
  have hsquare : value (d * d + t * t) = value d * value d + value t * value t := by
    rw [ExactScalar.value_add, ExactScalar.value_mul, ExactScalar.value_mul]
  have hroot : value (RealScalar.sqrt (d * d + t * t)) =
      √(value d * value d + value t * value t) := by
    rw [ExactReal.value_sqrt _ (hsquare ▸ hsum), hsquare]
  have hroot_mul := Real.mul_self_sqrt hsum
  unfold shiftDivisor
  by_cases hd : (0 : ρ) ≤ d
  · rw [if_pos hd, ExactScalar.value_add, ExactScalar.value_mul, ExactScalar.value_one', one_mul,
      hroot]
    linear_combination hroot_mul
  · rw [if_neg hd, ExactScalar.value_add, ExactScalar.value_mul, ExactReal.value_neg,
      ExactScalar.value_one', hroot]
    linear_combination hroot_mul

/-- Moving half the difference away from zero makes it non-zero unless both are. -/
theorem value_shiftDivisor_ne_zero (d : ρ) {t : ρ} (ht : value t ≠ 0) :
    value (shiftDivisor d t) ≠ 0 := fun hzero =>
  ht (mul_self_eq_zero.1 ((value_shiftDivisor_mul d t).symm.trans (by rw [hzero, zero_mul])))

/-- No entry is larger than the size. -/
theorem abs_le_size (c : Corner ρ) {x : ρ}
    (hx : x ∈ [c.last, c.previous, c.besideLast, c.besidePrevious, c.first, c.besideFirst]) :
    |value x| ≤ value c.size := by
  rw [← ExactReal.value_abs]
  exact ((value_foldl_maximum_le_iff _ _ _).1 le_rfl).2 _ (List.mem_map_of_mem hx)

/-- The last entry beside the diagonal gives the corner a size, and with the diagonal entry
before the last it keeps the divisor of the shift away from zero. -/
theorem dividesOffZero {c : Corner ρ} (hbeside : value c.besideLast ≠ 0)
    (hprevious : value c.previous ≠ 0) : c.DividesOffZero := by
  have hsize : 0 < value c.size :=
    (abs_pos.2 hbeside).trans_le (c.abs_le_size (by simp))
  refine ⟨hsize, value_shiftDivisor_ne_zero _ ?_⟩
  show value (c.previous / c.size * (c.besideLast / c.size)) ≠ 0
  rw [ExactScalar.value_mul, ExactScalar.value_div _ _ hsize.ne',
    ExactScalar.value_div _ _ hsize.ne']
  exact mul_ne_zero (div_ne_zero hprevious hsize.ne') (div_ne_zero hbeside hsize.ne')

/-! ### The shift -/

/-- The shift is an eigenvalue of the trailing block of `BᵀB`. -/
theorem shift_eigenvalue {c : Corner ρ} (hc : value c.divisor ≠ 0) :
    (value c.previous * value c.previous + value c.besidePrevious * value c.besidePrevious -
        value c.shift) *
      (value c.last * value c.last + value c.besideLast * value c.besideLast - value c.shift) =
    value c.previous * value c.besideLast * (value c.previous * value c.besideLast) := by
  have htwo : value (1 + 1 : ρ) = 2 := by
    rw [ExactScalar.value_add, ExactScalar.value_one', one_add_one_eq_two]
  have hshift : value c.shift =
      value c.last * value c.last + value c.besideLast * value c.besideLast -
        value c.previous * value c.besideLast * (value c.previous * value c.besideLast) /
          value c.divisor := by
    show value (c.last * c.last + c.besideLast * c.besideLast -
      c.previous * c.besideLast * (c.previous * c.besideLast) / c.divisor) = _
    simp only [ExactScalar.value_sub, ExactScalar.value_add, ExactScalar.value_mul,
      ExactScalar.value_div _ _ hc]
  have hroot : value c.divisor * (value c.divisor -
      (value c.previous * value c.previous + value c.besidePrevious * value c.besidePrevious -
        (value c.last * value c.last + value c.besideLast * value c.besideLast))) =
      value c.previous * value c.besideLast * (value c.previous * value c.besideLast) := by
    have hmul := value_shiftDivisor_mul
      ((c.previous * c.previous + c.besidePrevious * c.besidePrevious -
        (c.last * c.last + c.besideLast * c.besideLast)) / (1 + 1)) (c.previous * c.besideLast)
    rw [ExactScalar.value_div _ _ (htwo ▸ two_ne_zero), htwo, mul_div_cancel₀ _ two_ne_zero] at hmul
    simp only [ExactScalar.value_sub, ExactScalar.value_add, ExactScalar.value_mul] at hmul
    exact hmul
  rw [hshift, ← hroot]
  field_simp
  ring

end Corner

/-! ### Blocks of two rows -/

/-- A rotation of columns made from the first column of `BᵀB` less an eigenvalue makes the two
columns orthogonal. Here `(x, z)` is that column, and `x - w` the difference of the diagonal of
`BᵀB`. -/
theorem turned_orthogonal {c s x z w : ℝ} (heigenvalue : x * w = z * z) (hz : z ≠ 0)
    (hturns : c * z - s * x = 0) : (c * c - s * s) * z + c * s * (w - x) = 0 := by
  have hx : x ≠ 0 := fun h => hz (mul_self_eq_zero.1 (by rw [← heigenvalue, h, zero_mul]))
  have hscaled : x * ((c * c - s * s) * z + c * s * (w - x)) = 0 := by
    linear_combination c * s * heigenvalue + (c * x + s * z) * hturns
  exact (mul_eq_zero.1 hscaled).resolve_left hx

/-- If a rotation of rows turns the first of two orthogonal columns to its first coordinate,
what is left of the first row is a zero beside the diagonal or one on it. -/
theorem turned_apart {c s p q p' q' : ℝ} (hcircle : c * c + s * s = 1) (hturns : c * q - s * p = 0)
    (horthogonal : p * p' + q * q' = 0) : c * p' + s * q' = 0 ∨ c * p + s * q = 0 := by
  refine mul_eq_zero.1 ?_
  linear_combination (p * p' + q * q') * hcircle + horthogonal + (s * p' - c * q') * hturns

variable {E : Failure → Prop} {A : Matrix (Fin m) (Fin n) ℝ} {b : Bidiagonal ρ} {lo : ℕ}

/-- The only step of a sweep over two rows, by the numbers it stores in the first of them: a
rotation of columns and then one of rows. -/
theorem Sweep.ends_step_two {s : Sweep ρ} (hs : s.form.Represents A) (hnm : n ≤ m)
    (hlo : lo + 1 < n) :
    let d := reals s.form.diag lo
    let e := reals s.form.offDiag lo
    let y := reals s.form.diag (lo + 1)
    let c := value (Rotation.ofPair s.x s.z).cos
    let σ := value (Rotation.ofPair s.x s.z).sin
    Ends E (fun s' => ∃ c' σ' : ℝ, c' * c' + σ' * σ' = 1 ∧ c' * (σ * y) - σ' * (c * d + σ * e) = 0 ∧
        reals s'.form.diag lo = c' * (c * d + σ * e) + σ' * (σ * y) ∧
        reals s'.form.offDiag lo = c' * (c * e - σ * d) + σ' * (c * y))
      (s.step lo (lo + 1) lo) := by
  intro d e y c σ
  have hdiag (i : ℕ) (hi : i < n) : i < s.form.diag.size := hs.diag_size ▸ hi
  have hoff : lo < s.form.offDiag.size := by
    rw [hs.offDiag_size]
    omega
  have hne : lo ≠ lo + 1 := lo.lt_succ_self.ne
  unfold step
  rw [if_neg (lt_irrefl lo)]
  refine (ends_read (hdiag lo (by omega))).bind fun dk hdk => ?_
  refine (ends_read hoff).bind fun ek hek => ?_
  refine (ends_read (hdiag (lo + 1) hlo)).bind fun next hnext => ?_
  refine (hs.carries.turn_right s.x s.z (j := ⟨lo, by omega⟩) (k := ⟨lo + 1, hlo⟩)
    fun h => hne (congrArg Fin.val h)).bind fun v _ => ?_
  set right := Rotation.ofPair s.x s.z
  set left := Rotation.ofPair (right.first dk ek) (right.sin * next)
  refine (ends_write (hdiag lo (by omega)) _).bind fun diag hdiag₁ => ?_
  refine (ends_write hoff _).bind fun offDiag hoffDiag => ?_
  refine (ends_write (hdiag₁.1 ▸ hdiag (lo + 1) hlo) _).bind fun diag₂ hdiag₂ => ?_
  refine (hs.carries.turn_left (right.first dk ek) (right.sin * next) (j := ⟨lo, by omega⟩)
    (k := ⟨lo + 1, by omega⟩) fun h => hne (congrArg Fin.val h)).bind fun u _ => ?_
  have hd' : value (right.first dk ek) = c * d + σ * e := by
    rw [Rotation.value_first, hdk, hek]
  have hbulge : value (right.sin * next) = σ * y := by
    rw [ExactScalar.value_mul, hnext]
  rw [if_neg (lt_irrefl (lo + 1)), Ends.pure_iff]
  refine ⟨value left.cos, value left.sin, Rotation.ofPair_circle _ _, ?_, ?_, ?_⟩
  · rw [← hd', ← hbulge]
    exact Rotation.ofPair_turns _ _
  · show reals diag₂ lo = _
    rw [hdiag₂.2, Function.update_of_ne hne, hdiag₁.2, Function.update_self, Rotation.value_first,
      hd', hbulge]
  · show reals offDiag lo = _
    rw [hoffDiag.2, Function.update_self, Rotation.value_first, Rotation.value_second,
      ExactScalar.value_mul, hdk, hek, hnext]

/-- A corner of a block of two rows, with `d` and `y` on the diagonal and `e` beside it. -/
structure Corner.IsPair (c : Corner ρ) (d e y : ℝ) : Prop where
  last : value c.last = y
  previous : value c.previous = d
  besideLast : value c.besideLast = e
  besidePrevious : value c.besidePrevious = 0
  first : value c.first = d
  besideFirst : value c.besideFirst = e

theorem Corner.Shows.isPair {c : Corner ρ} (h : c.Shows b lo (lo + 1)) :
    c.IsPair (reals b.diag lo) (reals b.offDiag lo) (reals b.diag (lo + 1)) where
  last := h.last
  previous := h.previous
  besideLast := h.besideLast
  besidePrevious := h.besidePrevious.trans (if_neg (by omega))
  first := h.first
  besideFirst := h.besideFirst

namespace Corner.IsPair

variable {c : Corner ρ} {d e y : ℝ}

theorem dividesOffZero (h : c.IsPair d e y) (hd : d ≠ 0) (he : e ≠ 0) : c.DividesOffZero :=
  Corner.dividesOffZero (h.besideLast ▸ he) (h.previous ▸ hd)

theorem dividedBy (h : c.IsPair d e y) {size : ρ} (hsize : value size ≠ 0) :
    (c.dividedBy size).IsPair (d / value size) (e / value size) (y / value size) := by
  have hquotient {x : ρ} {t : ℝ} (hx : value x = t) : value (x / size) = t / value size := by
    rw [ExactScalar.value_div _ _ hsize, hx]
  exact ⟨hquotient h.last, hquotient h.previous, hquotient h.besideLast,
    (hquotient h.besidePrevious).trans (zero_div _), hquotient h.first, hquotient h.besideFirst⟩

/-- The first rotation of a sweep makes the columns of the block orthogonal. -/
theorem orthogonal (h : c.IsPair d e y) (hdivisor : value c.divisor ≠ 0) (hd : d ≠ 0)
    (he : e ≠ 0) :
    let g := Rotation.ofPair (c.first * c.first - c.shift) (c.first * c.besideFirst)
    (value g.cos * d + value g.sin * e) * (value g.cos * e - value g.sin * d) +
      value g.sin * y * (value g.cos * y) = 0 := by
  intro g
  have hx : value (c.first * c.first - c.shift) = d * d - value c.shift := by
    rw [ExactScalar.value_sub, ExactScalar.value_mul, h.first]
  have hz : value (c.first * c.besideFirst) = d * e := by
    rw [ExactScalar.value_mul, h.first, h.besideFirst]
  have heigenvalue : (d * d - value c.shift) * (y * y + e * e - value c.shift) =
      d * e * (d * e) := by
    have hshift := Corner.shift_eigenvalue hdivisor
    rwa [h.previous, h.besidePrevious, h.last, h.besideLast, mul_zero, add_zero] at hshift
  have hturns := Rotation.ofPair_turns (c.first * c.first - c.shift) (c.first * c.besideFirst)
  rw [hx, hz] at hturns
  linear_combination turned_orthogonal heigenvalue (mul_ne_zero hd he) hturns

end Corner.IsPair

/-- One sweep finishes a block of two rows, unless it leaves a zero on the diagonal. -/
theorem ends_sweep_two (hb : b.Represents A) (hnm : n ≤ m) (hlo : lo + 1 < n)
    (hdiag : reals b.diag lo ≠ 0) (hbeside : reals b.offDiag lo ≠ 0) :
    Ends E (fun b' => reals b'.offDiag lo = 0 ∨ reals b'.diag lo = 0) (b.sweep lo (lo + 1)) := by
  have hsingle : positions lo (lo + 1) = [lo] := by
    rw [positions, Nat.add_sub_cancel_left]
    rfl
  unfold sweep
  rw [hsingle]
  refine (ends_corner hb (Nat.lt_add_one lo) hlo).bind fun entries hentries => ?_
  have hpair := hentries.isPair
  obtain ⟨hsize, hdivisor⟩ := hpair.dividesOffZero hdiag hbeside
  have horthogonal := (hpair.dividedBy hsize.ne').orthogonal hdivisor
    (div_ne_zero hdiag hsize.ne') (div_ne_zero hbeside hsize.ne')
  dsimp only at horthogonal ⊢
  set c := entries.dividedBy entries.size
  set x := c.first * c.first - c.shift
  set z := c.first * c.besideFirst
  show Ends E _ ((Sweep.step lo (lo + 1) { form := b, x, z } lo >>= pure) >>= fun s => pure s.form)
  rw [bind_pure]
  refine (Sweep.ends_step_two (s := { form := b, x, z }) hb hnm hlo).bind fun s' hs' => ?_
  obtain ⟨c', σ', hcircle, hturns, hdiag', hbeside'⟩ := hs'
  rw [Ends.pure_iff, hdiag', hbeside']
  refine turned_apart hcircle hturns ?_
  -- the size has only scaled the block
  field_simp at horthogonal
  dsimp only
  linear_combination horthogonal

/-! ### Forms of at most two columns -/

section Two

variable {A : Matrix (Fin m) (Fin 2) ℝ} {small : ρ}

/-- A pass over two rows finishes them. Only a sweep may leave the entry beside the diagonal, and
then with a zero before it, which the sweep has not met. -/
theorem ends_pass_two (hb : b.Represents A) (hm : 2 ≤ m) (hsmall : 0 ≤ value small)
    (hbeside : reals b.offDiag 0 ≠ 0) :
    Ends E (fun b' => b'.Represents A ∧
        (reals b'.offDiag 0 = 0 ∨ reals b.diag 0 ≠ 0 ∧ reals b'.diag 0 = 0))
      (b.pass small 0 1) := by
  have hfinished (i : ℕ) (hi : 1 ≤ i) : reals b.offDiag i = 0 :=
    reals_of_le (hb.offDiag_size.trans_le hi)
  unfold pass
  refine (Ends.findM?_first (positions_sorted 0 1) (Q := fun i counts => counts = true ↔
    |reals b.diag i| ≤ value small) fun i hi => ?_).bind fun found hfound => ?_
  · refine (ends_read ?_).bind fun d hd => ?_
    · rw [hb.diag_size]
      exact (mem_positions.1 hi).2.trans one_lt_two
    · rw [Ends.pure_iff, decide_eq_true_iff, ExactReal.le_iff, ExactReal.value_abs, hd]
  cases found with
  | some row =>
      obtain rfl : row = 0 := Nat.lt_one_iff.1 (mem_positions.1 (hfound.2 row rfl).1).2
      exact (ends_chase hb hm one_pos one_lt_two hfinished).imp fun _ h => ⟨h.1.1, .inl h.2⟩
  | none =>
      have hdiag : reals b.diag 0 ≠ 0 := fun hzero => by
        have hlarge := hfound.1 rfl 0 (mem_positions.2 ⟨le_rfl, one_pos⟩)
        rw [hzero, abs_zero] at hlarge
        exact Bool.false_ne_true (hlarge.2 hsmall)
      refine ((ends_sweep hb hm one_pos one_lt_two nofun hfinished).and
        (ends_sweep_two hb hm one_lt_two hdiag hbeside)).imp fun b' hb' => ?_
      exact ⟨hb'.1.1, hb'.2.imp_right fun hzero => ⟨hdiag, hzero⟩⟩

/-- The iteration makes a pass over two rows only if there is something between them. -/
theorem ends_iterate_of_pass (hε : 0 ≤ value (RealScalar.epsilon : ρ)) (hb : b.Represents A)
    {budget : ℕ}
    (hpass : reals b.offDiag 0 ≠ 0 →
      Ends E (fun b' => b'.Represents A ∧ ∀ i, reals b'.offDiag i = 0)
        (match budget with
        | 0 => throw .noConvergence
        | budget + 1 => do iterate small (← b.pass small 0 1) budget 1)) :
    Ends E (fun b' => b'.Represents A ∧ ∀ i, reals b'.offDiag i = 0)
      (iterate small b budget 1) := by
  rw [iterate]
  refine (ends_isNegligible hb one_lt_two).bind fun negligible hnegligible => ?_
  cases negligible with
  | true =>
      refine (ends_split hb one_lt_two).bind fun b' hb' => ?_
      rw [iterate]
      refine ⟨hb'.1, fun i => ?_⟩
      rcases Nat.eq_zero_or_pos i with rfl | hi
      · rw [hb'.2, Function.update_self]
      · exact reals_of_le (hb'.1.offDiag_size.trans_le hi)
  | false =>
      refine hpass fun hzero => ?_
      rw [hzero, abs_zero] at hnegligible
      have hbound : 0 ≤ value (RealScalar.epsilon : ρ) * (|reals b.diag 0| + |reals b.diag 1|) :=
        mul_nonneg hε (add_nonneg (abs_nonneg _) (abs_nonneg _))
      exact Bool.false_ne_true (hnegligible.2 hbound)

/-- Two passes are enough for two columns. -/
theorem ends_iterate_two (hε : 0 ≤ value (RealScalar.epsilon : ρ)) (hsmall : 0 ≤ value small)
    (hb : b.Represents A) (hm : 2 ≤ m) (budget : ℕ) :
    Ends E (fun b' => b'.Represents A ∧ ∀ i, reals b'.offDiag i = 0)
      (iterate small b (budget + 2) 1) := by
  have hfinished {b : Bidiagonal ρ} (hb : b.Represents A) (hzero : reals b.offDiag 0 = 0)
      (budget : ℕ) : Ends E (fun b' => b'.Represents A ∧ ∀ i, reals b'.offDiag i = 0)
        (iterate small b budget 1) :=
    ends_iterate_of_pass hε hb fun hbeside => absurd hzero hbeside
  refine ends_iterate_of_pass hε hb fun hbeside =>
    (ends_pass_two hb hm hsmall hbeside).bind fun b' hb' => ?_
  obtain ⟨hb', hzero | ⟨-, hdiag⟩⟩ := hb'
  · exact hfinished hb' hzero _
  · -- the sweep has left a zero on the diagonal, which the second pass chases out
    refine ends_iterate_of_pass hε hb' fun hbeside' =>
      (ends_pass_two hb' hm hsmall hbeside').bind fun b'' hb'' => ?_
    exact hfinished hb''.1 (hb''.2.resolve_right fun h => h.1 hdiag) _

end Two

/-- The bound below which an entry counts as zero. -/
theorem small_nonneg (hε : 0 ≤ value (RealScalar.epsilon : ρ)) (b : Bidiagonal ρ) :
    0 ≤ value (RealScalar.epsilon * b.scale) := by
  have hscale : value (0 : ρ) ≤ value b.scale := ((value_foldl_maximum_le_iff _ _ _).1 le_rfl).1
  rw [ExactScalar.value_zero'] at hscale
  rw [ExactScalar.value_mul]
  exact mul_nonneg hε hscale

/-- A form of a matrix with no fewer rows than columns is taken to a diagonal one. With more than
two columns, or a rounding unit below zero, the passes may run out. -/
theorem ends_diagonalize (hb : b.Represents A) (hnm : n ≤ m)
    (hE : (0 ≤ value (RealScalar.epsilon : ρ) → 2 < n) → E .noConvergence) {budget : ℕ}
    (hbudget : 1 < n → 2 ≤ budget) : Ends E (·.Diagonalizes A) (b.diagonalize budget) := by
  refine ends_diagonalize_of_iterate hnm ?_
  rw [hb.diag_size]
  by_cases htwo : n = 2 ∧ 0 ≤ value (RealScalar.epsilon : ρ)
  · obtain ⟨rfl, hε⟩ := htwo
    obtain ⟨k, rfl⟩ := Nat.exists_eq_add_of_le' (hbudget one_lt_two)
    exact ends_iterate_two hε (small_nonneg hε b) hb hnm k
  · refine ends_iterate _ hnm (fun hn => hE fun hε => ?_) budget hb (by omega)
      fun i hi => reals_of_le (hb.offDiag_size ▸ hi)
    have hne : n ≠ 2 := fun h => htwo ⟨h, hε⟩
    omega

end DenseFactor.SVD.Bidiagonal
