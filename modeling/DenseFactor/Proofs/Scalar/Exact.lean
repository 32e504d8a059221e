import Mathlib
import DenseFactor.Scalar.Basic
import DenseFactor.Proofs.Outcome

/-!
# DenseFactor.Proofs.Scalar.Exact

What it means that the arithmetic of an element type is **exact**.

Design points:

* Exactness is a map `value` from the elements to a field under which every
  operation that succeeds has the result that the field gives. An operation may
  still fail, by a fault of arithmetic and in no other way, so numbers of bounded
  width are exact.
* How operations fail is said apart from what they return: `FailsBy α E D` allows the
  failures `E`, given that every divisor meets `D`. An algorithm that never divides by
  zero then fails by what is left.
* `ExactScalar` says nothing about division by zero. `ExactField` says that it is a
  fault; total arithmetic, where a quotient by zero is some element or other, is
  exact without being an `ExactField`.
* `ExactReal` and `ExactEuclidean` read the classes for rounded numbers in the real
  numbers and in `ℝ` or `ℂ`. Constants of a format, such as the distance from one to
  the next number, stay arbitrary.
-/

namespace DenseFactor

/-- No operation fails except by `E`, as long as every divisor meets `D`. -/
structure FailsBy (α : Type) [Scalar α] (E : Failure → Prop) (D : α → Prop) : Prop where
  ends_add (x y : α) : Ends E (fun _ => True) (Scalar.add x y)
  ends_sub (x y : α) : Ends E (fun _ => True) (Scalar.sub x y)
  ends_mul (x y : α) : Ends E (fun _ => True) (Scalar.mul x y)
  ends_div (x y : α) (hy : D y) : Ends E (fun _ => True) (Scalar.div x y)

/-- Fewer divisors are allowed. -/
theorem FailsBy.of_divisor {α : Type} [Scalar α] {E : Failure → Prop} {D D' : α → Prop}
    (hE : FailsBy α E D) (hD : ∀ y, D' y → D y) : FailsBy α E D' :=
  ⟨hE.ends_add, hE.ends_sub, hE.ends_mul, fun x y hy => hE.ends_div x y (hD y hy)⟩

/-- Nothing is said where every failure is allowed. -/
theorem failsBy_always {α : Type} [Scalar α] : FailsBy α Always fun _ => True :=
  ⟨fun _ _ => .always, fun _ _ => .always, fun _ _ => .always, fun _ _ _ => .always⟩

/-- Total arithmetic does not fail at all. -/
theorem failsBy_total {α : Type} [Arithmetic α] {E : Failure → Prop} {D : α → Prop} :
    FailsBy α E D :=
  ⟨fun _ _ => trivial, fun _ _ => trivial, fun _ _ => trivial, fun _ _ _ => trivial⟩

/-- A scalar type whose operations, as far as they succeed, are those of a field. -/
class ExactScalar (α : Type) [Scalar α] (K : outParam Type) [Field K] where
  /-- The field element that an element stands for. -/
  value : α → K
  value_zero : value Scalar.zero = 0
  value_one : value Scalar.one = 1
  beq_iff (x y : α) : Scalar.beq x y = true ↔ value x = value y
  ends_add (x y : α) : Ends Fault (fun z => value z = value x + value y) (Scalar.add x y)
  ends_sub (x y : α) : Ends Fault (fun z => value z = value x - value y) (Scalar.sub x y)
  ends_mul (x y : α) : Ends Fault (fun z => value z = value x * value y) (Scalar.mul x y)
  ends_div (x y : α) (hy : value y ≠ 0) :
    Ends Fault (fun z => value z = value x / value y) (Scalar.div x y)

/-- An exact scalar type that refuses to divide by zero. -/
class ExactField (α : Type) [Scalar α] (K : outParam Type) [Field K] extends
    ExactScalar α K where
  ends_div_zero (x y : α) (hy : value y = 0) : Ends Fault (fun _ => False) (Scalar.div x y)

/-- Magnitudes that tell zero from everything else: they are numbers, and that of zero
is below all others. -/
class FaithfulMagnitude (α : Type) {K : outParam Type} [FieldScalar α] [Field K]
    [ExactScalar α K] : Prop where
  bottom_lt (x : α) : -(1 / 0 : Float) < FieldScalar.magnitude x
  zero_lt (x y : α) (hx : ExactScalar.value x = 0) (hy : ExactScalar.value y ≠ 0) :
    FieldScalar.magnitude x < FieldScalar.magnitude y
  not_lt_zero (x y : α) (hx : ExactScalar.value x = 0) (hy : ExactScalar.value y ≠ 0) :
    ¬ FieldScalar.magnitude y < FieldScalar.magnitude x

/-- Real numbers without rounding. -/
class ExactReal (ρ : Type) [RealScalar ρ] extends ExactScalar ρ ℝ where
  lt_iff (x y : ρ) : x < y ↔ value x < value y
  le_iff (x y : ρ) : x ≤ y ↔ value x ≤ value y
  value_neg (x : ρ) : value (-x) = -value x
  value_abs (x : ρ) : value (RealScalar.abs x) = |value x|
  value_sqrt (x : ρ) (hx : 0 ≤ value x) : value (RealScalar.sqrt x) = √(value x)
  value_log (x : ρ) (hx : 0 < value x) : value (RealScalar.log x) = Real.log (value x)
  value_hypot (x y : ρ) :
    value (RealScalar.hypot x y) = √(value x * value x + value y * value y)
  isNaN_eq (x : ρ) : RealScalar.isNaN x = false
  isFinite_eq (x : ρ) : RealScalar.isFinite x = true
  value_ofFloat_zero : value (RealScalar.ofFloat 0) = 0

/-- Real or complex numbers without rounding. -/
class ExactEuclidean (α : Type) (ρ 𝕜 : outParam Type) [RealScalar ρ] [ExactReal ρ]
    [EuclideanScalar α ρ] [RCLike 𝕜] extends ExactScalar α 𝕜 where
  value_modulus (x : α) : ExactScalar.value (EuclideanScalar.modulus x) = ‖value x‖
  value_conj (x : α) : value (EuclideanScalar.conj x) = star (value x)
  value_re (x : α) : ExactScalar.value (EuclideanScalar.re x) = RCLike.re (value x)
  value_ofReal (x : ρ) : value (EuclideanScalar.ofReal x) = (ExactScalar.value x : 𝕜)

namespace ExactScalar

variable {α K : Type} [Field K]

/-- The test for zero is exact. -/
theorem isZero_iff [Scalar α] [ExactScalar α K] (x : α) :
    Scalar.isZero x = true ↔ value x = 0 := by
  rw [Scalar.isZero, beq_iff, value_zero]

/-- Where division by zero is a fault, every quotient is exact. -/
theorem ends_quotient [Scalar α] [ExactField α K] (x y : α) :
    Ends Fault (fun z => value y ≠ 0 ∧ value z = value x / value y) (Scalar.div x y) := by
  by_cases hy : value y = 0
  · exact (ExactField.ends_div_zero x y hy).imp fun _ h => h.elim
  · exact (ends_div x y hy).imp fun _ h => ⟨hy, h⟩

/-- An exact field fails by faults of arithmetic only. -/
theorem failsBy_fault [Scalar α] [ExactField α K] : FailsBy α Fault fun _ => True where
  ends_add x y := (ends_add x y).imp fun _ _ => trivial
  ends_sub x y := (ends_sub x y).imp fun _ _ => trivial
  ends_mul x y := (ends_mul x y).imp fun _ _ => trivial
  ends_div x y _ := (ends_quotient x y).imp fun _ _ => trivial

/-! ### Total arithmetic -/

variable [Arithmetic α] [ExactScalar α K]

@[simp]
theorem value_zero' : value (0 : α) = 0 := value_zero (α := α)

@[simp]
theorem value_one' : value (1 : α) = 1 := value_one (α := α)

@[simp]
theorem value_add (x y : α) : value (x + y) = value x + value y := ends_add x y

@[simp]
theorem value_sub (x y : α) : value (x - y) = value x - value y := ends_sub x y

@[simp]
theorem value_mul (x y : α) : value (x * y) = value x * value y := ends_mul x y

theorem value_div (x y : α) (hy : value y ≠ 0) : value (x / y) = value x / value y :=
  ends_div x y hy

theorem eq_iff (x y : α) : (x == y) = true ↔ value x = value y := beq_iff x y

end ExactScalar

/-- Without NaNs the larger of two numbers is their maximum. -/
theorem ExactReal.value_maximum {ρ : Type} [RealScalar ρ] [ExactReal ρ] (x y : ρ) :
    ExactScalar.value (RealScalar.maximum x y) =
      max (ExactScalar.value x) (ExactScalar.value y) := by
  unfold RealScalar.maximum
  rw [ExactReal.isNaN_eq, ExactReal.isNaN_eq, if_neg Bool.false_ne_true,
    if_neg Bool.false_ne_true]
  by_cases h : x < y
  · rw [if_pos h, max_eq_right ((ExactReal.lt_iff x y).1 h).le]
  · rw [if_neg h, max_eq_left (not_lt.1 ((ExactReal.lt_iff x y).not.1 h))]

/-! ### Sums and products over positions -/

section Sums

open ExactScalar (value)

variable {M : Type} [AddCommMonoid M] {n : ℕ}

/-- Sums over the positions before `k + 1` gain the term of `k`. -/
theorem sum_lt_succ (f : Fin n → M) (k : Fin n) :
    (∑ t : Fin n, if (t : ℕ) < k + 1 then f t else 0) =
      (∑ t : Fin n, if (t : ℕ) < k then f t else 0) + f k := by
  have hterm (t : Fin n) : (if (t : ℕ) < k + 1 then f t else 0) =
      (if (t : ℕ) < k then f t else 0) + if t = k then f t else 0 := by
    by_cases htk : t = k
    · simp [htk]
    · have hiff : (t : ℕ) < k + 1 ↔ (t : ℕ) < k := by omega
      simp [hiff, htk]
  rw [Finset.sum_congr rfl fun t _ => hterm t, Finset.sum_add_distrib]
  simp

/-- Sums over the positions from `k` on are the term of `k` and those after it. -/
theorem sum_ge_eq (f : Fin n → M) (k : Fin n) :
    (∑ t : Fin n, if (k : ℕ) ≤ t then f t else 0) =
      f k + ∑ t : Fin n, if (k : ℕ) + 1 ≤ t then f t else 0 := by
  have hterm (t : Fin n) : (if (k : ℕ) ≤ t then f t else 0) =
      (if t = k then f t else 0) + if (k : ℕ) + 1 ≤ t then f t else 0 := by
    by_cases htk : t = k
    · simp [htk]
    · have hiff : (k : ℕ) ≤ t ↔ (k : ℕ) + 1 ≤ t := by omega
      simp [hiff, htk]
  rw [Finset.sum_congr rfl fun t _ => hterm t, Finset.sum_add_distrib]
  simp

variable {α K : Type} [Field K] [Arithmetic α] [ExactScalar α K] {E : Failure → Prop}

/-- A loop that adds a term at every position from `start` on adds these terms up. -/
theorem ends_sum_add {start : ℕ} (hstart : start ≤ n) {step : α → ℕ → Except Failure α}
    (initial : α) (term : Fin n → K) (hstep : ∀ (t : Fin n) (sum : α), start ≤ (t : ℕ) →
      Ends E (fun s => value s = value sum + term t) (step sum t)) :
    Ends E (fun s => value s =
        value initial + ∑ t : Fin n, if start ≤ (t : ℕ) then term t else 0)
      (foldPositions start n initial step) := by
  refine (Ends.foldPositions (I := fun k s => value s = value initial +
    ∑ t : Fin n, if (t : ℕ) < k then (if start ≤ (t : ℕ) then term t else 0) else 0)
    hstart ?_ ?_).imp ?_
  · have hnone : (∑ t : Fin n, if (t : ℕ) < start then
        (if start ≤ (t : ℕ) then term t else 0) else 0) = 0 := by
      refine Finset.sum_eq_zero fun t _ => ?_
      by_cases ht : (t : ℕ) < start
      · rw [if_pos ht, if_neg (by omega)]
      · rw [if_neg ht]
    rw [hnone, add_zero]
  · intro k s hk hkn hs
    refine (hstep ⟨k, hkn⟩ s hk).imp fun s' hs' => ?_
    have hgain := sum_lt_succ (fun t : Fin n => if start ≤ (t : ℕ) then term t else 0) ⟨k, hkn⟩
    simp only [if_pos hk] at hgain
    rw [hs', hs, add_assoc]
    exact congrArg _ hgain.symm
  · intro s hs
    simpa using hs

/-- A loop that starts at zero sums the terms. -/
theorem ends_sum {start : ℕ} (hstart : start ≤ n) {step : α → ℕ → Except Failure α}
    (term : Fin n → K) (hstep : ∀ (t : Fin n) (sum : α), start ≤ (t : ℕ) →
      Ends E (fun s => value s = value sum + term t) (step sum t)) :
    Ends E (fun s => value s = ∑ t : Fin n, if start ≤ (t : ℕ) then term t else 0)
      (foldPositions start n 0 step) := by
  refine (ends_sum_add hstart 0 term hstep).imp fun s hs => ?_
  rw [hs, ExactScalar.value_zero', zero_add]

end Sums

open ExactScalar (value) in
/-- A loop that multiplies by a factor at every position multiplies these factors up. -/
theorem ends_product {α K : Type} [Field K] [Scalar α] [ExactScalar α K] {E : Failure → Prop}
    {n : ℕ} {step : α → ℕ → Except Failure α} (initial : α) (factor : Fin n → K)
    (hstep : ∀ (t : Fin n) (x : α),
      Ends E (fun y => value y = value x * factor t) (step x t)) :
    Ends E (fun y => value y = value initial * ∏ t, factor t)
      (foldPositions 0 n initial step) := by
  -- the factor at every position, so that the loop can count them
  let factorAt (k : ℕ) : K := if hk : k < n then factor ⟨k, hk⟩ else 1
  have hall : ∏ t, factor t = ∏ k ∈ Finset.range n, factorAt k := by
    rw [Finset.prod_range]
    refine Finset.prod_congr rfl fun t _ => ?_
    simp [factorAt]
  rw [hall]
  refine Ends.foldPositions (I := fun k (x : α) => value x =
    value initial * ∏ k ∈ Finset.range k, factorAt k) (Nat.zero_le n) ?_ ?_
  · simp
  · intro k x _ hk hx
    refine (hstep ⟨k, hk⟩ x).imp fun y hy => ?_
    rw [hy, hx, Finset.prod_range_succ, mul_assoc]
    simp [factorAt, hk]

end DenseFactor
