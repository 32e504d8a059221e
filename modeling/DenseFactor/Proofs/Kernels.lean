import Mathlib
import DenseFactor.Proofs.Scalar.Checked
import DenseFactor.Proofs.Stored

/-!
# DenseFactor.Proofs.Kernels

The three product loops compute **the same sums**.

Design points:

* Every entry of a product is one of two loops over the summed index: `sumProducts` forms
  all terms, `sumNonzero` leaves out those whose left factor is zero. Entry by entry the
  two agree where every zero on the left faces a regular element, and only the entries are
  compared: which loop nest builds them is left to `tabulate`.
* `KernelsAgree` compares outcomes, so that two products that overflow also count as equal.
* Checked elements can be multiplied in either order. This is what turns a product over when
  it is transposed, and it includes the overflows of the terms.
-/

namespace DenseFactor

open scoped Matrix

namespace DenseMatrix

variable {α : Type} [Scalar α] {r k c : ℕ} {a b : DenseMatrix α}

/-- The sum of the products whose left factor is not zero. -/
def sumNonzero (n : ℕ) (left right : ℕ → Except Failure α) : Except Failure α :=
  foldPositions 0 n Scalar.zero fun sum k => do
    let x ← left k
    if Scalar.isZero x then return sum
    addProduct sum x (← right k)

/-! ### The loops over the entries -/

theorem mul_eq_tabulate (h : a.ncols = b.nrows) : a.mul b =
    tabulate a.nrows b.ncols fun i j => sumNonzero a.ncols (a.entry i) fun t => b.entry t j := by
  unfold DenseMatrix.mul
  rw [if_neg (not_not.2 h)]
  rfl

theorem mulTranspose_eq_tabulate (h : a.ncols = b.ncols) : a.mulTranspose b =
    tabulate a.nrows b.nrows fun i j => sumProducts a.ncols (a.entry i) (b.entry j) := by
  unfold DenseMatrix.mulTranspose
  rw [if_neg (not_not.2 h)]

theorem transposeMul_eq_tabulate (h : a.nrows = b.nrows) : a.transposeMul b =
    tabulate a.ncols b.ncols fun i j =>
      sumProducts a.nrows (fun t => a.entry t i) fun t => b.entry t j := by
  unfold DenseMatrix.transposeMul
  rw [if_neg (not_not.2 h)]

omit [Scalar α] in
/-- A matrix is transposed entry by entry, whatever its entries come from. -/
theorem tabulate_bind_transpose {f : ℕ → ℕ → Except Failure α}
    (hf : ∀ i < r, ∀ j < c, Ends Overflow (fun _ => True) (f i j)) :
    (do (← tabulate r c f).transpose) = tabulate c r fun i j => f j i := by
  cases h : tabulate r c f with
  | ok m =>
      obtain ⟨rfl, rfl, -, hentry⟩ := tabulate_eq_ok_iff.1 h
      exact tabulate_congr fun i hi j hj => (hentry j hj i hi).symm
  | error e =>
      obtain ⟨i, hi, j, hj, he⟩ := exists_error_of_tabulate h
      obtain rfl : e = .overflow := (hf i hi j hj).of_error he
      cases h' : tabulate c r fun i j => f j i with
      | ok m =>
          obtain ⟨hrows, hcols, wf, hentry⟩ := tabulate_eq_ok_iff.1 h'
          obtain ⟨x, hx⟩ := wf.exists_entry (hrows ▸ hj) (hcols ▸ hi)
          cases he.symm.trans ((hentry j hj i hi).trans hx)
      | error e' =>
          obtain ⟨j', hj', i', hi', he'⟩ := exists_error_of_tabulate h'
          obtain rfl : e' = .overflow := (hf i' hi' j' hj').of_error he'
          rfl

end DenseMatrix

open DenseMatrix (addProduct sumProducts sumNonzero)

variable {α : Type} [Scalar α] {r k c : ℕ}

/-! ### One entry -/

section Entry

variable {left right : ℕ → Except Failure α} {x y : Fin k → α}

/-- Every term is formed and added. -/
theorem sumProducts_step (hleft : ∀ t : Fin k, left t = .ok (x t))
    (hright : ∀ t : Fin k, right t = .ok (y t)) (s : α) (t : Fin k) :
    (do addProduct s (← left t) (← right t)) = addProduct s (x t) (y t) := by
  rw [hleft, hright]
  rfl

/-- The sum depends on the factors alone. -/
theorem sumProducts_congr {left' right' : ℕ → Except Failure α}
    (hleft : ∀ t < k, left t = left' t) (hright : ∀ t < k, right t = right' t) :
    sumProducts k left right = sumProducts k left' right' := by
  refine foldlM_congr (fun s t ht => ?_) Scalar.zero
  obtain ⟨-, ht⟩ := mem_positions.1 ht
  rw [hleft t ht, hright t ht]

/-- A term is left out, or formed and added. -/
theorem sumNonzero_step (hleft : ∀ t : Fin k, left t = .ok (x t))
    (hright : ∀ t : Fin k, right t = .ok (y t)) (s : α) (t : Fin k) :
    (do
      let x ← left t
      if Scalar.isZero x then return s
      addProduct s x (← right t)) =
      if Scalar.isZero (x t) = true then .ok s else addProduct s (x t) (y t) := by
  rw [hleft, hright]
  rfl

/-- What faces a zero on the left does not matter. -/
theorem sumNonzero_congr {right' : ℕ → Except Failure α} {y' : Fin k → α}
    (hleft : ∀ t : Fin k, left t = .ok (x t)) (hright : ∀ t : Fin k, right t = .ok (y t))
    (hright' : ∀ t : Fin k, right' t = .ok (y' t))
    (hsame : ∀ t, ¬ Scalar.isZero (x t) = true → y t = y' t) :
    sumNonzero k left right = sumNonzero k left right' := by
  refine foldlM_congr (fun s t ht => ?_) Scalar.zero
  have ht : t < k := (mem_positions.1 ht).2
  refine (sumNonzero_step hleft hright s ⟨t, ht⟩).trans
    (Eq.trans ?_ (sumNonzero_step hleft hright' s ⟨t, ht⟩).symm)
  by_cases hzero : Scalar.isZero (x ⟨t, ht⟩) = true
  · rw [if_pos hzero, if_pos hzero]
  · rw [if_neg hzero, if_neg hzero, hsame _ hzero]

/-- Both loops compute one sum, where every zero on the left faces a regular element. -/
theorem ZeroTermsVanish.sumNonzero_eq {Regular IsSum : α → Prop}
    (h : ZeroTermsVanish α Regular IsSum) (hleft : ∀ t : Fin k, left t = .ok (x t))
    (hright : ∀ t : Fin k, right t = .ok (y t))
    (hregular : ∀ t, Scalar.isZero (x t) = true → Regular (y t)) :
    sumNonzero k left right = sumProducts k left right := by
  have hterm (s : α) (hs : IsSum s) (t : Fin k) : addProduct s (x t) (y t) =
      if Scalar.isZero (x t) = true then .ok s else addProduct s (x t) (y t) := by
    by_cases hzero : Scalar.isZero (x t) = true
    · rw [if_pos hzero, h.skip hs hzero (hregular t hzero)]
    · rw [if_neg hzero]
  refine (foldlM_congr_of (I := IsSum) (fun s t ht hs => ?_) (fun s t ht hs => ?_) h.zero).symm
  · rw [sumProducts_step hleft hright s ⟨t, (mem_positions.1 ht).2⟩]
    exact h.step _ _ hs
  · have hlt := (mem_positions.1 ht).2
    exact (sumProducts_step hleft hright s ⟨t, hlt⟩).trans
      ((hterm s hs ⟨t, hlt⟩).trans (sumNonzero_step hleft hright s ⟨t, hlt⟩).symm)

end Entry

/-! ### Agreement -/

/-- The two products with a transpose are the plain product of the transposed matrix, where
the entries are regular. -/
structure KernelsAgree (α : Type) [Scalar α] (Regular : α → Prop) : Prop where
  mulTranspose {r k c : ℕ} {a b : DenseMatrix α} {A : Matrix (Fin r) (Fin k) α}
    {B : Matrix (Fin c) (Fin k) α} (ha : a.Stores A) (hb : b.Stores B)
    (hA : ∀ i j, Regular (A i j)) (hB : ∀ i j, Regular (B i j)) :
    a.mulTranspose b = do a.mul (← b.transpose)
  transposeMul {r k c : ℕ} {a b : DenseMatrix α} {A : Matrix (Fin k) (Fin r) α}
    {B : Matrix (Fin k) (Fin c) α} (ha : a.Stores A) (hb : b.Stores B)
    (hA : ∀ i j, Regular (A i j)) (hB : ∀ i j, Regular (B i j)) :
    a.transposeMul b = do (← a.transpose).mul b

theorem ZeroTermsVanish.kernelsAgree {Regular IsSum : α → Prop}
    (h : ZeroTermsVanish α Regular IsSum) : KernelsAgree α Regular where
  mulTranspose {r k c a b A B} ha hb _ hB := by
    obtain ⟨b', hb', hstores⟩ := Ends.never_iff.1 hb.transpose
    rw [hb', DenseMatrix.mulTranspose_eq_tabulate (ha.ncols.trans hb.ncols.symm)]
    show _ = a.mul b'
    rw [DenseMatrix.mul_eq_tabulate (ha.ncols.trans hstores.nrows.symm), ha.nrows, ha.ncols,
      hb.nrows, hstores.ncols]
    refine DenseMatrix.tabulate_congr fun i hi j hj => ?_
    rw [h.sumNonzero_eq (ha.entry ⟨i, hi⟩) (fun t => hstores.entry t ⟨j, hj⟩)
      fun t _ => hB ⟨j, hj⟩ t]
    refine sumProducts_congr (fun _ _ => rfl) fun t ht => ?_
    exact (hb.entry ⟨j, hj⟩ ⟨t, ht⟩).trans (hstores.entry ⟨t, ht⟩ ⟨j, hj⟩).symm
  transposeMul {r k c a b A B} ha hb _ hB := by
    obtain ⟨a', ha', hstores⟩ := Ends.never_iff.1 ha.transpose
    rw [ha', DenseMatrix.transposeMul_eq_tabulate (ha.nrows.trans hb.nrows.symm)]
    show _ = a'.mul b
    rw [DenseMatrix.mul_eq_tabulate (hstores.ncols.trans hb.nrows.symm), ha.nrows, ha.ncols,
      hb.ncols, hstores.nrows, hstores.ncols]
    refine DenseMatrix.tabulate_congr fun i hi j hj => ?_
    rw [h.sumNonzero_eq (hstores.entry ⟨i, hi⟩) (fun t => hb.entry t ⟨j, hj⟩)
      fun t _ => hB t ⟨j, hj⟩]
    refine sumProducts_congr (fun t ht => ?_) fun _ _ => rfl
    exact (ha.entry ⟨t, ht⟩ ⟨i, hi⟩).trans (hstores.entry ⟨i, hi⟩ ⟨t, ht⟩).symm

/-! ### Exact products -/

/-- The three products are exact unless they overflow, and a transposed product is the
product of the transposed factors. -/
structure ProductsExact (α : Type) [Scalar α] {K : Type} [CommRing K] (value : α → K)
    (Regular : α → Prop) : Prop where
  mul {r k c : ℕ} {a b : DenseMatrix α} {A : Matrix (Fin r) (Fin k) α}
    {B : Matrix (Fin k) (Fin c) α} (ha : a.Stores A) (hb : b.Stores B) :
    Ends Overflow (fun q => ∃ Q : Matrix (Fin r) (Fin c) α, q.Stores Q ∧
      ∀ i j, value (Q i j) = ∑ t, value (A i t) * value (B t j)) (a.mul b)
  mulTranspose {r k c : ℕ} {a b : DenseMatrix α} {A : Matrix (Fin r) (Fin k) α}
    {B : Matrix (Fin c) (Fin k) α} (ha : a.Stores A) (hb : b.Stores B) :
    Ends Overflow (fun q => ∃ Q : Matrix (Fin r) (Fin c) α, q.Stores Q ∧
      ∀ i j, value (Q i j) = ∑ t, value (A i t) * value (B j t)) (a.mulTranspose b)
  transposeMul {r k c : ℕ} {a b : DenseMatrix α} {A : Matrix (Fin k) (Fin r) α}
    {B : Matrix (Fin k) (Fin c) α} (ha : a.Stores A) (hb : b.Stores B) :
    Ends Overflow (fun q => ∃ Q : Matrix (Fin r) (Fin c) α, q.Stores Q ∧
      ∀ i j, value (Q i j) = ∑ t, value (A t i) * value (B t j)) (a.transposeMul b)
  transpose_mul {r k c : ℕ} {a b : DenseMatrix α} {A : Matrix (Fin r) (Fin k) α}
    {B : Matrix (Fin k) (Fin c) α} (ha : a.Stores A) (hb : b.Stores B)
    (hA : ∀ i j, Regular (A i j)) (hB : ∀ i j, Regular (B i j)) :
    (do (← a.mul b).transpose) = do (← b.transpose).mul (← a.transpose)

namespace ExactOrOverflow

variable {K : Type} [CommRing K] {value : α → K} {left right : ℕ → Except Failure α}
  {x y : Fin k → α}

theorem ends_addProduct (h : ExactOrOverflow α value) (s x y : α) :
    Ends Overflow (fun z => value z = value s + value x * value y) (addProduct s x y) := by
  refine (h.ends_mul x y).bind fun p hp => (h.ends_add s p).imp fun z hz => ?_
  rw [hz, hp]

theorem addProduct_comm (h : ExactOrOverflow α value) (s x y : α) :
    addProduct s x y = addProduct s y x := by
  rw [addProduct, h.mul_comm, addProduct]

/-- A loop that adds a term at every position adds these terms up. -/
theorem ends_sum (h : ExactOrOverflow α value) {step : α → ℕ → Except Failure α} (term : Fin k → K)
    (hstep : ∀ (t : Fin k) (s : α),
      Ends Overflow (fun z => value z = value s + term t) (step s t)) :
    Ends Overflow (fun z => value z = ∑ t, term t) (foldPositions 0 k Scalar.zero step) := by
  refine (Ends.foldPositions (I := fun n s => value s =
    ∑ t : Fin k, if (t : ℕ) < n then term t else 0) (Nat.zero_le k) ?_ ?_).imp ?_
  · simp [h.value_zero]
  · intro n s _ hn hs
    refine (hstep ⟨n, hn⟩ s).imp fun z hz => ?_
    rw [hz, hs]
    exact (sum_lt_succ term ⟨n, hn⟩).symm
  · intro z hz
    simpa using hz

theorem ends_sumProducts (h : ExactOrOverflow α value) (hleft : ∀ t : Fin k, left t = .ok (x t))
    (hright : ∀ t : Fin k, right t = .ok (y t)) :
    Ends Overflow (fun z => value z = ∑ t, value (x t) * value (y t))
      (sumProducts k left right) := by
  refine h.ends_sum _ fun t s => ?_
  rw [sumProducts_step hleft hright]
  exact h.ends_addProduct s (x t) (y t)

theorem ends_sumNonzero (h : ExactOrOverflow α value) (hleft : ∀ t : Fin k, left t = .ok (x t))
    (hright : ∀ t : Fin k, right t = .ok (y t)) :
    Ends Overflow (fun z => value z = ∑ t, value (x t) * value (y t))
      (sumNonzero k left right) := by
  refine h.ends_sum _ fun t s => ?_
  rw [sumNonzero_step hleft hright]
  by_cases hzero : Scalar.isZero (x t) = true
  · rw [if_pos hzero]
    simp [(h.isZero_iff _).1 hzero]
  · rw [if_neg hzero]
    exact h.ends_addProduct s (x t) (y t)

/-- The factors of all terms exchanged. -/
theorem sumProducts_comm (h : ExactOrOverflow α value) (hleft : ∀ t : Fin k, left t = .ok (x t))
    (hright : ∀ t : Fin k, right t = .ok (y t)) :
    sumProducts k left right = sumProducts k right left := by
  refine foldlM_congr (fun s t ht => ?_) Scalar.zero
  have ht : t < k := (mem_positions.1 ht).2
  exact (sumProducts_step hleft hright s ⟨t, ht⟩).trans
    ((h.addProduct_comm s _ _).trans (sumProducts_step hright hleft s ⟨t, ht⟩).symm)

theorem productsExact (h : ExactOrOverflow α value) {Regular IsSum : α → Prop}
    (hvanish : ZeroTermsVanish α Regular IsSum) : ProductsExact α value Regular where
  mul {r k c a b A B} ha hb := by
    rw [DenseMatrix.mul_eq_tabulate (ha.ncols.trans hb.nrows.symm), ha.nrows, ha.ncols, hb.ncols]
    exact Ends.tabulate (P := fun i j q => value q = ∑ t, value (A i t) * value (B t j))
      fun i j => h.ends_sumNonzero (ha.entry i) fun t => hb.entry t j
  mulTranspose {r k c a b A B} ha hb := by
    rw [DenseMatrix.mulTranspose_eq_tabulate (ha.ncols.trans hb.ncols.symm), ha.nrows, ha.ncols,
      hb.nrows]
    exact Ends.tabulate (P := fun i j q => value q = ∑ t, value (A i t) * value (B j t))
      fun i j => h.ends_sumProducts (ha.entry i) (hb.entry j)
  transposeMul {r k c a b A B} ha hb := by
    rw [DenseMatrix.transposeMul_eq_tabulate (ha.nrows.trans hb.nrows.symm), ha.nrows, ha.ncols,
      hb.ncols]
    exact Ends.tabulate (P := fun i j q => value q = ∑ t, value (A t i) * value (B t j))
      fun i j => h.ends_sumProducts (fun t => ha.entry t i) fun t => hb.entry t j
  transpose_mul {r k c a b A B} ha hb hA hB := by
    obtain ⟨a', ha', hstoresA⟩ := Ends.never_iff.1 ha.transpose
    obtain ⟨b', hb', hstoresB⟩ := Ends.never_iff.1 hb.transpose
    rw [ha', hb', DenseMatrix.mul_eq_tabulate (ha.ncols.trans hb.nrows.symm),
      ha.nrows, ha.ncols, hb.ncols]
    rw [DenseMatrix.tabulate_bind_transpose fun i hi j hj =>
      (h.ends_sumNonzero (ha.entry ⟨i, hi⟩) fun t => hb.entry t ⟨j, hj⟩).imp fun _ _ => trivial]
    show _ = b'.mul a'
    rw [DenseMatrix.mul_eq_tabulate (hstoresB.ncols.trans hstoresA.nrows.symm), hstoresB.nrows,
      hstoresB.ncols, hstoresA.ncols]
    refine DenseMatrix.tabulate_congr fun j hj i hi => ?_
    rw [hvanish.sumNonzero_eq (ha.entry ⟨i, hi⟩) (fun t => hb.entry t ⟨j, hj⟩)
        fun t _ => hB t ⟨j, hj⟩,
      hvanish.sumNonzero_eq (hstoresB.entry ⟨j, hj⟩) (fun t => hstoresA.entry t ⟨i, hi⟩)
        fun t _ => hA ⟨i, hi⟩ t,
      h.sumProducts_comm (ha.entry ⟨i, hi⟩) fun t => hb.entry t ⟨j, hj⟩]
    refine sumProducts_congr (fun t ht => ?_) fun t ht => ?_
    · exact (hb.entry ⟨t, ht⟩ ⟨j, hj⟩).trans (hstoresB.entry ⟨j, hj⟩ ⟨t, ht⟩).symm
    · exact (ha.entry ⟨i, hi⟩ ⟨t, ht⟩).trans (hstoresA.entry ⟨t, ht⟩ ⟨i, hi⟩).symm

end ExactOrOverflow

/-! ### The element types -/

/-- **The products agree.** For finite rounded numbers, real or complex, and for integers and
ratios of bounded width, both products with a transpose are the plain product of the transposed
matrix, bit for bit or with the same overflow. Integers and ratios that do not overflow are
multiplied exactly, and their product is turned over by exchanging the transposed factors. A
ratio is stored with a denominator of the width, which is all that is asked of it. -/
theorem products_agree (ρ : Type) [RealScalar ρ] [BinaryScalar ρ] [UniqueNaN ρ] {bits : ℕ}
    (hbits : 2 ≤ bits) :
    (KernelsAgree ρ (RealScalar.isFinite · = true) ∧
      KernelsAgree (Cartesian ρ) fun z =>
        RealScalar.isFinite z.re = true ∧ RealScalar.isFinite z.im = true) ∧
    (KernelsAgree (BoundedInt bits) (fun _ => True) ∧
      ProductsExact (BoundedInt bits) BoundedInt.value fun _ => True) ∧
    KernelsAgree (Ratio bits) (fits bits ·.value.den = true) ∧
      ProductsExact (Ratio bits) Ratio.value (fits bits ·.value.den = true) := by
  refine ⟨⟨?_, ?_⟩, ⟨?_, ?_⟩, ?_, ?_⟩
  · exact BinaryScalar.zeroTermsVanish.kernelsAgree
  · exact Cartesian.zeroTermsVanish.kernelsAgree
  · exact BoundedInt.zeroTermsVanish.kernelsAgree
  · exact BoundedInt.exactOrOverflow.productsExact BoundedInt.zeroTermsVanish
  · exact (Ratio.zeroTermsVanish hbits).kernelsAgree
  · exact Ratio.exactOrOverflow.productsExact (Ratio.zeroTermsVanish hbits)

/-- Zeros of both signs on the left, and a product that overflows. -/
theorem products_agree_zeros_and_overflow :
    let a : DenseMatrix Float := ⟨1, 3, #[0, -0, 1]⟩
    let b : DenseMatrix Float := ⟨1, 3, #[-1, 1, -0]⟩
    let large : DenseMatrix (BoundedInt 64) := ⟨1, 1, #[⟨2 ^ 62⟩]⟩
    let two : DenseMatrix (BoundedInt 64) := ⟨1, 1, #[⟨2⟩]⟩
    a.mulTranspose b = (do a.mul (← b.transpose)) ∧
      large.transposeMul two = (do (← large.transpose).mul two) ∧
      (do (← large.mul two).transpose) = (do (← two.transpose).mul (← large.transpose)) := by
  intro a b large two
  obtain ⟨⟨hfloat, -⟩, ⟨hinteger, hexact⟩, -⟩ := products_agree Float (by decide : 2 ≤ 64)
  have ha : a.Stores !![0, -0, 1] :=
    ⟨rfl, rfl, rfl, fun i j => by fin_cases i; fin_cases j <;> rfl⟩
  have hb : b.Stores !![-1, 1, -0] :=
    ⟨rfl, rfl, rfl, fun i j => by fin_cases i; fin_cases j <;> rfl⟩
  have hlarge : large.Stores (Matrix.of fun (_ _ : Fin 1) => ⟨2 ^ 62⟩) :=
    ⟨rfl, rfl, rfl, fun i j => by fin_cases i; fin_cases j; rfl⟩
  have htwo : two.Stores (Matrix.of fun (_ _ : Fin 1) => ⟨2⟩) :=
    ⟨rfl, rfl, rfl, fun i j => by fin_cases i; fin_cases j; rfl⟩
  exact ⟨hfloat.mulTranspose ha hb (by decide +kernel) (by decide +kernel),
    hinteger.transposeMul hlarge htwo (fun _ _ => trivial) fun _ _ => trivial,
    hexact.transpose_mul hlarge htwo (fun _ _ => trivial) fun _ _ => trivial⟩

end DenseFactor
