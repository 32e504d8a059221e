import Mathlib
import DenseFactor.SVD.Basic
import DenseFactor.Proofs.Kernels

/-!
# DenseFactor.Proofs.ProductVector

A matrix times a vector, beside the matrix times **the column of this vector**.

Design points:

* The product with a vector forms every term. The product with the column leaves out the
  terms whose left factor is zero, so the two differ where a zero faces a NaN or an infinity:
  the first has a NaN there, and the second does not see the element at all.
* `RowsCompare` says this row by row, because a row without such a pair is the same in both
  products whatever the others hold. With such a pair a row is the same only by chance, if
  the terms that are left make a NaN as well. Integers and ratios have no such pairs, and
  there the two products are one, overflows included.
* The solver of a singular value decomposition multiplies by the pseudo-inverse as a matrix,
  so it stands on the side of the column.
-/

namespace DenseFactor

open DenseMatrix (addProduct sumProducts sumNonzero)

variable {r k : ℕ}

/-! ### Vectors as columns -/

section Column

variable {α : Type} {v : ColumnVector α} {X : Matrix (Fin k) (Fin 1) α}

theorem DenseMatrix.Stores.length (h : v.column.Stores X) : v.length = k := h.nrows

theorem DenseMatrix.Stores.vectorEntry (h : v.column.Stores X) (t : Fin k) :
    v.entry t = .ok (X t 0) := by
  have hread := h.storedAt t 0
  rwa [DenseMatrix.storedAt, h.ncols, Fin.val_zero, mul_one, add_zero] at hread

/-- A run of elements is a column, entry by entry. -/
theorem column_ofArray (n : ℕ) (f : ℕ → Except Failure α) :
    (ColumnVector.column <$> ColumnVector.ofArray <$> Storage.collect n f) =
      DenseMatrix.tabulate n 1 fun i _ => f i := by
  have helement : (fun i => f (i / 1)) = f := funext fun i => by rw [Nat.div_one]
  unfold DenseMatrix.tabulate
  rw [mul_one, helement]
  cases h : Storage.collect n f with
  | error e => rfl
  | ok data =>
      obtain ⟨rfl, -⟩ := Storage.collect_eq_ok_iff.1 h
      rfl

variable [Scalar α] {a : DenseMatrix α} {A : Matrix (Fin r) (Fin k) α}

/-- The product with a vector, as a column. -/
theorem column_mulVector (ha : a.Stores A) (hv : v.column.Stores X) :
    ColumnVector.column <$> a.mulVector v =
      DenseMatrix.tabulate r 1 fun i _ => sumProducts k (a.entry i) v.entry := by
  unfold DenseMatrix.mulVector
  rw [if_neg (not_not.2 (ha.ncols.trans hv.length.symm)), ha.nrows, ha.ncols]
  exact column_ofArray r fun i => sumProducts k (a.entry i) v.entry

/-- The product with the column of a vector. -/
theorem mul_column (ha : a.Stores A) (hv : v.column.Stores X) :
    a.mul v.column =
      DenseMatrix.tabulate r 1 fun i _ => sumNonzero k (a.entry i) v.entry := by
  rw [DenseMatrix.mul_eq_tabulate (ha.ncols.trans hv.nrows.symm), ha.nrows, ha.ncols, hv.ncols]
  refine DenseMatrix.tabulate_congr fun i hi j hj => ?_
  obtain rfl : j = 0 := Nat.lt_one_iff.1 hj
  exact sumNonzero_congr (ha.entry ⟨i, hi⟩) (fun t => hv.entry t 0) hv.vectorEntry fun _ _ => rfl

end Column

/-! ### Where no zero faces an irregular element -/

/-- The product with a vector is the product with its column, where every zero on the left
faces a regular element. -/
def VectorsAgree (α : Type) [Scalar α] (Regular : α → Prop) : Prop :=
  ∀ {r k : ℕ} {a : DenseMatrix α} {v : ColumnVector α} {A : Matrix (Fin r) (Fin k) α}
    {X : Matrix (Fin k) (Fin 1) α}, a.Stores A → v.column.Stores X →
    (∀ i t, Scalar.isZero (A i t) = true → Regular (X t 0)) →
    ColumnVector.column <$> a.mulVector v = a.mul v.column

theorem ZeroTermsVanish.vectorsAgree {α : Type} [Scalar α] {Regular IsSum : α → Prop}
    (h : ZeroTermsVanish α Regular IsSum) : VectorsAgree α Regular := by
  intro r k a v A X ha hv hregular
  rw [column_mulVector ha hv, mul_column ha hv]
  refine DenseMatrix.tabulate_congr fun i hi j _ => ?_
  exact (h.sumNonzero_eq (ha.entry ⟨i, hi⟩) hv.vectorEntry (hregular ⟨i, hi⟩)).symm

/-! ### Row by row -/

/-- How irregular elements spread in total arithmetic: a zero times one is spoiled, and so is
every sum with a spoiled term. Spoiled elements are all the same. -/
structure IrregularSpreads (α : Type) [Arithmetic α] (Regular Spoiled : α → Prop) : Prop where
  mul {x y : α} (hx : Scalar.isZero x = true) (hy : ¬ Regular y) : Spoiled (x * y)
  add_left {x : α} (y : α) (hx : Spoiled x) : Spoiled (x + y)
  add_right (x : α) {y : α} (hy : Spoiled y) : Spoiled (x + y)
  unique {x y : α} (hx : Spoiled x) (hy : Spoiled y) : x = y

/-- The entries `Y` of `A` times a vector beside the entries `Q` of `A` times its column `X`.
A row is the same where no zero of it faces an irregular element. Otherwise its entry in `Y`
is spoiled, and that in `Q` is what any vector gives that differs from `X` in such places
only, and is regular there. So a row is the same in no other case than that, or if both its
entries are spoiled. -/
structure RowsCompare {α : Type} [Scalar α] (Regular Spoiled : α → Prop)
    (A : Matrix (Fin r) (Fin k) α) (X : Matrix (Fin k) (Fin 1) α) (Y Q : Matrix (Fin r) (Fin 1) α) :
    Prop where
  eq_iff (i : Fin r) : Y i 0 = Q i 0 ↔
    (∀ t, Scalar.isZero (A i t) = true → Regular (X t 0)) ∨ Spoiled (Q i 0)
  spoiled (i : Fin r) (t : Fin k) (hzero : Scalar.isZero (A i t) = true)
    (hirregular : ¬ Regular (X t 0)) : Spoiled (Y i 0)
  leftOut (i : Fin r) {a : DenseMatrix α} {w : ColumnVector α} {W : Matrix (Fin k) (Fin 1) α}
    (ha : a.Stores A) (hw : w.column.Stores W)
    (hsame : ∀ t, ¬ Scalar.isZero (A i t) = true → W t 0 = X t 0)
    (hregular : ∀ t, Scalar.isZero (A i t) = true → Regular (W t 0)) :
    Ends Never (fun y => y.entry i = .ok (Q i 0)) (a.mulVector w)

section Rows

variable {α : Type} [Arithmetic α] {Regular IsSum Spoiled : α → Prop} {a : DenseMatrix α}
  {v : ColumnVector α} {A : Matrix (Fin r) (Fin k) α} {X : Matrix (Fin k) (Fin 1) α}
  {left right : ℕ → Except Failure α} {x y : Fin k → α}

/-- In total arithmetic every sum of products has a value. -/
theorem ends_sumProducts_total (hleft : ∀ t : Fin k, left t = .ok (x t))
    (hright : ∀ t : Fin k, right t = .ok (y t)) :
    Ends Never (fun s => sumProducts k left right = .ok s) (sumProducts k left right) := by
  refine ((Ends.foldPositions (I := fun _ _ => True) (Nat.zero_le k) trivial
    fun t s _ ht _ => ?_).self).imp fun s hs => hs.1
  rw [sumProducts_step hleft hright s ⟨t, ht⟩]
  trivial

theorem ends_sumNonzero_total (hleft : ∀ t : Fin k, left t = .ok (x t))
    (hright : ∀ t : Fin k, right t = .ok (y t)) :
    Ends Never (fun s => sumNonzero k left right = .ok s) (sumNonzero k left right) := by
  refine ((Ends.foldPositions (I := fun _ _ => True) (Nat.zero_le k) trivial
    fun t s _ ht _ => ?_).self).imp fun s hs => hs.1
  rw [sumNonzero_step hleft hright s ⟨t, ht⟩]
  split_ifs <;> trivial

/-- One irregular element that a zero faces spoils the sum of all terms. -/
theorem IrregularSpreads.sumProducts (h : IrregularSpreads α Regular Spoiled)
    (hleft : ∀ t : Fin k, left t = .ok (x t)) (hright : ∀ t : Fin k, right t = .ok (y t))
    {t : Fin k} (hzero : Scalar.isZero (x t) = true) (hirregular : ¬ Regular (y t)) :
    Ends Never Spoiled (sumProducts k left right) := by
  refine (Ends.foldPositions (I := fun n s => (t : ℕ) < n → Spoiled s) (Nat.zero_le k) nofun
    fun n s _ hn hs => ?_).imp fun s hs => hs t.isLt
  rw [sumProducts_step hleft hright s ⟨n, hn⟩]
  intro hlt
  rcases Nat.lt_succ_iff_lt_or_eq.1 hlt with hbefore | heq
  · exact h.add_left _ (hs hbefore)
  · obtain rfl : t = ⟨n, hn⟩ := Fin.ext heq
    exact h.add_right s (h.mul hzero hirregular)

/-- The entries of the product with a vector are the sums of all terms. -/
theorem ends_mulVector (ha : a.Stores A) (hv : v.column.Stores X) :
    Ends Never (fun y => ∃ Y : Matrix (Fin r) (Fin 1) α, y.column.Stores Y ∧
      ∀ i : Fin r, sumProducts k (a.entry i) v.entry = .ok (Y i 0)) (a.mulVector v) := by
  have hcolumn : Ends Never (fun q => ∃ Y : Matrix (Fin r) (Fin 1) α, q.Stores Y ∧
      ∀ i : Fin r, sumProducts k (a.entry i) v.entry = .ok (Y i 0))
      (ColumnVector.column <$> a.mulVector v) := by
    rw [column_mulVector ha hv]
    refine (Ends.tabulate (P := fun i _ s => sumProducts k (a.entry i) v.entry = .ok s)
      fun i _ => ends_sumProducts_total (ha.entry i) hv.vectorEntry).imp ?_
    rintro q ⟨Y, hY, hentries⟩
    exact ⟨Y, hY, fun i => hentries i 0⟩
  have hvector := Ends.map_iff.1 hcolumn
  exact hvector

/-- The entries of the product with its column are the sums without the zeros of the left. -/
theorem ends_mul_column (ha : a.Stores A) (hv : v.column.Stores X) :
    Ends Never (fun q => ∃ Q : Matrix (Fin r) (Fin 1) α, q.Stores Q ∧
      ∀ i : Fin r, sumNonzero k (a.entry i) v.entry = .ok (Q i 0)) (a.mul v.column) := by
  rw [mul_column ha hv]
  refine (Ends.tabulate (P := fun i _ s => sumNonzero k (a.entry i) v.entry = .ok s)
    fun i _ => ends_sumNonzero_total (ha.entry i) hv.vectorEntry).imp ?_
  rintro q ⟨Q, hQ, hentries⟩
  exact ⟨Q, hQ, fun i => hentries i 0⟩

theorem rowsCompare_of_sums (hvanish : ZeroTermsVanish α Regular IsSum)
    (hspreads : IrregularSpreads α Regular Spoiled) (ha : a.Stores A) (hv : v.column.Stores X)
    {Y Q : Matrix (Fin r) (Fin 1) α}
    (hY : ∀ i : Fin r, sumProducts k (a.entry i) v.entry = .ok (Y i 0))
    (hQ : ∀ i : Fin r, sumNonzero k (a.entry i) v.entry = .ok (Q i 0)) :
    RowsCompare Regular Spoiled A X Y Q := by
  have heq (i : Fin r) (hregular : ∀ t, Scalar.isZero (A i t) = true → Regular (X t 0)) :
      Y i 0 = Q i 0 := by
    have hsum := hvanish.sumNonzero_eq (ha.entry i) hv.vectorEntry hregular
    rw [hY i, hQ i] at hsum
    exact (Except.ok.inj hsum).symm
  have hspoiled (i : Fin r) (t : Fin k) (hzero : Scalar.isZero (A i t) = true)
      (hirregular : ¬ Regular (X t 0)) : Spoiled (Y i 0) :=
    (hspreads.sumProducts (ha.entry i) hv.vectorEntry hzero hirregular).of_ok (hY i)
  refine ⟨fun i => ?_, hspoiled, fun i a' w W ha' hw hsame hregular => ?_⟩
  · by_cases hregular : ∀ t, Scalar.isZero (A i t) = true → Regular (X t 0)
    · exact iff_of_true (heq i hregular) (.inl hregular)
    · -- the entry of `Y` is spoiled, and no other element is equal to it
      obtain ⟨t, ht⟩ := not_forall.1 hregular
      obtain ⟨hzero, hirregular⟩ := Classical.not_imp.1 ht
      have hY' := hspoiled i t hzero hirregular
      rw [or_iff_right hregular]
      exact ⟨fun h => h ▸ hY', fun hQ' => hspreads.unique hY' hQ'⟩
  · refine (ends_mulVector ha' hw).imp ?_
    rintro y ⟨Y', hY', hentries⟩
    rw [hY'.vectorEntry i, ← hentries i, ← hQ i]
    calc
      sumProducts k (a'.entry i) w.entry = sumProducts k (a.entry i) w.entry :=
        sumProducts_congr
          (fun t ht => (ha'.entry i ⟨t, ht⟩).trans (ha.entry i ⟨t, ht⟩).symm) fun _ _ => rfl
      _ = sumNonzero k (a.entry i) w.entry :=
        (hvanish.sumNonzero_eq (ha.entry i) hw.vectorEntry hregular).symm
      _ = sumNonzero k (a.entry i) v.entry :=
        sumNonzero_congr (ha.entry i) hw.vectorEntry hv.vectorEntry hsame

end Rows

/-- A matrix times a vector and a matrix times its column have results that compare row by
row. -/
def VectorsCompare (α : Type) [Scalar α] (Regular Spoiled : α → Prop) : Prop :=
  ∀ {r k : ℕ} {a : DenseMatrix α} {v : ColumnVector α} {A : Matrix (Fin r) (Fin k) α}
    {X : Matrix (Fin k) (Fin 1) α}, a.Stores A → v.column.Stores X →
    ∃ (y : ColumnVector α) (q : DenseMatrix α) (Y Q : Matrix (Fin r) (Fin 1) α),
      (a.mulVector v = .ok y ∧ y.column.Stores Y) ∧ (a.mul v.column = .ok q ∧ q.Stores Q) ∧
        RowsCompare Regular Spoiled A X Y Q

theorem ZeroTermsVanish.vectorsCompare {α : Type} [Arithmetic α]
    {Regular IsSum Spoiled : α → Prop} (hvanish : ZeroTermsVanish α Regular IsSum)
    (hspreads : IrregularSpreads α Regular Spoiled) : VectorsCompare α Regular Spoiled := by
  intro r k a v A X ha hv
  obtain ⟨y, hy, Y, hY, hfull⟩ := Ends.never_iff.1 (ends_mulVector ha hv)
  obtain ⟨q, hq, Q, hQ, hreduced⟩ := Ends.never_iff.1 (ends_mul_column ha hv)
  exact ⟨y, q, Y, Q, ⟨hy, hY⟩, ⟨hq, hQ⟩, rowsCompare_of_sums hvanish hspreads ha hv hfull hreduced⟩

/-! ### The element types -/

namespace BinaryScalar

variable {ρ : Type} [RealScalar ρ] [BinaryScalar ρ] [UniqueNaN ρ]

theorem irregularSpreads :
    IrregularSpreads ρ (RealScalar.isFinite · = true) (RealScalar.isNaN · = true) where
  mul := isNaN_mul
  add_left _ hx := isNaN_of_operand isNaN_of_add (.inl hx)
  add_right _ _ hy := isNaN_of_operand isNaN_of_add (.inr hy)
  unique := eq_of_isNaN

end BinaryScalar

namespace Cartesian

open BinaryScalar

variable {ρ : Type} [RealScalar ρ] [BinaryScalar ρ] [UniqueNaN ρ]

/-- A zero times a number that is not finite has two parts that are NaNs: either part of the
second factor enters both. -/
theorem irregularSpreads : IrregularSpreads (Cartesian ρ) IsFinite
    fun z => RealScalar.isNaN z.re = true ∧ RealScalar.isNaN z.im = true where
  mul {x y} hx hy := by
    obtain ⟨hre, him⟩ := isZero_iff.1 hx
    rcases not_and_or.1 hy with hy | hy
    · exact ⟨isNaN_of_operand isNaN_of_sub (.inl (isNaN_mul hre hy)),
        isNaN_of_operand isNaN_of_add (.inr (isNaN_mul him hy))⟩
    · exact ⟨isNaN_of_operand isNaN_of_sub (.inr (isNaN_mul him hy)),
        isNaN_of_operand isNaN_of_add (.inl (isNaN_mul hre hy))⟩
  add_left _ hx := ⟨BinaryScalar.irregularSpreads.add_left _ hx.1,
    BinaryScalar.irregularSpreads.add_left _ hx.2⟩
  add_right _ _ hy := ⟨BinaryScalar.irregularSpreads.add_right _ hy.1,
    BinaryScalar.irregularSpreads.add_right _ hy.2⟩
  unique {x y} hx hy := by
    obtain ⟨re, im⟩ := x
    obtain ⟨re', im'⟩ := y
    obtain rfl : re = re' := eq_of_isNaN hx.1 hy.1
    obtain rfl : im = im' := eq_of_isNaN hx.2 hy.2
    rfl

end Cartesian

/-! ### The solver -/

/-- A single column is a vector again. -/
theorem column_ofColumn {α : Type} {m : DenseMatrix α} (wf : m.WellFormed) (hm : m.ncols = 1) :
    ColumnVector.column <$> ColumnVector.ofColumn m.view 0 = .ok m := by
  have hcopy := wf.ofView_view
  rw [DenseMatrix.ofView] at hcopy
  rw [← hcopy]
  refine (column_ofArray m.view.nrows fun i => m.view.entry i 0).trans ?_
  have hone : m.view.ncols = 1 := hm
  rw [hone]
  refine DenseMatrix.tabulate_congr fun i _ j hj => ?_
  rw [Nat.lt_one_iff.1 hj]

/-- The answer of the solver is the pseudo-inverse times the column. -/
theorem SVD.Solver.column_solve {ρ : Type} [RealScalar ρ] {s : SVD.Solver ρ} {b : ColumnVector ρ}
    {P : Matrix (Fin r) (Fin k) ρ} {B : Matrix (Fin k) (Fin 1) ρ}
    (hP : s.pseudoInverse.Stores P) (hb : b.column.Stores B) :
    ColumnVector.column <$> LinearSolver.solve s b = s.pseudoInverse.mul b.column := by
  have hview : b.view = b.column.view := by
    rw [ColumnVector.view, DenseMatrix.view, hb.ncols]
    rfl
  have hsolve : LinearSolver.solveMatrix s b.view = s.pseudoInverse.mul b.column := by
    show SVD.Solver.solveMatrix s b.view = _
    unfold SVD.Solver.solveMatrix checkRows
    have hrows : b.column.view.nrows = s.pseudoInverse.ncols := hb.nrows.trans hP.ncols.symm
    rw [hview, if_pos hrows, hb.wellFormed.ofView_view]
    rfl
  have hcolumn : Ends Always (fun q : DenseMatrix ρ => q.WellFormed ∧ q.ncols = 1)
      (s.pseudoInverse.mul b.column) := by
    rw [mul_column hP hb]
    refine Ends.always.self.imp fun q hq => ?_
    obtain ⟨-, hcols, wf, -⟩ := DenseMatrix.tabulate_eq_ok_iff.1 hq.1
    exact ⟨wf, hcols⟩
  unfold LinearSolver.solve
  rw [hsolve, map_bind]
  refine (hcolumn.bind_congr fun q hq => ?_).trans (bind_pure _)
  exact column_ofColumn hq.1 hq.2

/-- The solver of a singular value decomposition and the product of its pseudo-inverse with the
vector compare row by row. -/
theorem SVD.Solver.solve_compares {ρ : Type} [RealScalar ρ] {Regular Spoiled : ρ → Prop}
    (h : VectorsCompare ρ Regular Spoiled) {s : SVD.Solver ρ} {b : ColumnVector ρ}
    {P : Matrix (Fin r) (Fin k) ρ} {B : Matrix (Fin k) (Fin 1) ρ}
    (hP : s.pseudoInverse.Stores P) (hb : b.column.Stores B) :
    ∃ (y x : ColumnVector ρ) (Y X : Matrix (Fin r) (Fin 1) ρ),
      (s.pseudoInverse.mulVector b = .ok y ∧ y.column.Stores Y) ∧
      (LinearSolver.solve s b = .ok x ∧ x.column.Stores X) ∧
        RowsCompare Regular Spoiled P B Y X := by
  obtain ⟨y, q, Y, Q, hy, ⟨hq, hQ⟩, hrows⟩ := h hP hb
  have hsolve := SVD.Solver.column_solve hP hb
  rw [hq] at hsolve
  cases hx : LinearSolver.solve s b with
  | error e => rw [hx] at hsolve; cases hsolve
  | ok x =>
      rw [hx] at hsolve
      obtain rfl : x.column = q := Except.ok.inj hsolve
      exact ⟨y, x, Y, Q, hy, ⟨rfl, hQ⟩, hrows⟩

/-! ### The element types -/

/-- **A matrix times a vector beside the matrix times its column.** Integers and ratios of
bounded width have one product for both, or one overflow. So have rounded numbers in every row
in which no zero of the matrix faces a number of the vector that is not finite. In any other row
the product with the vector is a NaN, in both parts if it is complex, and the product with the
column leaves these terms out, so that the two agree only if what is left is such a NaN too. The
solver of a singular value decomposition is on the side of the column, beside the product of its
pseudo-inverse with the vector. -/
theorem mulVector_compares (ρ : Type) [RealScalar ρ] [BinaryScalar ρ] [UniqueNaN ρ] {bits : ℕ}
    (hbits : 2 ≤ bits) :
    (VectorsCompare ρ (RealScalar.isFinite · = true) (RealScalar.isNaN · = true) ∧
      VectorsCompare (Cartesian ρ)
        (fun z => RealScalar.isFinite z.re = true ∧ RealScalar.isFinite z.im = true)
        fun z => RealScalar.isNaN z.re = true ∧ RealScalar.isNaN z.im = true) ∧
    (VectorsAgree (BoundedInt bits) (fun _ => True) ∧
      VectorsAgree (Ratio bits) (fits bits ·.value.den = true)) ∧
    ∀ {r k : ℕ} {s : SVD.Solver ρ} {b : ColumnVector ρ} {P : Matrix (Fin r) (Fin k) ρ}
      {B : Matrix (Fin k) (Fin 1) ρ}, s.pseudoInverse.Stores P → b.column.Stores B →
      ∃ (y x : ColumnVector ρ) (Y X : Matrix (Fin r) (Fin 1) ρ),
        (s.pseudoInverse.mulVector b = .ok y ∧ y.column.Stores Y) ∧
        (LinearSolver.solve s b = .ok x ∧ x.column.Stores X) ∧
          RowsCompare (RealScalar.isFinite · = true) (RealScalar.isNaN · = true) P B Y X := by
  have hreal : VectorsCompare ρ (RealScalar.isFinite · = true) (RealScalar.isNaN · = true) :=
    BinaryScalar.zeroTermsVanish.vectorsCompare BinaryScalar.irregularSpreads
  refine ⟨⟨hreal, ?_⟩, ⟨?_, ?_⟩, fun hP hb => SVD.Solver.solve_compares hreal hP hb⟩
  · exact Cartesian.zeroTermsVanish.vectorsCompare Cartesian.irregularSpreads
  · exact BoundedInt.zeroTermsVanish.vectorsAgree
  · exact (Ratio.zeroTermsVanish hbits).vectorsAgree

/-- A row in which a zero faces an infinity, one in which a number does, and one in which a zero
does beside a NaN. -/
theorem mulVector_compares_infinity :
    let a : DenseMatrix Float := ⟨3, 2, #[0, 1, 2, 1, 0, 0 / 0]⟩
    let v : ColumnVector Float := .ofArray #[1 / 0, 1]
    let s : SVD.Solver Float := ⟨a, true⟩
    ∃ (y x : ColumnVector Float) (Y X : Matrix (Fin 3) (Fin 1) Float),
      (a.mulVector v = .ok y ∧ y.column.Stores Y) ∧
        (LinearSolver.solve s v = .ok x ∧ x.column.Stores X) ∧
        (RealScalar.isNaN (Y 0 0) = true ∧ Y 0 0 ≠ X 0 0) ∧ Y 1 0 = X 1 0 ∧ Y 2 0 = X 2 0 := by
  intro a v s
  obtain ⟨-, -, hsolver⟩ := mulVector_compares Float (by decide : 2 ≤ 64)
  have ha : a.Stores !![0, 1; 2, 1; 0, 0 / 0] :=
    ⟨rfl, rfl, rfl, fun i j => by fin_cases i <;> fin_cases j <;> rfl⟩
  have hv : v.column.Stores !![1 / 0; 1] :=
    ⟨rfl, rfl, rfl, fun i j => by fin_cases i <;> fin_cases j <;> rfl⟩
  obtain ⟨y, x, Y, X, hy, hx, hrows⟩ := hsolver (s := s) ha hv
  -- one in place of the infinity shows what the terms that are left make
  let w : ColumnVector Float := .ofArray #[1, 1]
  have hw : w.column.Stores !![1; 1] :=
    ⟨rfl, rfl, rfl, fun i j => by fin_cases i <;> fin_cases j <;> rfl⟩
  have hnumber : RealScalar.isNaN (X 0 0) = false := by
    have hleft : Ends Never (RealScalar.isNaN · = false) (a.mulVector w >>= (·.entry 0)) := by
      decide +kernel
    obtain ⟨z, hz, hX⟩ :=
      Ends.never_iff.1 (hrows.leftOut 0 ha hw (by decide +kernel) (by decide +kernel))
    rw [hz] at hleft
    exact (Ends.ok_bind_iff.1 hleft).of_ok hX
  have hnan : RealScalar.isNaN (X 2 0) = true := by
    have hleft : Ends Never (RealScalar.isNaN · = true) (a.mulVector w >>= (·.entry 2)) := by
      decide +kernel
    obtain ⟨z, hz, hX⟩ :=
      Ends.never_iff.1 (hrows.leftOut 2 ha hw (by decide +kernel) (by decide +kernel))
    rw [hz] at hleft
    exact (Ends.ok_bind_iff.1 hleft).of_ok hX
  have hspoiled := hrows.spoiled 0 0 (by decide +kernel) (by decide +kernel)
  refine ⟨y, x, Y, X, hy, hx, ⟨hspoiled, fun h => ?_⟩, (hrows.eq_iff 1).2 (.inl ?_),
    (hrows.eq_iff 2).2 (.inr hnan)⟩
  · rw [h, hnumber] at hspoiled
    exact Bool.false_ne_true hspoiled
  · decide +kernel

/-- A zero times an infinity is a NaN in the product with a vector, and nothing in the product
with its column. -/
theorem mulVector_ne_mul_column :
    let a : DenseMatrix Float := ⟨1, 1, #[0]⟩
    let v : ColumnVector Float := .ofArray #[1 / 0]
    Ends Never (fun y => y.elements.map RealScalar.isNaN = #[true]) (a.mulVector v) ∧
      Ends Never (fun q => q.data.map Scalar.isZero = #[true]) (a.mul v.column) ∧
        ColumnVector.column <$> a.mulVector v ≠ a.mul v.column := by
  intro a v
  have hvector : Ends Never (fun y => y.elements.map RealScalar.isNaN = #[true])
      (a.mulVector v) := by
    decide +kernel
  have hcolumn : Ends Never (fun q => q.data.map Scalar.isZero = #[true]) (a.mul v.column) := by
    decide +kernel
  have hzero : Ends Never (fun q => q.data.map RealScalar.isNaN = #[false]) (a.mul v.column) := by
    decide +kernel
  refine ⟨hvector, hcolumn, fun heq => ?_⟩
  obtain ⟨y, hy, hnan⟩ := Ends.never_iff.1 hvector
  obtain ⟨q, hq, hnumber⟩ := Ends.never_iff.1 hzero
  rw [hy, hq] at heq
  obtain rfl : y.column = q := Except.ok.inj heq
  rw [ColumnVector.elements, hnumber] at hnan
  exact absurd hnan (by decide)

end DenseFactor
