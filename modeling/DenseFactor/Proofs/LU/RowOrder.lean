import Mathlib
import DenseFactor.Proofs.LU.Minors

/-!
# DenseFactor.Proofs.LU.RowOrder

Which row is the pivot of a step, if the **first acceptable one** is taken.

Design points:

* A row can be the pivot of step `k` if it is not the pivot of a step before and, together with
  these, has a minor in the first `k + 1` columns that is not zero. Such a row is a candidate
  (`extendingRows`). The minor is the product of the pivots so far with the element the search
  looks at (`EliminatesExactly.extendedMinor_eq`), so the search asks exactly for the candidates.
* The search runs over the rows in the order they stand in. This order is a function of the
  pivots before (`orderBefore`): each step exchanges the row in its place with its pivot. So the
  pivot is the first candidate in this order (`TakesFirst`), not in the order of the matrix.
* An exchange sends one row to the back and lets all others stay. A row from `k` on that was no
  pivot yet stands in its own place (`orderBefore_of_waiting`), and none of these is passed over
  wrongly. Only the rows that an exchange has moved away can be: `displacing` is a matrix where
  the first row is.
-/

namespace DenseFactor.LU

open ExactScalar (value)

variable {n : ℕ}

/-! ### The order of the rows -/

/-- The order of the rows before step `k`, if every step exchanges the row in its place with the
one that `σ` names. -/
def orderBefore (σ : Equiv.Perm (Fin n)) : ℕ → Equiv.Perm (Fin n)
  | 0 => 1
  | k + 1 =>
      if h : k < n then
        orderBefore σ k * Equiv.swap ⟨k, h⟩ ((orderBefore σ k).symm (σ ⟨k, h⟩))
      else orderBefore σ k

section OrderBefore

variable {σ τ : Equiv.Perm (Fin n)}

theorem orderBefore_succ (σ : Equiv.Perm (Fin n)) (k : Fin n) :
    orderBefore σ (k + 1) =
      orderBefore σ k * Equiv.swap k ((orderBefore σ k).symm (σ k)) := by
  rw [orderBefore, dif_pos k.isLt]

/-- Only the pivots before matter. -/
theorem orderBefore_congr {k : ℕ} (h : ∀ j : Fin n, (j : ℕ) < k → σ j = τ j) :
    orderBefore σ k = orderBefore τ k := by
  induction k with
  | zero => rfl
  | succ k ih =>
      have hbefore := ih fun j hj => h j (hj.trans k.lt_succ_self)
      by_cases hk : k < n
      · rw [orderBefore_succ σ ⟨k, hk⟩, orderBefore_succ τ ⟨k, hk⟩, h ⟨k, hk⟩ k.lt_succ_self,
          hbefore]
      · rw [orderBefore, orderBefore, dif_neg hk, dif_neg hk, hbefore]

/-- The pivots stand in front. -/
theorem orderBefore_of_lt (σ : Equiv.Perm (Fin n)) {k : ℕ} {j : Fin n} (hj : (j : ℕ) < k) :
    orderBefore σ k j = σ j := by
  induction k with
  | zero => exact absurd hj (Nat.not_lt_zero _)
  | succ k ih =>
      by_cases hk : k < n
      · rw [orderBefore_succ σ ⟨k, hk⟩, Equiv.Perm.mul_apply]
        by_cases hlast : j = ⟨k, hk⟩
        · rw [hlast, Equiv.swap_apply_left, Equiv.apply_symm_apply]
        · have hbefore : (j : ℕ) < k := by
            have : (j : ℕ) ≠ k := fun hval => hlast (Fin.ext hval)
            omega
          -- a row in front is the pivot of its own step, so the exchange leaves it there
          have hother : j ≠ (orderBefore σ k).symm (σ ⟨k, hk⟩) := by
            intro hpos
            rw [Equiv.eq_symm_apply, ih hbefore] at hpos
            exact hlast (σ.injective hpos)
          rw [Equiv.swap_apply_of_ne_of_ne hlast hother, ih hbefore]
      · have hbefore : (j : ℕ) < k := j.isLt.trans_le (not_lt.1 hk)
        rw [orderBefore, dif_neg hk, ih hbefore]

/-- What is not the pivot of a step before stands behind the pivots. -/
theorem le_symm_orderBefore {k : ℕ} {r : Fin n} (hr : ∀ j : Fin n, (j : ℕ) < k → σ j ≠ r) :
    k ≤ ((orderBefore σ k).symm r : ℕ) := by
  by_contra hlt
  refine hr ((orderBefore σ k).symm r) (not_le.1 hlt) ?_
  rw [← orderBefore_of_lt σ (not_le.1 hlt), Equiv.apply_symm_apply]

/-- A row that was no pivot and whose own place is not filled yet stands there. -/
theorem orderBefore_of_waiting {k : ℕ} {r : Fin n} (hkr : k ≤ (r : ℕ))
    (hr : ∀ j : Fin n, (j : ℕ) < k → σ j ≠ r) : orderBefore σ k r = r := by
  induction k with
  | zero => rfl
  | succ k ih =>
      have hk : k < n := by omega
      have hwaiting : orderBefore σ k r = r :=
        ih (by omega) fun j hj => hr j (hj.trans k.lt_succ_self)
      have hplace : r ≠ ⟨k, hk⟩ := by
        rintro rfl
        exact absurd hkr (Nat.not_succ_le_self k)
      have hpivot : r ≠ (orderBefore σ k).symm (σ ⟨k, hk⟩) := by
        intro hpos
        rw [Equiv.eq_symm_apply, hwaiting] at hpos
        exact hr ⟨k, hk⟩ k.lt_succ_self hpos.symm
      rw [orderBefore_succ σ ⟨k, hk⟩, Equiv.Perm.mul_apply,
        Equiv.swap_apply_of_ne_of_ne hplace hpivot, hwaiting]

end OrderBefore

/-! ### The rows a step can take -/

section Candidates

variable {K : Type} [Field K] {A : Matrix (Fin n) (Fin n) K} {σ τ : Equiv.Perm (Fin n)}

/-- The rows that are not the pivot of a step before `k` and that have, together with these, a
minor in the first `k + 1` columns that is not zero. -/
def extendingRows (A : Matrix (Fin n) (Fin n) K) (σ : Equiv.Perm (Fin n)) (k : Fin n) :
    Set (Fin n) :=
  {r | (∀ j < k, σ j ≠ r) ∧ extendedMinor A σ k r ≠ 0}

theorem mem_extendingRows_iff {k r : Fin n} :
    r ∈ extendingRows A σ k ↔ (∀ j < k, σ j ≠ r) ∧ extendedMinor A σ k r ≠ 0 :=
  Iff.rfl

theorem extendedMinor_congr {rows rows' : Fin n → Fin n} {k : Fin n}
    (h : ∀ j < k, rows j = rows' j) (r : Fin n) :
    extendedMinor A rows k r = extendedMinor A rows' k r := by
  have hrows : Function.update (fun j => rows (Fin.castLE k.isLt j)) (Fin.last k) r =
      Function.update (fun j => rows' (Fin.castLE k.isLt j)) (Fin.last k) r := by
    funext j
    by_cases hj : j = Fin.last k
    · rw [hj, Function.update_self, Function.update_self]
    · rw [Function.update_of_ne hj, Function.update_of_ne hj]
      exact h _ (Fin.lt_last_iff_ne_last.2 hj)
  rw [extendedMinor, hrows, extendedMinor]

theorem extendedMinor_submatrix (σ : Equiv.Perm (Fin n)) (k i : Fin n) :
    extendedMinor (A.submatrix σ id) id k i = extendedMinor A σ k (σ i) := by
  have hrows : σ ∘ Function.update (fun j => id (Fin.castLE k.isLt j)) (Fin.last k) i =
      Function.update (fun j => σ (Fin.castLE k.isLt j)) (Fin.last k) (σ i) := by
    rw [Function.comp_update]
    rfl
  rw [extendedMinor, Matrix.submatrix_submatrix, hrows]
  rfl

theorem extendingRows_congr {k : Fin n} (h : ∀ j < k, σ j = τ j) :
    extendingRows A σ k = extendingRows A τ k := by
  ext r
  have hwaiting : (∀ j < k, σ j ≠ r) ↔ ∀ j < k, τ j ≠ r :=
    forall₂_congr fun j hj => by rw [h j hj]
  rw [mem_extendingRows_iff, mem_extendingRows_iff, hwaiting, extendedMinor_congr h]

/-- Step `k` takes the first candidate in the order the rows stand in. -/
structure TakesFirst (A : Matrix (Fin n) (Fin n) K) (σ : Equiv.Perm (Fin n)) (k : Fin n) :
    Prop where
  taken : σ k ∈ extendingRows A σ k
  passed (i : Fin n) (hki : k ≤ i) (hi : i < (orderBefore σ k).symm (σ k)) :
    orderBefore σ k i ∉ extendingRows A σ k

namespace TakesFirst

variable {k : Fin n}

/-- What later steps take does not matter. -/
theorem congr (h : TakesFirst A σ k) (hστ : ∀ j ≤ k, σ j = τ j) : TakesFirst A τ k := by
  have hbefore (j : Fin n) (hj : j < k) : σ j = τ j := hστ j hj.le
  have hextending := extendingRows_congr (A := A) hbefore
  have horder : orderBefore σ k = orderBefore τ k := orderBefore_congr hbefore
  obtain ⟨htaken, hpassed⟩ := h
  rw [hστ k le_rfl] at htaken hpassed
  rw [hextending] at htaken hpassed
  rw [horder] at hpassed
  exact ⟨htaken, hpassed⟩

/-- No candidate stands before the pivot. -/
theorem place_le (h : TakesFirst A σ k) {r : Fin n} (hr : r ∈ extendingRows A σ k) :
    (orderBefore σ k).symm (σ k) ≤ (orderBefore σ k).symm r := by
  by_contra hlt
  refine h.passed _ (le_symm_orderBefore hr.1) (not_le.1 hlt) ?_
  rwa [Equiv.apply_symm_apply]

/-- A candidate before the pivot in the matrix was moved out of its own place. -/
theorem lt_of_lt (h : TakesFirst A σ k) {r : Fin n} (hr : r ∈ extendingRows A σ k)
    (hlt : r < σ k) : r < k := by
  by_contra hle
  have hkr : k ≤ r := not_lt.1 hle
  have hrow : (orderBefore σ k).symm r = r :=
    (Equiv.symm_apply_eq _).2 (orderBefore_of_waiting hkr hr.1).symm
  -- the pivot then stands in its own place as well, so behind this row
  have hpivot : (orderBefore σ k).symm (σ k) = σ k :=
    (Equiv.symm_apply_eq _).2 (orderBefore_of_waiting (hkr.trans hlt.le) h.taken.1).symm
  have hplace := h.place_le hr
  rw [hpivot, hrow] at hplace
  exact hlt.not_ge hplace

/-- The pivot is the first candidate in the order of the matrix unless one before it was moved
away. -/
theorem isLeast_iff (h : TakesFirst A σ k) :
    IsLeast (extendingRows A σ k) (σ k) ↔ ∀ r < k, r < σ k → r ∉ extendingRows A σ k := by
  constructor
  · intro hleast r _ hlt hr
    exact (hleast.2 hr).not_gt hlt
  · intro hnone
    refine ⟨h.taken, fun r hr => ?_⟩
    by_contra hlt
    have hlt : r < σ k := not_le.1 hlt
    exact hnone r (h.lt_of_lt hr hlt) hlt hr

end TakesFirst

end Candidates

/-! ### The run -/

section Run

variable {α K : Type} [Field K] [Scalar α] [ExactScalar α K] {A : Matrix (Fin n) (Fin n) α}
  {W W' : Matrix (Fin n) (Fin n) α} {σ : Equiv.Perm (Fin n)}

/-- What the search looks at, as a minor of the matrix. -/
theorem EliminatesExactly.extendedMinor_eq {col i : Fin n} (h : EliminatesExactly A col σ W)
    (hi : col ≤ i) : extendedMinor (A.map value) σ col (σ i) =
      (∏ j : Fin col, value (W (Fin.castLE col.isLt.le j) (Fin.castLE col.isLt.le j))) *
        value (W i col) := by
  have hrows : Packed.product col (W.map value) = (A.map value).submatrix σ id := h.rows
  rw [← extendedMinor_submatrix, ← hrows, Packed.extendedMinor_product _ le_rfl (.inr ⟨rfl, hi⟩)]
  rfl

/-- The search asks for the candidates among the rows that are left. -/
theorem EliminatesExactly.mem_extendingRows_iff {col i : Fin n} (h : EliminatesExactly A col σ W)
    (hi : col ≤ i) : σ i ∈ extendingRows (A.map value) σ col ↔ value (W i col) ≠ 0 := by
  have hpivots : (∏ j : Fin col,
      value (W (Fin.castLE col.isLt.le j) (Fin.castLE col.isLt.le j))) ≠ 0 :=
    Finset.prod_ne_zero_iff.2 fun j _ => h.pivot_ne_zero _ j.isLt
  have hwaiting (j : Fin n) (hj : j < col) : σ j ≠ σ i :=
    σ.injective.ne (hj.trans_le hi).ne
  rw [LU.mem_extendingRows_iff, h.extendedMinor_eq hi, mul_ne_zero_iff]
  exact ⟨fun hr => hr.2.2, fun hne => ⟨hwaiting, hpivots, hne⟩⟩

/-- What the elimination keeps: the rows stand in the order that the pivots give them, and every
step so far took the first candidate. -/
structure EliminatesFirst (A : Matrix (Fin n) (Fin n) α) (k : ℕ) (σ : Equiv.Perm (Fin n))
    (W : Matrix (Fin n) (Fin n) α) : Prop where
  eliminates : EliminatesExactly A k σ W
  order : orderBefore σ k = σ
  first (j : Fin n) (hj : (j : ℕ) < k) : TakesFirst (A.map value) σ j

namespace EliminatesFirst

theorem start (A : Matrix (Fin n) (Fin n) α) : EliminatesFirst A 0 1 A where
  eliminates := eliminatesExactly_start A
  order := rfl
  first _ hj := absurd hj (Nat.not_lt_zero _)

/-- A step that takes the first row that is not zero. -/
theorem step {col row : Fin n} (h : EliminatesFirst A col σ W) (hrow : col ≤ row)
    (hne : value (W row col) ≠ 0) (hfirst : ∀ i, col ≤ i → i < row → value (W i col) = 0)
    (hreduced : ReducesColumn col (W.submatrix (Equiv.swap col row) id) W') :
    EliminatesFirst A (col + 1) (σ * Equiv.swap col row) W' := by
  set τ := σ * Equiv.swap col row with hτ
  have hbefore (j : Fin n) (hj : (j : ℕ) < col) : σ j = τ j := by
    rw [hτ, Equiv.Perm.mul_apply, swap_of_lt le_rfl hrow hj]
  have hpivot : τ col = σ row := by
    rw [hτ, Equiv.Perm.mul_apply, Equiv.swap_apply_left]
  have horder : orderBefore τ col = σ := by
    rw [← orderBefore_congr hbefore, h.order]
  have hplace : (orderBefore τ col).symm (τ col) = row := by
    rw [horder, hpivot, Equiv.symm_apply_apply]
  have hextending : extendingRows (A.map value) τ col = extendingRows (A.map value) σ col :=
    (extendingRows_congr hbefore).symm
  refine ⟨h.eliminates.step hrow hne hreduced, ?_, fun j hj => ?_⟩
  · rw [orderBefore_succ, hplace, horder]
  · by_cases hlast : j = col
    · subst hlast
      refine ⟨?_, fun i hi hir => ?_⟩
      · rw [hextending, hpivot]
        exact (h.eliminates.mem_extendingRows_iff hrow).2 hne
      · rw [hplace] at hir
        rw [hextending, horder, h.eliminates.mem_extendingRows_iff hi, not_not]
        exact hfirst i hi hir
    · have hjcol : (j : ℕ) < col := by omega
      exact (h.first j hjcol).congr fun i hi => hbefore i (hi.trans_lt hjcol)

end EliminatesFirst

end Run

/-- Over an exact field with the exact test for zero, the decomposition of a matrix with
determinant other than zero that takes the first acceptable row is complete. The pivot of every
step is a candidate, and no candidate stands before it in the order that the exchanges so far
have left. In the order of the matrix a candidate comes before the pivot only if it was moved
out of its own place, so the pivot is the smallest candidate exactly if no such row is one. If
the arithmetic fails, other than on a division by zero, by `E` only, so does the
decomposition. -/
theorem pivot_takesFirst {α K : Type} [Field K] [FieldScalar α] [ExactScalar α K]
    {E : Failure → Prop} (hE : FailsBy α E fun y => value y ≠ 0) {A : Matrix (Fin n) (Fin n) α}
    {a : MatrixView α} (ha : a.Shows A) (hdet : (A.map value).det ≠ 0) :
    Ends E (fun lu => lu.isSingular = false ∧
        ∃ σ : Equiv.Perm (Fin n), Lists lu.pivot σ ∧ ∀ k : Fin n,
          σ k ∈ extendingRows (A.map value) σ k ∧
          (∀ r ∈ extendingRows (A.map value) σ k,
            (orderBefore σ k).symm (σ k) ≤ (orderBefore σ k).symm r) ∧
          (∀ r ∈ extendingRows (A.map value) σ k, r < σ k → r < k) ∧
          (IsLeast (extendingRows (A.map value) σ k) (σ k) ↔
            ∀ r < k, r < σ k → r ∉ extendingRows (A.map value) σ k))
      (ofPredicate Scalar.isZero false a) := by
  refine (ends_ofRule hE selects_firstNonZero_exact (fun W col row h => (h.1 row rfl).1) ha
    (I := EliminatesFirst A) (EliminatesFirst.start A) ?_ none).imp ?_
  · intro col row σ W W' hrow hP hI hreduced
    obtain ⟨hne, hfirst⟩ := hP.1 row rfl
    exact hI.step hrow hne hfirst hreduced
  · intro lu hlu
    obtain ⟨σ, W, hfinished⟩ := hlu
    have hs : lu.isSingular = false := by
      by_contra hs
      obtain ⟨col, hI, hrejected⟩ := hfinished.rejected (Bool.not_eq_false _ ▸ hs)
      exact hdet (hI.eliminates.rows.det_eq_zero (hrejected.2 rfl))
    refine ⟨hs, σ, hfinished.holds.lists, fun k => ?_⟩
    have htakes := (hfinished.complete hs).first k k.isLt
    exact ⟨htakes.taken, fun _ => htakes.place_le, fun _ => htakes.lt_of_lt, htakes.isLeast_iff⟩

/-- A matrix of ratios whose first step moves the first row behind the second one. -/
def displacing : Matrix (Fin 3) (Fin 3) (Ratio 64) :=
  !![Scalar.zero, Scalar.one, Scalar.zero;
     Scalar.zero, Scalar.one, Scalar.one;
     Scalar.one, Scalar.zero, Scalar.zero]

/-- The decomposition of `displacing` takes the last row first and the first row last. -/
theorem ofPredicate_displacing : ∃ lu : LU (Ratio 64),
    ofPredicate Scalar.isZero false (.ofMatrix displacing) = .ok lu ∧ lu.pivot = #[2, 1, 0] := by
  have hrun : (ofPredicate Scalar.isZero false (.ofMatrix displacing)).toOption.map LU.pivot =
      some #[2, 1, 0] := by decide +kernel
  cases hlu : ofPredicate Scalar.isZero false (.ofMatrix displacing) with
  | error e => simp [hlu, Except.toOption] at hrun
  | ok lu => exact ⟨lu, rfl, by simpa [hlu, Except.toOption] using hrun⟩

/-- Every step on `displacing` takes the first candidate in the order its exchanges leave. -/
theorem pivot_takesFirst_displacing :
    ∃ (lu : LU (Ratio 64)) (σ : Equiv.Perm (Fin 3)),
      ofPredicate Scalar.isZero false (.ofMatrix displacing) = .ok lu ∧
        (displacing.map value).det ≠ 0 ∧ lu.pivot = #[2, 1, 0] ∧ Lists lu.pivot σ ∧
        ∀ k, σ k ∈ extendingRows (displacing.map value) σ k ∧
          ∀ r ∈ extendingRows (displacing.map value) σ k,
            (orderBefore σ k).symm (σ k) ≤ (orderBefore σ k).symm r := by
  obtain ⟨lu, hlu, hpivot⟩ := ofPredicate_displacing
  have hdet : (displacing.map value).det = 1 := by decide +kernel
  have hne : (displacing.map value).det ≠ 0 := hdet ▸ one_ne_zero
  obtain ⟨-, σ, hlists, hfirst⟩ := (pivot_takesFirst Ratio.failsBy_overflow
    (MatrixView.ofMatrix_shows displacing) hne).of_ok hlu
  exact ⟨lu, σ, hlu, hne, hpivot, hlists, fun k => ⟨(hfirst k).1, (hfirst k).2.1⟩⟩

/-- The pivot of a step need not be the smallest candidate: after the last row of `displacing`
the second one is taken, although the first one extends the minor as well. -/
theorem not_isLeast_displacing :
    ∃ (lu : LU (Ratio 64)) (σ : Equiv.Perm (Fin 3)),
      ofPredicate Scalar.isZero false (.ofMatrix displacing) = .ok lu ∧
        (displacing.map value).det ≠ 0 ∧ Lists lu.pivot σ ∧
        ¬ IsLeast (extendingRows (displacing.map value) σ 1) (σ 1) := by
  obtain ⟨lu, hlu, hpivot⟩ := ofPredicate_displacing
  have hdet : (displacing.map value).det = 1 := by decide +kernel
  have hminor : extendedMinor (displacing.map value) (Equiv.swap 0 2) 1 0 = 1 :=
    (Matrix.det_fin_two _).trans (by decide +kernel)
  refine ⟨lu, Equiv.swap 0 2, hlu, hdet ▸ one_ne_zero, ⟨by rw [hpivot]; rfl, ?_⟩, fun hleast => ?_⟩
  · rw [hpivot]
    decide
  · have hfirst : (0 : Fin 3) ∈ extendingRows (displacing.map value) (Equiv.swap 0 2) 1 :=
      ⟨by decide, by simp [hminor]⟩
    exact absurd (hleast.2 hfirst) (by decide)

end DenseFactor.LU
