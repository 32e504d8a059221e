import Mathlib
import DenseFactor.Proofs.LeastSquares
import DenseFactor.Proofs.QR.Factorization
import DenseFactor.Proofs.Triangular

/-!
# DenseFactor.Proofs.QR.Solver

Over exact real or complex elements the QR solver answers by **the least-squares
solution**, and refuses exactly the matrices whose leading columns are dependent.

Design points:

* `leadingSquare` is the square part of `R` that the solver divides by. Its diagonal is
  the stored one, so the rank test asks for its determinant, and unitary factors do not
  change which columns are independent.
* The stored reflections are applied to the right-hand sides in the order in which they
  were made. So the reflected sides are `Qᴴ · B` without `Q` being formed.
* What is solved is said without `R`: the reflected residual `Qᴴ · (A · X - B)` is zero
  in the leading rows (`Factors.Represents.ends_solveMatrix`). For a tall matrix these
  are the normal equations, for a wide one they are all rows.
-/

namespace DenseFactor.QR

open EuclideanScalar
open ExactScalar (value)
open scoped Matrix

noncomputable section

variable {𝕜 : Type} [RCLike 𝕜] {m n c : ℕ}

/-! ### The leading square of the triangular factor -/

section LeadingSquare

variable (w : Matrix (Fin n) (Fin m) 𝕜) (d : ℕ → 𝕜)

/-- The rows and columns of the triangular factor that have a diagonal entry. -/
def leadingSquare : Matrix (Fin (min m n)) (Fin (min m n)) 𝕜 :=
  (reducedMatrix w d (min m n)).submatrix asRow asCol

/-- The triangular factor is zero below the diagonal. -/
theorem reducedMatrix_of_gt {i : Fin m} {j : Fin n} (h : (j : ℕ) < i) :
    reducedMatrix w d (min m n) i j = 0 := by
  have hj : (j : ℕ) < min m n := by omega
  rw [reducedMatrix_of_lt w d i hj, if_neg (by omega), if_neg (by omega)]

theorem leadingSquare_isUpperTriangular : (leadingSquare w d).IsUpperTriangular := by
  intro i j hij
  exact reducedMatrix_of_gt w d (i := asRow i) (j := asCol j) hij

theorem leadingSquare_diag (k : Fin (min m n)) : leadingSquare w d k k = d k := by
  have hk : (asCol k : ℕ) < min m n := k.isLt
  refine (reducedMatrix_of_lt w d (asRow k) hk).trans ?_
  refine (if_neg (lt_irrefl (k : ℕ))).trans ?_
  exact if_pos rfl

theorem leadingSquare_of_lt {i k : Fin (min m n)} (h : i < k) :
    leadingSquare w d i k = w (asCol k) (asRow i) := by
  have hk : (asCol k : ℕ) < min m n := k.isLt
  refine (reducedMatrix_of_lt w d (asRow i) hk).trans ?_
  exact if_pos h

theorem det_leadingSquare : (leadingSquare w d).det = ∏ k : Fin (min m n), d k := by
  rw [Matrix.det_of_isUpperTriangular (leadingSquare_isUpperTriangular w d)]
  exact Finset.prod_congr rfl fun k _ => leadingSquare_diag w d k

/-- The rows that have a diagonal entry. -/
def leadingRows (n : ℕ) (M : Matrix (Fin m) (Fin c) 𝕜) : Matrix (Fin (min m n)) (Fin c) 𝕜 :=
  M.submatrix asRow id

/-- The columns that have a diagonal entry. -/
def leadingColumns (M : Matrix (Fin m) (Fin n) 𝕜) : Matrix (Fin m) (Fin (min m n)) 𝕜 :=
  M.submatrix id asCol

/-- Unknowns past the diagonal that are zero take no part. -/
theorem mul_eq_leadingColumns_mul {M : Matrix (Fin m) (Fin n) 𝕜} {X : Matrix (Fin n) (Fin c) 𝕜}
    (hX : ∀ (i : Fin n) (j : Fin c), min m n ≤ (i : ℕ) → X i j = 0) :
    M * X = leadingColumns M * X.submatrix (asCol (m := m)) id := by
  ext i j
  rw [Matrix.mul_apply, Matrix.mul_apply]
  refine (Finset.sum_of_injOn asCol ?_ ?_ ?_ fun t _ => rfl).symm
  · intro s _ t _ hst
    exact Fin.castLE_injective _ hst
  · intro t _
    exact Finset.mem_univ (asCol t)
  · intro t _ hout
    by_cases ht : (t : ℕ) < min m n
    · exact absurd ⟨⟨t, ht⟩, Finset.mem_univ _, rfl⟩ hout
    · exact mul_eq_zero_of_right _ (hX t j (not_lt.1 ht))

/-- The leading columns of the triangular factor are independent if no diagonal entry
is zero, and in no other case. -/
theorem injective_reducedMatrix_iff :
    Function.Injective (leadingColumns (reducedMatrix w d (min m n))).mulVec ↔
      ∀ k : Fin (min m n), d k ≠ 0 := by
  constructor
  · intro hinjective k hk
    -- a zero on the diagonal makes some combination of the columns vanish
    have hdet : (leadingSquare w d).det = 0 := by
      rw [det_leadingSquare]
      exact Finset.prod_eq_zero (Finset.mem_univ k) hk
    obtain ⟨v, hv, hzero⟩ := Matrix.exists_mulVec_eq_zero_iff.2 hdet
    refine hv (hinjective ?_)
    rw [Matrix.mulVec_zero]
    funext i
    by_cases hi : (i : ℕ) < min m n
    · exact congrFun hzero ⟨i, hi⟩
    · have hrow : leadingColumns (reducedMatrix w d (min m n)) i = 0 := by
        funext t
        have hti : (asCol t : ℕ) < i := lt_of_lt_of_le t.isLt (not_lt.1 hi)
        exact reducedMatrix_of_gt w d hti
      change leadingColumns (reducedMatrix w d (min m n)) i ⬝ᵥ v = 0
      rw [hrow, zero_dotProduct]
  · intro hd
    refine mulVec_injective_of_submatrix asRow ?_
    change (leadingSquare w d).det ≠ 0
    rw [det_leadingSquare]
    exact Finset.prod_ne_zero_iff.2 fun k _ => hd k

end LeadingSquare

/-- The leading columns of a tall matrix are all columns. -/
theorem mulVec_injective_of_leading {M : Matrix (Fin m) (Fin n) 𝕜} (hmn : n ≤ m)
    (h : LinearIndependent 𝕜 fun k : Fin (min m n) => M.col (asCol k)) :
    Function.Injective M.mulVec := by
  have hcolumns : M.col =
      (fun k : Fin (min m n) => M.col (asCol k)) ∘ Fin.castLE (le_min hmn le_rfl) := rfl
  rw [Matrix.mulVec_injective_iff, hcolumns]
  exact h.comp _ (Fin.castLE_injective _)

section Solving

variable {α ρ : Type} [RealScalar ρ] [ExactReal ρ] [EuclideanScalar α ρ]
  [ExactEuclidean α ρ 𝕜] {E : Failure → Prop} {f : Factors α} {A : Matrix (Fin m) (Fin n) α}
  {W : Matrix (Fin n) (Fin m) α} {y : DenseMatrix α} {Y : Matrix (Fin m) (Fin c) α}

/-! ### The rank test -/

/-- The leading columns are independent if no diagonal entry is zero, and in no other
case. -/
theorem Factors.Represents.linearIndependent_iff (h : f.Represents A (min m n) W) :
    (LinearIndependent 𝕜 fun k : Fin (min m n) => (A.map value).col (asCol k)) ↔
      ∀ k : Fin (min m n), f.entries k ≠ 0 := by
  have hcolumns : (fun k : Fin (min m n) => (A.map value).col (asCol k)) =
      (leadingColumns (A.map value)).col := rfl
  have hproduct : composed (leftReflector (W.map value) f.entries) (min m n) *
      leadingColumns (A.map value) =
        leadingColumns (reducedMatrix (W.map value) f.entries (min m n)) := by
    rw [← h.product]
    rfl
  have hmulVec : (leadingColumns (reducedMatrix (W.map value) f.entries (min m n))).mulVec =
      (composed (leftReflector (W.map value) f.entries) (min m n)).mulVec ∘
        (leadingColumns (A.map value)).mulVec := by
    funext v
    rw [← hproduct, Function.comp_apply, Matrix.mulVec_mulVec]
  have hunit : Function.Injective
      (composed (leftReflector (W.map value) f.entries) (min m n)).mulVec :=
    Matrix.mulVec_injective_iff_isUnit.2 (IsUnit.of_mul_eq_one_right _ h.unitary)
  rw [hcolumns, ← Matrix.mulVec_injective_iff,
    ← injective_reducedMatrix_iff (W.map value) f.entries, hmulVec, hunit.of_comp_iff]

/-- The rank test compares every diagonal entry with the limit. -/
theorem Factors.isRankDeficient_iff (f : Factors α) (limit : ρ) :
    f.isRankDeficient limit = true ↔ ∃ k < f.diagonal.size, ‖f.entries k‖ ≤ value limit := by
  have hentry (x : α) : modulus x ≤ limit ↔ ‖value x‖ ≤ value limit := by
    rw [ExactReal.le_iff, ExactEuclidean.value_modulus]
  unfold Factors.isRankDeficient
  rw [Array.any_eq_true]
  constructor
  · intro hany
    obtain ⟨k, hk, hx⟩ := hany
    refine ⟨k, hk, ?_⟩
    rw [Factors.entries, Array.getD_eq_getD_getElem?, Array.getElem?_eq_getElem hk]
    exact (hentry _).1 (of_decide_eq_true hx)
  · intro hsmall
    obtain ⟨k, hk, hx⟩ := hsmall
    rw [Factors.entries, Array.getD_eq_getD_getElem?, Array.getElem?_eq_getElem hk] at hx
    exact ⟨k, hk, decide_eq_true ((hentry _).2 hx)⟩

/-- The solver takes a matrix if every diagonal entry is above the limit. -/
theorem Factors.Represents.singular_eq_false_iff_lt (h : f.Represents A (min m n) W) (limit : ρ) :
    (Solver.of f limit).singular = false ↔ ∀ k : Fin (min m n), value limit < ‖f.entries k‖ := by
  have hdeficient := f.isRankDeficient_iff limit
  rw [h.size] at hdeficient
  rw [Solver.of, ← Bool.not_eq_true, hdeficient]
  constructor
  · intro hnone k
    exact not_le.1 fun hle => hnone ⟨k, k.isLt, hle⟩
  · intro hlt hsome
    obtain ⟨k, hk, hle⟩ := hsome
    exact (hlt ⟨k, hk⟩).not_ge hle

/-- With a limit of zero the solver takes a matrix unless there is a zero on the diagonal. -/
theorem Factors.Represents.singular_eq_false_iff (h : f.Represents A (min m n) W) {limit : ρ}
    (hlimit : value limit = 0) :
    (Solver.of f limit).singular = false ↔ ∀ k : Fin (min m n), f.entries k ≠ 0 := by
  rw [h.singular_eq_false_iff_lt limit, hlimit]
  exact forall_congr' fun k => norm_pos_iff

/-! ### Reflecting the right-hand sides -/

/-- A reflection that was made divides by something. -/
theorem Factors.Represents.denominator_ne_zero (h : f.Represents A (min m n) W)
    {k : Fin (min m n)} (hk : f.entries k ≠ 0) :
    star (f.entries k) * value (W (asCol k) (asRow k)) ≠ 0 := by
  intro hzero
  rcases mul_eq_zero.1 hzero with hentry | hhead
  · exact hk (star_eq_zero.1 hentry)
  · exact hk (h.entry_eq_zero k k.isLt hhead)

/-- How much of the vector a column has. -/
theorem Factors.Represents.ends_columnSum (h : f.Represents A (min m n) W) (k : Fin (min m n))
    (hY : y.Stores Y) (j : Fin c) :
    Ends E (fun sum => value sum =
        ∑ t, star (columnRest (W.map value) k t) * Y.map value t j)
      (foldPositions (k : ℕ) m (0 : α) fun sum i => do
        return sum + conj (← f.work.entry k i) * (← y.entry i j)) := by
  refine (ends_sum (asRow k).isLt.le (fun t => star (value (W (asCol k) t)) * value (Y t j))
    fun t sum _ => ?_).imp fun sum hsum => ?_
  · have hread : f.work.entry (k : ℕ) t = .ok (W (asCol k) t) := h.work.entry (asCol k) t
    rw [hread, Ends.ok_bind_iff, hY.entry t j]
    refine (ExactScalar.value_add _ _).trans ?_
    rw [ExactScalar.value_mul, ExactEuclidean.value_conj]
  · rw [hsum]
    refine Finset.sum_congr rfl fun t _ => ?_
    by_cases ht : (asRow k : ℕ) ≤ t
    · rw [if_pos ht, columnRest_of_le _ _ ht]
      rfl
    · rw [if_neg ht, columnRest_of_lt _ _ (not_le.1 ht), star_zero, zero_mul]

/-- Applying a reflection that was made. -/
theorem Factors.Represents.ends_reflectColumns (h : f.Represents A (min m n) W)
    {k : Fin (min m n)} (hk : f.entries k ≠ 0) (hY : y.Stores Y) :
    Ends E (fun y' => ∃ Y' : Matrix (Fin m) (Fin c) α, y'.Stores Y' ∧
        Y'.map value = leftReflector (W.map value) f.entries k * Y.map value)
      (reflectColumns f y (k : ℕ)) := by
  have hrow (i : Fin m) : f.work.entry (k : ℕ) i = .ok (W (asCol k) i) := h.work.entry (asCol k) i
  have hhead : f.work.entry (k : ℕ) k = .ok (W (asCol k) (asRow k)) := hrow (asRow k)
  have hsize : (k : ℕ) < f.diagonal.size := by
    rw [h.size]
    exact k.isLt
  have hrows : f.nrows = m := h.work.ncols
  have hdenominator : value (conj (f.diagonal.getD k 0) * W (asCol k) (asRow k)) =
      star (f.entries k) * value (W (asCol k) (asRow k)) := by
    rw [ExactScalar.value_mul, ExactEuclidean.value_conj]
    rfl
  have hne := h.denominator_ne_zero hk
  unfold reflectColumns
  rw [hhead, Ends.ok_bind_iff, f.read_diagonal hsize, Ends.ok_bind_iff, hY.ncols, hrows]
  refine Ends.bind (Ends.collect (P := fun j s => value s =
    (∑ t, star (columnRest (W.map value) k t) * Y.map value t j) /
      (star (f.entries k) * value (W (asCol k) (asRow k)))) fun j => ?_) ?_
  · refine (h.ends_columnSum k hY j).bind ?_
    intro sum hsum
    refine (ExactScalar.value_mul _ _).trans ?_
    rw [ExactScalar.value_div _ _ (hdenominator ▸ hne), ExactScalar.value_one', hdenominator,
      hsum, mul_one_div]
  · intro sums hsums
    obtain ⟨x, hx⟩ := hsums
    refine Ends.mapEntries_map hY fun i j => ?_
    rw [leftReflector, reflector_mul_apply]
    by_cases hi : asRow k ≤ i
    · have hi' : (k : ℕ) ≤ i := hi
      rw [if_pos hi', (hx j).1, Ends.ok_bind_iff, hrow i]
      refine (ExactScalar.value_add _ _).trans ?_
      rw [ExactScalar.value_mul, (hx j).2, columnRest_of_le _ _ hi]
      rfl
    · have hi' : ¬ (k : ℕ) ≤ i := hi
      rw [if_neg hi', columnRest_of_lt _ _ (not_le.1 hi), mul_zero, add_zero]
      rfl

/-- All reflections, in the order in which they were made. -/
theorem Factors.Represents.ends_reflectAll (h : f.Represents A (min m n) W)
    (hne : ∀ k : Fin (min m n), f.entries k ≠ 0) (hY : y.Stores Y) :
    Ends E (fun y' => ∃ Y' : Matrix (Fin m) (Fin c) α, y'.Stores Y' ∧
        Y'.map value = composed (leftReflector (W.map value) f.entries) (min m n) * Y.map value)
      ((positions 0 f.diagonal.size).foldlM (reflectColumns f) y) := by
  rw [h.size]
  refine Ends.foldlM_positions (I := fun k (y' : DenseMatrix α) => ∃ Y' : Matrix (Fin m) (Fin c) α,
    y'.Stores Y' ∧ Y'.map value = composed (leftReflector (W.map value) f.entries) k * Y.map value)
    (Nat.zero_le _) ⟨Y, hY, by rw [composed, Matrix.one_mul]⟩ ?_
  intro k y₁ _ hk hy₁
  obtain ⟨Y₁, hY₁, hvalue⟩ := hy₁
  refine (h.ends_reflectColumns (hne ⟨k, hk⟩) hY₁).imp ?_
  intro y₂ hy₂
  obtain ⟨Y₂, hY₂, hreflected⟩ := hy₂
  refine ⟨Y₂, hY₂, ?_⟩
  rw [hreflected, hvalue, composed_succ ⟨k, hk⟩, Matrix.mul_assoc]

/-! ### Back substitution -/

theorem Factors.Represents.ends_divideRow (h : f.Represents A (min m n) W)
    {k : Fin (min m n)} (hk : f.entries k ≠ 0) (hY : y.Stores Y) :
    Ends E (fun y' => ∃ Y' : Matrix (Fin m) (Fin c) α, y'.Stores Y' ∧
        ∀ i j, value (Y' i j) =
          if i = asRow k then value (Y i j) / f.entries k else value (Y i j))
      (divideRow f y (k : ℕ)) := by
  have hsize : (k : ℕ) < f.diagonal.size := by
    rw [h.size]
    exact k.isLt
  unfold divideRow
  rw [f.read_diagonal hsize, Ends.ok_bind_iff]
  refine Ends.mapEntries (P := fun i j z => value z =
    if i = asRow k then value (Y i j) / f.entries k else value (Y i j)) hY fun i j => ?_
  by_cases hi : i = asRow k
  · have hi' : (i : ℕ) = k := congrArg Fin.val hi
    rw [if_pos hi', if_pos hi]
    exact ExactScalar.value_div _ _ hk
  · have hi' : ¬ (i : ℕ) = k := fun hval => hi (Fin.ext hval)
    rw [if_neg hi', if_neg hi]
    rfl

theorem Factors.Represents.ends_eliminateAbove (h : f.Represents A (min m n) W)
    (k : Fin (min m n)) (hY : y.Stores Y) :
    Ends E (fun y' => ∃ Y' : Matrix (Fin m) (Fin c) α, y'.Stores Y' ∧
        ∀ i j, value (Y' i j) = if i < asRow k then
          value (Y i j) - value (Y (asRow k) j) * value (W (asCol k) i) else value (Y i j))
      (eliminateAbove f y (k : ℕ)) := by
  unfold eliminateAbove
  refine Ends.mapEntries (P := fun i j z => value z = if i < asRow k then
    value (Y i j) - value (Y (asRow k) j) * value (W (asCol k) i) else value (Y i j)) hY
    fun i j => ?_
  by_cases hi : i < asRow k
  · have hi' : (i : ℕ) < k := hi
    have hpivot : y.entry (k : ℕ) j = .ok (Y (asRow k) j) := hY.entry (asRow k) j
    have hrow : f.work.entry (k : ℕ) i = .ok (W (asCol k) i) := h.work.entry (asCol k) i
    rw [if_pos hi', if_pos hi, hpivot, Ends.ok_bind_iff, hrow]
    refine (ExactScalar.value_sub _ _).trans ?_
    rw [ExactScalar.value_mul]
  · have hi' : ¬ (i : ℕ) < k := hi
    rw [if_neg hi', if_neg hi]
    rfl

/-- One step upwards keeps the image of the leading rows. -/
theorem Factors.Represents.ends_backwardStep (h : f.Represents A (min m n) W)
    {k : Fin (min m n)} (hk : f.entries k ≠ 0) (hY : y.Stores Y) :
    Ends E (fun y' => ∃ Y' : Matrix (Fin m) (Fin c) α, y'.Stores Y' ∧
        backwardImage (leadingSquare (W.map value) f.entries) k
            (leadingRows n (Y'.map value)) =
          backwardImage (leadingSquare (W.map value) f.entries) (k + 1)
            (leadingRows n (Y.map value)))
      (divideRow f y (k : ℕ) >>= fun y' => eliminateAbove f y' (k : ℕ)) := by
  refine (h.ends_divideRow hk hY).bind ?_
  intro y₁ hy₁
  obtain ⟨Y₁, hY₁, hdivided⟩ := hy₁
  refine (h.ends_eliminateAbove k hY₁).imp ?_
  intro y₂ hy₂
  obtain ⟨Y₂, hY₂, hrows⟩ := hy₂
  have hiff (i : Fin (min m n)) : asRow i = asRow k ↔ i = k := by
    rw [Fin.ext_iff, Fin.ext_iff]
    rfl
  have hlt (i : Fin (min m n)) : asRow i < asRow k ↔ i < k := Iff.rfl
  refine ⟨Y₂, hY₂, backwardImage_eq (leadingSquare_isUpperTriangular _ _) k (fun j => ?_)
    fun i j hi => ?_⟩
  · change leadingSquare _ _ k k * value (Y₂ (asRow k) j) = value (Y (asRow k) j)
    rw [hrows, if_neg (lt_irrefl _), hdivided, if_pos rfl, leadingSquare_diag,
      mul_div_cancel₀ _ hk]
  · change value (Y₂ (asRow i) j) = if i < k then value (Y (asRow i) j) -
      value (Y₂ (asRow k) j) * leadingSquare _ _ i k else value (Y (asRow i) j)
    rw [hrows (asRow i), hrows (asRow k), if_neg (lt_irrefl (asRow k)), hdivided (asRow i),
      if_neg ((hiff i).not.2 hi)]
    by_cases hik : i < k
    · rw [if_pos ((hlt i).2 hik), if_pos hik, leadingSquare_of_lt _ _ hik]
      rfl
    · rw [if_neg ((hlt i).not.2 hik), if_neg hik]

/-- The leading rows are solved for. -/
theorem Factors.Represents.ends_backSubstitute (h : f.Represents A (min m n) W)
    (hne : ∀ k : Fin (min m n), f.entries k ≠ 0) (hY : y.Stores Y) :
    Ends E (fun x => ∃ X : Matrix (Fin m) (Fin c) α, x.Stores X ∧
        leadingSquare (W.map value) f.entries * leadingRows n (X.map value) =
          leadingRows n (Y.map value))
      (backSubstitute f y) := by
  unfold backSubstitute
  rw [h.size]
  refine (Ends.foldReversed (I := fun k x => ∃ X : Matrix (Fin m) (Fin c) α, x.Stores X ∧
    backwardImage (leadingSquare (W.map value) f.entries) k (leadingRows n (X.map value)) =
      leadingRows n (Y.map value)) ⟨Y, hY, backwardImage_all _ _⟩ ?_).imp ?_
  · intro k x₁ hk hx₁
    obtain ⟨X₁, hX₁, himage⟩ := hx₁
    refine (h.ends_backwardStep (hne ⟨k, hk⟩) hX₁).imp ?_
    intro x₂ hx₂
    obtain ⟨X₂, hX₂, hkept⟩ := hx₂
    exact ⟨X₂, hX₂, hkept.trans himage⟩
  · intro x hx
    obtain ⟨X, hX, himage⟩ := hx
    rw [backwardImage_zero] at himage
    exact ⟨X, hX, himage⟩

/-! ### Solving -/

/-- The answer of the solver: its reflected residual is zero in the leading rows, and
unknowns past them are zero. -/
theorem Factors.Represents.ends_solveMatrix (h : f.Represents A (min m n) W)
    (hne : ∀ k : Fin (min m n), f.entries k ≠ 0) {b : MatrixView α}
    {B : Matrix (Fin m) (Fin c) α} (hb : b.Shows B) :
    Ends E (fun x => ∃ X : Matrix (Fin n) (Fin c) α, x.Stores X ∧
        (∀ (i : Fin n) (j : Fin c), min m n ≤ (i : ℕ) → X i j = 0) ∧
        ∀ (i : Fin m) (j : Fin c), (i : ℕ) < min m n →
          (composed (leftReflector (W.map value) f.entries) (min m n) *
            (A.map value * X.map value - B.map value)) i j = 0)
      (Solver.solveMatrix { factors := f, singular := false } b) := by
  have hrows : f.nrows = m := h.work.ncols
  have hcols : f.ncols = n := h.work.nrows
  unfold Solver.solveMatrix checkRows
  simp only [hrows, hcols, hb.nrows, hb.ncols, if_true, Ends.ok_bind_iff, Bool.false_eq_true,
    if_false]
  refine hb.ofView.bind fun y hy => ?_
  refine (h.ends_reflectAll hne hy).bind ?_
  intro y₁ hy₁
  obtain ⟨Y₁, hY₁, hreflected⟩ := hy₁
  refine (h.ends_backSubstitute hne hY₁).bind ?_
  intro x hx
  obtain ⟨X₁, hX₁, hsolved⟩ := hx
  let P (i : Fin n) (j : Fin c) (z : α) : Prop :=
    (∀ k : Fin (min m n), i = asCol k → z = X₁ (asRow k) j) ∧ (min m n ≤ (i : ℕ) → z = 0)
  refine (Ends.tabulate (P := P) fun i j => ?_).imp ?_
  · rw [h.size]
    by_cases hi : (i : ℕ) < min m n
    · have hread : x.entry (i : ℕ) j = .ok (X₁ (asRow ⟨i, hi⟩) j) := hX₁.entry (asRow ⟨i, hi⟩) j
      rw [if_pos hi, hread]
      refine ⟨fun k hk => ?_, fun hout => absurd hout (not_le.2 hi)⟩
      subst hk
      rfl
    · rw [if_neg hi]
      refine ⟨fun k hk => absurd k.isLt ?_, fun _ => rfl⟩
      subst hk
      exact hi
  · intro x' hx'
    obtain ⟨X, hX, hentries⟩ := hx'
    have hzero (i : Fin n) (j : Fin c) (hi : min m n ≤ (i : ℕ)) : X i j = 0 :=
      (hentries i j).2 hi
    have hlead : (X.map value).submatrix (asCol (m := m)) id =
        leadingRows n (X₁.map value) := by
      ext k j
      exact congrArg value ((hentries (asCol k) j).1 k rfl)
    refine ⟨X, hX, hzero, fun i j hi => ?_⟩
    have hvalue (i : Fin n) (j : Fin c) (hi : min m n ≤ (i : ℕ)) : X.map value i j = 0 := by
      rw [Matrix.map_apply, hzero i j hi, ExactScalar.value_zero']
    have hrow := congrFun (congrFun hsolved ⟨i, hi⟩) j
    rw [← hlead, hreflected] at hrow
    rw [Matrix.mul_sub, ← Matrix.mul_assoc, h.product, mul_eq_leadingColumns_mul hvalue]
    exact sub_eq_zero.2 hrow

/-- A reflected residual that is zero in the rows of a tall triangular factor makes the
normal equations. -/
theorem Factors.Represents.normal_equations (h : f.Represents A (min m n) W) (hmn : n ≤ m)
    {M : Matrix (Fin m) (Fin c) 𝕜}
    (hM : ∀ (i : Fin m) (j : Fin c), (i : ℕ) < min m n →
      (composed (leftReflector (W.map value) f.entries) (min m n) * M) i j = 0) :
    (A.map value)ᴴ * M = 0 := by
  have hproduct : (A.map value)ᴴ * M =
      (reducedMatrix (W.map value) f.entries (min m n))ᴴ *
        (composed (leftReflector (W.map value) f.entries) (min m n) * M) := by
    rw [← h.product, Matrix.conjTranspose_mul, Matrix.mul_assoc,
      ← Matrix.mul_assoc _ (composed _ _) M, h.unitary, Matrix.one_mul]
  rw [hproduct]
  ext i j
  rw [Matrix.mul_apply]
  refine Finset.sum_eq_zero fun t _ => ?_
  by_cases ht : (t : ℕ) < min m n
  · exact mul_eq_zero_of_right _ (hM t j ht)
  · have hit : (i : ℕ) < t := by omega
    refine mul_eq_zero_of_left ?_ _
    rw [Matrix.conjTranspose_apply, reducedMatrix_of_gt _ _ hit, star_zero]

/-- A reflected residual that is zero in all rows is no residual. -/
theorem Factors.Represents.eq_zero_of_reflected (h : f.Represents A (min m n) W) (hmn : m ≤ n)
    {M : Matrix (Fin m) (Fin c) 𝕜}
    (hM : ∀ (i : Fin m) (j : Fin c), (i : ℕ) < min m n →
      (composed (leftReflector (W.map value) f.entries) (min m n) * M) i j = 0) :
    M = 0 := by
  have hall : composed (leftReflector (W.map value) f.entries) (min m n) * M = 0 := by
    ext i j
    exact hM i j (by omega)
  rw [← Matrix.one_mul M, ← h.unitary, Matrix.mul_assoc, hall, Matrix.mul_zero]

end Solving

/-- A decomposition remembers its threshold. -/
theorem threshold_eq {α ρ : Type} [RealScalar ρ] [EuclideanScalar α ρ] {threshold : ρ}
    {a : MatrixView α} {qr : QR α ρ} (h : ofThreshold threshold a = .ok qr) :
    qr.threshold = threshold := by
  unfold ofThreshold at h
  cases hwork : Factors.transposed a with
  | error e => simp [hwork, bind, Except.bind] at h
  | ok work =>
      rw [hwork] at h
      cases hfactors : (positions 0 (min a.nrows a.ncols)).foldlM Factors.step
          { work, diagonal := #[] } with
      | error e => simp [hfactors, bind, Except.bind] at h
      | ok factors =>
          simp only [hfactors, bind, Except.bind, pure, Except.pure, Except.ok.injEq] at h
          rw [← h]

end

/-- Over exact real or complex elements, with the threshold that is used unless another
one is given, a matrix of any shape has a solver, and it is non-singular exactly if the
leading columns are independent. Then every right-hand side has an answer. Where there are
at least as many rows as columns, its residual is orthogonal to the columns, so it is the
one least-squares solution. Where there are no more rows than columns, it is a solution
with zeros past the rows. -/
theorem solveMatrix_isLeastSquares {α ρ 𝕜 : Type} [RealScalar ρ] [ExactReal ρ]
    [EuclideanScalar α ρ] [RCLike 𝕜] [ExactEuclidean α ρ 𝕜] {m n : ℕ}
    {A : Matrix (Fin m) (Fin n) α} {a : MatrixView α} (ha : a.Shows A) :
    ∃ qr : QR α ρ, QR.of a = .ok qr ∧
      (LinearSolver.isNonSingular qr.solver = true ↔ LinearIndependent 𝕜
        fun k : Fin (min m n) => (A.map value).col (k.castLE (min_le_right m n))) ∧
      (LinearSolver.isNonSingular qr.solver = true →
        ∀ (c : ℕ) (B : Matrix (Fin m) (Fin c) α) (b : MatrixView α), b.Shows B →
          ∃ (x : DenseMatrix α) (X : Matrix (Fin n) (Fin c) α),
            LinearSolver.solveMatrix qr.solver b = .ok x ∧ x.Stores X ∧
            (n ≤ m → (A.map value)ᴴ * (A.map value * X.map value - B.map value) = 0 ∧
              IsLeastSquares (A.map value) (B.map value) (X.map value)) ∧
            (m ≤ n → A.map value * X.map value = B.map value ∧
              ∀ (i : Fin n) (j : Fin c), m ≤ (i : ℕ) → X i j = 0)) := by
  obtain ⟨qr, hqr, W, hW⟩ :=
    Ends.never_iff.1 (ends_ofThreshold ha (RealScalar.ofFloat defaultThreshold))
  have hlimit : value (qr.threshold * qr.norm) = 0 := by
    have hzero : value (RealScalar.ofFloat defaultThreshold : ρ) = 0 :=
      ExactReal.value_ofFloat_zero
    rw [ExactScalar.value_mul, threshold_eq hqr, hzero, zero_mul]
  have hflag : LinearSolver.isNonSingular qr.solver = true ↔ qr.solver.singular = false :=
    Iff.of_eq (Bool.not_eq_true' _)
  have hnonSingular := hflag.trans (hW.singular_eq_false_iff hlimit)
  refine ⟨qr, hqr, hnonSingular.trans hW.linearIndependent_iff.symm, ?_⟩
  intro hsolver c B b hb
  have hne := hnonSingular.1 hsolver
  obtain ⟨x, hx, X, hX, hzero, hresidual⟩ := Ends.never_iff.1 (hW.ends_solveMatrix hne hb)
  have hanswer : LinearSolver.solveMatrix qr.solver b = .ok x := by
    have hsingular : qr.solver = { factors := qr.factors, singular := false } := by
      rw [← hflag.1 hsolver]
      rfl
    rw [hsingular]
    exact hx
  refine ⟨x, X, hanswer, hX, fun hmn => ?_, fun hmn => ?_⟩
  · have hnormal := hW.normal_equations hmn hresidual
    have hcolumns := mulVec_injective_of_leading hmn (hW.linearIndependent_iff.2 hne)
    exact ⟨hnormal, isLeastSquares_of_normal hcolumns hnormal⟩
  · exact ⟨sub_eq_zero.1 (hW.eq_zero_of_reflected hmn hresidual),
      fun i j hi => hzero i j ((min_le_left m n).trans hi)⟩

/-- One complex column and a right-hand side that is no multiple of it: the answer keeps
the part along the column. -/
theorem solveMatrix_isLeastSquares_complex :
    letI := exactReal 1 1
    letI := exactReal.exact 1 1
    let A : Matrix (Fin 2) (Fin 1) (Cartesian ℝ) := !![⟨0, 0⟩; ⟨0, 1⟩]
    let B : Matrix (Fin 2) (Fin 1) (Cartesian ℝ) := !![⟨1, 0⟩; ⟨0, 2⟩]
    ∃ (qr : QR (Cartesian ℝ) ℝ) (x : DenseMatrix (Cartesian ℝ))
        (X : Matrix (Fin 1) (Fin 1) (Cartesian ℝ)),
      QR.of (.ofMatrix A) = .ok qr ∧ LinearSolver.isNonSingular qr.solver = true ∧
        LinearSolver.solveMatrix qr.solver (.ofMatrix B) = .ok x ∧ x.Stores X ∧
        X.map Cartesian.toComplex = !![2] := by
  let := exactReal 1 1
  let := exactReal.exact 1 1
  intro A B
  have hA₀ : A.map value 0 0 = 0 := Complex.ext rfl rfl
  have hA₁ : A.map value 1 0 = Complex.I := Complex.ext rfl rfl
  have hB₀ : B.map value 0 0 = 1 := Complex.ext rfl rfl
  have hB₁ : B.map value 1 0 = 2 * Complex.I := by
    have hre : (2 * Complex.I).re = 0 := by simp
    have him : (2 * Complex.I).im = 2 := by simp
    exact Complex.ext hre.symm him.symm
  obtain ⟨qr, hqr, hiff, hsolve⟩ := solveMatrix_isLeastSquares (MatrixView.ofMatrix_shows A)
  have hindependent : LinearIndependent ℂ fun k : Fin (min 2 1) =>
      (A.map value).col (k.castLE (min_le_right 2 1)) := by
    let : Unique (Fin (min 2 1)) := inferInstanceAs (Unique (Fin 1))
    refine linearIndependent_unique_iff.2 fun hzero => ?_
    exact Complex.I_ne_zero (hA₁.symm.trans (congrFun hzero 1))
  have hsolver := hiff.2 hindependent
  obtain ⟨x, X, hx, hX, htall, -⟩ := hsolve hsolver 1 B (.ofMatrix B) (MatrixView.ofMatrix_shows B)
  refine ⟨qr, x, X, hqr, hsolver, hx, hX, ?_⟩
  have hnormal := congrFun (congrFun (htall (by decide)).1 0) 0
  simp only [Matrix.mul_apply, Fin.sum_univ_two, Fin.sum_univ_one, Matrix.conjTranspose_apply,
    Matrix.sub_apply, hA₀, hA₁, hB₀, hB₁, Matrix.zero_apply] at hnormal
  have hentry : X.map value 0 0 = 2 := by
    simp only [star_zero, zero_mul, zero_add, RCLike.star_def, Complex.conj_I] at hnormal
    linear_combination hnormal + (X.map value 0 0 - 2) * Complex.I_mul_I
  ext i j
  fin_cases i
  fin_cases j
  exact hentry

end DenseFactor.QR
