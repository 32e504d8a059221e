import Mathlib
import DenseFactor.QR.Reflection
import DenseFactor.Proofs.QR.Reflector
import DenseFactor.Proofs.Scalar.Exact
import DenseFactor.Proofs.Stored

/-!
# DenseFactor.Proofs.QR.Reflection

What one Householder step does to the transposed working copy, over exact real or
complex elements.

Design points:

* `ReflectsRow k w w' a` is everything that the step at `k` does: the vector replaces
  the rest of its row, the rest of every later row is reflected along it, and nothing
  else changes. A step without a reflection is no exception, because its vector is
  zero.
* The step makes two passes over the matrix, `withHead` and `laterReflected`. That they
  reflect, one after the other, is algebra (`reflectsRow_laterReflected`); what each loop
  of the program computes is said apart from it.
-/

namespace DenseFactor.QR

open EuclideanScalar
open ExactScalar (value)

variable {α ρ 𝕜 : Type} [RealScalar ρ] [ExactReal ρ] [EuclideanScalar α ρ] [RCLike 𝕜]
  [ExactEuclidean α ρ 𝕜] {m n : ℕ} {E : Failure → Prop}

/-- The position `k` of the diagonal as a row of the factored matrix. -/
def asRow (k : Fin (min m n)) : Fin m := k.castLE (min_le_left m n)

/-- The position `k` of the diagonal as a column of the factored matrix. -/
def asCol (k : Fin (min m n)) : Fin n := k.castLE (min_le_right m n)

/-- What is left of column `k` from the diagonal on. -/
def columnRest (w : Matrix (Fin n) (Fin m) 𝕜) (k : Fin (min m n)) : Fin m → 𝕜 :=
  rest (asRow k) (w (asCol k))

/-- The transposed matrix `w'` is `w` with its column `k` reflected onto the diagonal,
where the entry `a` belongs, and all later columns with it. -/
structure ReflectsRow (k : Fin (min m n)) (w w' : Matrix (Fin n) (Fin m) 𝕜) (a : 𝕜) :
    Prop where
  entry : a = newEntry (w (asCol k) (asRow k)) (length (columnRest w k))
  /-- The rows before and the columns before stay. -/
  kept (i : Fin n) (j : Fin m) (h : i < asCol k ∨ j < asRow k) : w' i j = w i j
  /-- The vector replaces the row. -/
  vector (j : Fin m) (hj : asRow k ≤ j) :
    w' (asCol k) j = householder (columnRest w k) (asRow k) j
  /-- The later rows are reflected. -/
  later (i : Fin n) (j : Fin m) (hi : asCol k < i) (hj : asRow k ≤ j) :
    w' i j = w i j +
      (∑ t, star (householder (columnRest w k) (asRow k) t) * w i t) /
        pivotProduct (columnRest w k) (asRow k) * householder (columnRest w k) (asRow k) j

/-! ### The two passes -/

/-- The new diagonal entry subtracted from the head of the row. -/
def withHead (k : Fin (min m n)) (w : Matrix (Fin n) (Fin m) 𝕜) (a : 𝕜) :
    Matrix (Fin n) (Fin m) 𝕜 :=
  Matrix.of fun i j => if i = asCol k ∧ j = asRow k then w i j - a else w i j

/-- How much of row `k` a row has, from the diagonal on. -/
def along (k : Fin (min m n)) (w : Matrix (Fin n) (Fin m) 𝕜) (i : Fin n) : 𝕜 :=
  ∑ t : Fin m, if (k : ℕ) ≤ t then star (w (asCol k) t) * w i t else 0

/-- The later rows reflected along row `k`, which has replaced what it reflects. -/
def laterReflected (k : Fin (min m n)) (w : Matrix (Fin n) (Fin m) 𝕜) (a : 𝕜) :
    Matrix (Fin n) (Fin m) 𝕜 :=
  Matrix.of fun i j =>
    if asCol k < i ∧ asRow k ≤ j then
      w i j + along k w i / (star a * w (asCol k) (asRow k)) * w (asCol k) j
    else w i j

section Passes

variable {k : Fin (min m n)} {w : Matrix (Fin n) (Fin m) 𝕜} {a : 𝕜}

theorem withHead_self (k : Fin (min m n)) (w : Matrix (Fin n) (Fin m) 𝕜) (a : 𝕜) :
    withHead k w a (asCol k) (asRow k) = w (asCol k) (asRow k) - a :=
  if_pos ⟨rfl, rfl⟩

theorem withHead_of_ne (w : Matrix (Fin n) (Fin m) 𝕜) (a : 𝕜) {i : Fin n} {j : Fin m}
    (h : i ≠ asCol k ∨ j ≠ asRow k) : withHead k w a i j = w i j :=
  if_neg (not_and_or.2 h)

theorem laterReflected_of_lt (w : Matrix (Fin n) (Fin m) 𝕜) (a : 𝕜) {i : Fin n} {j : Fin m}
    (hi : asCol k < i) (hj : asRow k ≤ j) : laterReflected k w a i j =
      w i j + along k w i / (star a * w (asCol k) (asRow k)) * w (asCol k) j :=
  if_pos ⟨hi, hj⟩

theorem laterReflected_of_not (w : Matrix (Fin n) (Fin m) 𝕜) (a : 𝕜) {i : Fin n} {j : Fin m}
    (h : ¬ (asCol k < i ∧ asRow k ≤ j)) : laterReflected k w a i j = w i j :=
  if_neg h

/-- With its new head the row is the vector. -/
theorem withHead_eq_householder
    (ha : a = newEntry (w (asCol k) (asRow k)) (length (columnRest w k))) {j : Fin m}
    (hj : asRow k ≤ j) :
    withHead k w a (asCol k) j = householder (columnRest w k) (asRow k) j := by
  have hrest : columnRest w k j = w (asCol k) j := if_pos hj
  have hentry : newEntry (columnRest w k (asRow k)) (length (columnRest w k)) = a := by
    rw [ha, columnRest, rest_self]
  rw [householder, Pi.sub_apply, hrest, hentry]
  by_cases hjk : j = asRow k
  · rw [hjk, withHead_self, Pi.single_eq_same]
  · rw [withHead_of_ne _ _ (Or.inr hjk), Pi.single_eq_of_ne hjk, sub_zero]

theorem pivotProduct_withHead
    (ha : a = newEntry (w (asCol k) (asRow k)) (length (columnRest w k))) :
    star a * withHead k w a (asCol k) (asRow k) =
      pivotProduct (columnRest w k) (asRow k) := by
  rw [withHead_eq_householder ha le_rfl, ha, pivotProduct, columnRest, rest_self]

/-- The sum runs over all positions, because the vector starts with zeros. -/
theorem along_withHead
    (ha : a = newEntry (w (asCol k) (asRow k)) (length (columnRest w k))) {i : Fin n}
    (hi : asCol k < i) : along k (withHead k w a) i =
      ∑ t, star (householder (columnRest w k) (asRow k) t) * w i t := by
  refine Finset.sum_congr rfl fun t _ => ?_
  by_cases ht : asRow k ≤ t
  · have ht' : (k : ℕ) ≤ t := ht
    rw [if_pos ht', withHead_eq_householder ha ht, withHead_of_ne _ _ (Or.inl hi.ne')]
  · have ht' : ¬ (k : ℕ) ≤ t := ht
    rw [if_neg ht', columnRest, householder_rest_of_lt _ (not_le.1 ht), star_zero, zero_mul]

/-- The two passes, one after the other, are the step. -/
theorem reflectsRow_laterReflected
    (ha : a = newEntry (w (asCol k) (asRow k)) (length (columnRest w k))) :
    ReflectsRow k w (laterReflected k (withHead k w a) a) a where
  entry := ha
  kept i j h := by
    have hout : ¬ (asCol k < i ∧ asRow k ≤ j) := fun hij =>
      h.elim (absurd hij.1 ∘ not_lt_of_gt) (absurd hij.2 ∘ not_le_of_gt)
    rw [laterReflected_of_not _ _ hout, withHead_of_ne _ _ (h.imp ne_of_lt ne_of_lt)]
  vector j hj := by
    rw [laterReflected_of_not _ _ fun h => lt_irrefl _ h.1, withHead_eq_householder ha hj]
  later i j hi hj := by
    rw [laterReflected_of_lt _ _ hi hj, along_withHead ha hi, pivotProduct_withHead ha,
      withHead_eq_householder ha hj, withHead_of_ne _ _ (Or.inl hi.ne')]

/-- A column that is zero from the diagonal on is reflected already. -/
theorem reflectsRow_of_length (h : length (columnRest w k) = 0) : ReflectsRow k w w 0 where
  entry := by rw [(newEntry_eq_zero_iff _ _).2 h]
  kept _ _ _ := rfl
  vector j hj := by
    have hzero : columnRest w k j = 0 := by
      rw [eq_zero_of_length h]
      rfl
    rw [householder_of_length h]
    simpa [columnRest, rest, hj] using hzero
  later i j _ _ := by
    rw [householder_of_length h]
    simp

end Passes

/-! ### Sums of a step -/

variable {work : DenseMatrix α} {W : Matrix (Fin n) (Fin m) α}

theorem ends_restLength (hW : work.Stores W) (row : Fin n) (start : Fin m) :
    Ends E (fun size => value size = length (rest start (W.map value row)))
      (restLength work (row : ℕ) start) := by
  unfold restLength
  rw [hW.ncols]
  refine (ends_sum (K := ℝ) start.isLt.le (fun t => ‖value (W row t)‖ * ‖value (W row t)‖)
    fun t sum _ => ?_).bind fun squares hsquares => ?_
  · rw [hW.entry row t, Ends.ok_bind_iff]
    refine (ExactScalar.value_add _ _).trans ?_
    rw [ExactEuclidean.value_re, ExactScalar.value_mul, ExactEuclidean.value_conj,
      RCLike.star_def, RCLike.mul_conj, ← RCLike.ofReal_pow, RCLike.ofReal_re, sq]
  · have hrest : value squares =
        ∑ t, ‖rest start (W.map value row) t‖ * ‖rest start (W.map value row) t‖ := by
      rw [hsquares]
      refine Finset.sum_congr rfl fun t _ => ?_
      by_cases ht : (start : ℕ) ≤ t
      · simp [rest, ht]
      · simp [rest, ht]
    have hnonneg : 0 ≤ value squares := by
      rw [hrest]
      exact Finset.sum_nonneg fun t _ => mul_self_nonneg _
    refine (ExactReal.value_sqrt squares hnonneg).trans ?_
    rw [hrest]
    rfl

theorem value_diagonalEntry (head : α) (size : ρ) :
    value (diagonalEntry head size) = newEntry (value head) (value size) := by
  have hpos : (0 : ρ) < modulus head ↔ 0 < ‖value head‖ := by
    rw [ExactReal.lt_iff, ExactScalar.value_zero', ExactEuclidean.value_modulus]
  unfold diagonalEntry newEntry
  by_cases h : 0 < ‖value head‖
  · have hmodulus : value (ofReal (modulus head) : α) = (‖value head‖ : 𝕜) := by
      rw [ExactEuclidean.value_ofReal, ExactEuclidean.value_modulus]
    have hne : value (ofReal (modulus head) : α) ≠ 0 := by
      rw [hmodulus]
      exact_mod_cast h.ne'
    rw [if_pos (hpos.2 h), if_pos h, ExactScalar.value_sub, ExactScalar.value_mul,
      ExactScalar.value_div _ _ hne, hmodulus, ExactEuclidean.value_ofReal,
      ExactScalar.value_zero']
  · rw [if_neg (hpos.not.2 h), if_neg h, ExactEuclidean.value_ofReal]

theorem ends_alongVector (hW : work.Stores W) (k : Fin (min m n)) (row : Fin n) :
    Ends E (fun x => value x = along k (W.map value) row)
      (alongVector work (k : ℕ) row) := by
  unfold alongVector
  rw [hW.ncols]
  refine ends_sum (asRow k).isLt.le (fun t => star (value (W (asCol k) t)) * value (W row t))
    fun t sum _ => ?_
  have hread : work.entry (k : ℕ) t = .ok (W (asCol k) t) := hW.entry (asCol k) t
  rw [hread, hW.entry row t]
  refine (ExactScalar.value_add _ _).trans ?_
  rw [ExactScalar.value_mul, ExactEuclidean.value_conj]

/-! ### The passes of a step -/

theorem ends_subtractHead (hW : work.Stores W) (k : Fin (min m n)) (entry : α) :
    Ends E (fun work' => ∃ W' : Matrix (Fin n) (Fin m) α, work'.Stores W' ∧
        W'.map value = withHead k (W.map value) (value entry))
      (work.mapEntries fun i j x =>
        .ok (if i = (k : ℕ) ∧ j = (k : ℕ) then W (asCol k) (asRow k) - entry else x)) := by
  refine Ends.mapEntries_map hW fun i j => ?_
  have hiff : ((i : ℕ) = k ∧ (j : ℕ) = k) ↔ (i = asCol k ∧ j = asRow k) := by
    rw [Fin.ext_iff, Fin.ext_iff]
    rfl
  by_cases h : i = asCol k ∧ j = asRow k
  · rw [if_pos (hiff.2 h), h.1, h.2, withHead_self]
    exact ExactScalar.value_sub _ _
  · rw [if_neg (hiff.not.2 h), withHead_of_ne _ _ (not_and_or.1 h)]
    rfl

theorem ends_reflectRows (hW : work.Stores W) (k : Fin (min m n)) (entry : α)
    (hne : star (value entry) * value (W (asCol k) (asRow k)) ≠ 0) :
    Ends E (fun work' => ∃ W' : Matrix (Fin n) (Fin m) α, work'.Stores W' ∧
        W'.map value = laterReflected k (W.map value) (value entry))
      (reflectRows work (k : ℕ) entry) := by
  have hhead : work.entry (k : ℕ) k = .ok (W (asCol k) (asRow k)) :=
    hW.entry (asCol k) (asRow k)
  have hdenominator : value (conj entry * W (asCol k) (asRow k)) =
      star (value entry) * value (W (asCol k) (asRow k)) := by
    rw [ExactScalar.value_mul, ExactEuclidean.value_conj]
  unfold reflectRows
  rw [hhead, Ends.ok_bind_iff, hW.nrows]
  -- the factor of a row that is not reflected is never read
  refine Ends.bind (Ends.collect (P := fun i y => asCol k < i → value y =
    along k (W.map value) i / (star (value entry) * value (W (asCol k) (asRow k))))
    fun i => ?_) ?_
  · by_cases hi : (k : ℕ) < i
    · rw [if_pos hi]
      refine (ends_alongVector hW k i).bind fun x hx _ => ?_
      rw [ExactScalar.value_div _ _ (hdenominator ▸ hne), hdenominator, hx]
    · rw [if_neg hi]
      exact fun hi' => absurd hi' hi
  · intro factors hfactors
    obtain ⟨x, hx⟩ := hfactors
    refine Ends.mapEntries_map hW fun i j => ?_
    have hiff : ((k : ℕ) < i ∧ (k : ℕ) ≤ j) ↔ (asCol k < i ∧ asRow k ≤ j) := Iff.rfl
    by_cases h : asCol k < i ∧ asRow k ≤ j
    · have hread : work.entry (k : ℕ) j = .ok (W (asCol k) j) := hW.entry (asCol k) j
      rw [if_pos (hiff.2 h), (hx i).1, Ends.ok_bind_iff, hread, laterReflected_of_lt _ _ h.1 h.2]
      refine (ExactScalar.value_add _ _).trans ?_
      rw [ExactScalar.value_mul, (hx i).2 h.1]
      rfl
    · rw [if_neg (hiff.not.2 h), laterReflected_of_not _ _ h]
      rfl

/-! ### The step -/

/-- One step reflects a row. -/
theorem ends_reflect (hW : work.Stores W) (k : Fin (min m n)) :
    Ends E (fun result => ∃ W' : Matrix (Fin n) (Fin m) α, result.1.Stores W' ∧
        ReflectsRow k (W.map value) (W'.map value) (value result.2))
      (reflect work (k : ℕ)) := by
  have hhead : work.entry (k : ℕ) k = .ok (W (asCol k) (asRow k)) :=
    hW.entry (asCol k) (asRow k)
  unfold reflect
  refine (ends_restLength hW (asCol k) (asRow k)).bind fun size hsize => ?_
  rw [hhead, Ends.ok_bind_iff]
  have hentry : value (diagonalEntry (W (asCol k) (asRow k)) size) =
      newEntry (W.map value (asCol k) (asRow k)) (length (columnRest (W.map value) k)) := by
    rw [value_diagonalEntry, hsize]
    rfl
  dsimp only
  generalize diagonalEntry (W (asCol k) (asRow k)) size = entry at hentry ⊢
  by_cases hzero : (entry == 0) = true
  · have hvalue : value entry = 0 := by
      rw [(ExactScalar.eq_iff entry 0).1 hzero, ExactScalar.value_zero']
    rw [if_pos hzero]
    refine ⟨W, hW, ?_⟩
    rw [hvalue]
    exact reflectsRow_of_length ((newEntry_eq_zero_iff _ _).1 (hentry.symm.trans hvalue))
  · have hlength : length (columnRest (W.map value) k) ≠ 0 := fun h => hzero <| by
      rw [ExactScalar.eq_iff, ExactScalar.value_zero', hentry, newEntry_eq_zero_iff]
      exact h
    rw [if_neg hzero]
    refine (ends_subtractHead hW k entry).bind ?_
    intro work₁ hwork₁
    obtain ⟨W₁, hW₁, h₁⟩ := hwork₁
    -- the second pass divides by the pivot product, which only a zero row makes zero
    have hne : star (value entry) * value (W₁ (asCol k) (asRow k)) ≠ 0 := fun h =>
      hlength <| length_eq_zero_of_pivotProduct <| by
        rw [← pivotProduct_withHead hentry, ← h₁]
        exact h
    refine (ends_reflectRows hW₁ k entry hne).bind ?_
    intro work₂ hwork₂
    obtain ⟨W₂, hW₂, h₂⟩ := hwork₂
    refine ⟨W₂, hW₂, ?_⟩
    rw [h₂, h₁]
    exact reflectsRow_laterReflected hentry

end DenseFactor.QR
