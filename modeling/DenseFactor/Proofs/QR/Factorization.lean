import Mathlib
import DenseFactor.QR.Basic
import DenseFactor.Proofs.QR.Reflection
import DenseFactor.Proofs.Scalar.Real

/-!
# DenseFactor.Proofs.QR.Factorization

Over exact real or complex elements a QR decomposition **is a factorization** into a
unitary and an upper triangular matrix, for any shape and rank.

Design points:

* The factors left behind determine the reflectors. `composed H k` applies the first
  `k` of them, the first one first.
* The invariant of the reduction is that the composed reflectors take `A` to the matrix
  that the factors stand for so far (`Factors.Represents`), with the finished columns
  in the shape of `R`.
* The unitary factor is built backwards. Its invariant is that the matrix so far,
  times the reflectors that are left, is the composition of all; the first rows are
  still those of the identity, so passing over them changes nothing.
-/

namespace DenseFactor.QR

open EuclideanScalar
open ExactScalar (value)
open scoped Matrix

variable {𝕜 : Type} [RCLike 𝕜] {m n : ℕ}

noncomputable section

/-! ### Compositions -/

/-- The first `k` matrices, applied in order. -/
def composed {p : ℕ} (H : Fin p → Matrix (Fin m) (Fin m) 𝕜) : ℕ → Matrix (Fin m) (Fin m) 𝕜
  | 0 => 1
  | k + 1 => if h : k < p then H ⟨k, h⟩ * composed H k else composed H k

section Composed

variable {p : ℕ} {H : Fin p → Matrix (Fin m) (Fin m) 𝕜}

theorem composed_succ (k : Fin p) : composed H (k + 1) = H k * composed H k :=
  dif_pos k.isLt

theorem composed_congr {H' : Fin p → Matrix (Fin m) (Fin m) 𝕜} {k : ℕ}
    (h : ∀ i : Fin p, (i : ℕ) < k → H i = H' i) : composed H k = composed H' k := by
  induction k with
  | zero => rfl
  | succ k ih =>
      have hk := ih fun i hi => h i (by omega)
      by_cases hkp : k < p
      · rw [composed_succ ⟨k, hkp⟩, composed_succ ⟨k, hkp⟩, hk, h ⟨k, hkp⟩ (Nat.lt_succ_self k)]
      · rw [composed, composed, dif_neg hkp, dif_neg hkp, hk]

/-- A composition of unitary matrices is unitary. -/
theorem composed_unitary_of_lt {k : ℕ} (h : ∀ i : Fin p, (i : ℕ) < k → (H i)ᴴ * H i = 1) :
    (composed H k)ᴴ * composed H k = 1 := by
  induction k with
  | zero => simp [composed]
  | succ k ih =>
      have hbefore := ih fun i hi => h i (Nat.lt_succ_of_lt hi)
      by_cases hkp : k < p
      · rw [composed_succ ⟨k, hkp⟩, Matrix.conjTranspose_mul, Matrix.mul_assoc,
          ← Matrix.mul_assoc _ (H ⟨k, hkp⟩), h _ (Nat.lt_succ_self k), Matrix.one_mul, hbefore]
      · rwa [composed, dif_neg hkp]

theorem composed_unitary (h : ∀ i, (H i)ᴴ * H i = 1) (k : ℕ) :
    (composed H k)ᴴ * composed H k = 1 :=
  composed_unitary_of_lt fun i _ => h i

end Composed

/-! ### What the factors stand for -/

/-- The reflector that the step at `k` leaves behind in the transposed copy `w` and the
diagonal `d`. -/
def leftReflector (w : Matrix (Fin n) (Fin m) 𝕜) (d : ℕ → 𝕜) (k : Fin (min m n)) :
    Matrix (Fin m) (Fin m) 𝕜 :=
  reflector (columnRest w k) (star (d k) * w (asCol k) (asRow k))

/-- The matrix with `k` finished columns: these are upper triangular, the others stand
in the copy as they are. -/
def reducedMatrix (w : Matrix (Fin n) (Fin m) 𝕜) (d : ℕ → 𝕜) (k : ℕ) :
    Matrix (Fin m) (Fin n) 𝕜 :=
  Matrix.of fun i j =>
    if (j : ℕ) < k then
      if (i : ℕ) < j then w j i else if (i : ℕ) = j then d j else 0
    else w j i

theorem reducedMatrix_of_lt (w : Matrix (Fin n) (Fin m) 𝕜) (d : ℕ → 𝕜) {k : ℕ} (i : Fin m)
    {j : Fin n} (hj : (j : ℕ) < k) : reducedMatrix w d k i j =
      if (i : ℕ) < j then w j i else if (i : ℕ) = j then d j else 0 :=
  if_pos hj

theorem reducedMatrix_of_le (w : Matrix (Fin n) (Fin m) 𝕜) (d : ℕ → 𝕜) {k : ℕ} (i : Fin m)
    {j : Fin n} (hj : k ≤ (j : ℕ)) : reducedMatrix w d k i j = w j i :=
  if_neg (not_lt.2 hj)

theorem columnRest_of_le (w : Matrix (Fin n) (Fin m) 𝕜) (k : Fin (min m n)) {i : Fin m}
    (hi : asRow k ≤ i) : columnRest w k i = w (asCol k) i :=
  if_pos hi

theorem columnRest_of_lt (w : Matrix (Fin n) (Fin m) 𝕜) (k : Fin (min m n)) {i : Fin m}
    (hi : i < asRow k) : columnRest w k i = 0 :=
  if_neg (not_le.2 hi)

theorem columnRest_congr {w w' : Matrix (Fin n) (Fin m) 𝕜} {k : Fin (min m n)}
    (h : ∀ j, w' (asCol k) j = w (asCol k) j) : columnRest w' k = columnRest w k := by
  unfold columnRest rest
  funext j
  rw [h j]

/-- A step whose vector starts with zero made no reflection. -/
theorem leftReflector_of_head {w : Matrix (Fin n) (Fin m) 𝕜} {d : ℕ → 𝕜} {k : Fin (min m n)}
    (h : w (asCol k) (asRow k) = 0) : leftReflector w d k = 1 := by
  rw [leftReflector, h, mul_zero, reflector_zero]

/-- What the step at `k` leaves behind, the vector and the diagonal entry, belongs to the
reflection of one column. -/
def LeavesReflection (w : Matrix (Fin n) (Fin m) 𝕜) (d : ℕ → 𝕜) (k : Fin (min m n)) : Prop :=
  ∃ x : Fin m → 𝕜, d k = newEntry (x (asRow k)) (length x) ∧
    columnRest w k = householder x (asRow k)

namespace LeavesReflection

variable {w w' : Matrix (Fin n) (Fin m) 𝕜} {d d' : ℕ → 𝕜} {k : Fin (min m n)}

/-- It stays as long as the row and the entry do. -/
theorem congr (h : LeavesReflection w d k) (hrow : ∀ j, w' (asCol k) j = w (asCol k) j)
    (hd : d' k = d k) : LeavesReflection w' d' k := by
  obtain ⟨x, hentry, hvector⟩ := h
  exact ⟨x, hd.trans hentry, (columnRest_congr hrow).trans hvector⟩

theorem pivotProduct_eq {x : Fin m → 𝕜} (hd : d k = newEntry (x (asRow k)) (length x))
    (hx : columnRest w k = householder x (asRow k)) :
    star (d k) * w (asCol k) (asRow k) = pivotProduct x (asRow k) := by
  rw [← columnRest_of_le w k le_rfl, hx, hd, pivotProduct]

/-- It is a reflector. -/
theorem reflecting (h : LeavesReflection w d k) : star (columnRest w k) ⬝ᵥ columnRest w k =
    -2 * (star (d k) * w (asCol k) (asRow k)) := by
  obtain ⟨x, hd, hx⟩ := h
  rw [pivotProduct_eq hd hx, hx, star_householder_dot_self]

/-- Only a step without a reflection leaves a vector that starts with zero. -/
theorem entry_eq_zero (h : LeavesReflection w d k) (hhead : w (asCol k) (asRow k) = 0) :
    d k = 0 := by
  obtain ⟨x, hd, hx⟩ := h
  have hproduct : pivotProduct x (asRow k) = 0 := by
    rw [← pivotProduct_eq hd hx, hhead, mul_zero]
  rw [hd, newEntry_eq_zero_iff]
  exact length_eq_zero_of_pivotProduct hproduct

end LeavesReflection

/-- Reflecting only the rows from the diagonal on. -/
def laterRows (w : Matrix (Fin n) (Fin m) 𝕜) (d : ℕ → 𝕜) (k : Fin (min m n))
    (Z : Matrix (Fin m) (Fin m) 𝕜) : Matrix (Fin m) (Fin m) 𝕜 :=
  Matrix.of fun i j => if asRow k ≤ i then (Z * leftReflector w d k) i j else Z i j

theorem laterRows_of_le (w : Matrix (Fin n) (Fin m) 𝕜) (d : ℕ → 𝕜) {k : Fin (min m n)}
    (Z : Matrix (Fin m) (Fin m) 𝕜) {i : Fin m} (j : Fin m) (hi : asRow k ≤ i) :
    laterRows w d k Z i j = Z i j + (∑ t, Z i t * columnRest w k t) /
      (star (d k) * w (asCol k) (asRow k)) * star (columnRest w k j) := by
  rw [← mul_reflector_apply]
  exact if_pos hi

theorem laterRows_of_lt (w : Matrix (Fin n) (Fin m) 𝕜) (d : ℕ → 𝕜) {k : Fin (min m n)}
    (Z : Matrix (Fin m) (Fin m) 𝕜) {i : Fin m} (j : Fin m) (hi : i < asRow k) :
    laterRows w d k Z i j = Z i j :=
  if_neg (not_le.2 hi)

/-- If the rows before the diagonal are those of the identity, the reflection changes
nothing there. -/
theorem laterRows_eq_mul (w : Matrix (Fin n) (Fin m) 𝕜) (d : ℕ → 𝕜) {k : Fin (min m n)}
    {Z : Matrix (Fin m) (Fin m) 𝕜} (hZ : ∀ i j, i < asRow k → Z i j = (1 : Matrix _ _ 𝕜) i j) :
    laterRows w d k Z = Z * leftReflector w d k := by
  ext i j
  by_cases hi : asRow k ≤ i
  · exact if_pos hi
  · have hlt : i < asRow k := not_le.1 hi
    have hsum : ∑ t, Z i t * columnRest w k t = 0 := by
      have hrow (t : Fin m) : Z i t = (1 : Matrix (Fin m) (Fin m) 𝕜) i t := hZ i t hlt
      simp only [hrow, Matrix.one_apply, ite_mul, one_mul, zero_mul, Finset.sum_ite_eq,
        Finset.mem_univ, if_true]
      exact columnRest_of_lt w k hlt
    rw [laterRows_of_lt w d Z j hlt, leftReflector, mul_reflector_apply, hsum, zero_div, zero_mul,
      add_zero]

section Step

variable {k : Fin (min m n)} {w w' : Matrix (Fin n) (Fin m) 𝕜} {d d' : ℕ → 𝕜} {a : 𝕜}

/-- A step leaves its vector behind. -/
theorem ReflectsRow.columnRest_eq (h : ReflectsRow k w w' a) :
    columnRest w' k = householder (columnRest w k) (asRow k) := by
  funext j
  by_cases hj : asRow k ≤ j
  · have hj' : (asRow k : ℕ) ≤ j := hj
    have hvector := h.vector j hj
    simpa [columnRest, rest, hj'] using hvector
  · have hj' : ¬ (asRow k : ℕ) ≤ j := hj
    have hzero := householder_rest_of_lt (w (asCol k)) (not_le.1 hj)
    rw [← columnRest] at hzero
    rw [hzero]
    simp [columnRest, rest, hj']

/-- A step leaves its pivot product behind. -/
theorem ReflectsRow.pivotProduct_eq (h : ReflectsRow k w w' a) :
    star a * w' (asCol k) (asRow k) = pivotProduct (columnRest w k) (asRow k) := by
  rw [h.vector _ le_rfl, h.entry, pivotProduct, columnRest, rest_self]

/-- The reflectors of the steps before are still there. -/
theorem ReflectsRow.leftReflector_of_lt (h : ReflectsRow k w w' a) {i : Fin (min m n)}
    (hi : (i : ℕ) < k) (hd : d' i = d i) : leftReflector w' d' i = leftReflector w d i := by
  have hrow (j : Fin m) : w' (asCol i) j = w (asCol i) j := h.kept _ _ (Or.inl hi)
  rw [leftReflector, leftReflector, columnRest_congr hrow, hrow, hd]

theorem ReflectsRow.leftReflector_self (h : ReflectsRow k w w' a) (hd : d' k = a) :
    leftReflector w' d' k =
      reflector (householder (columnRest w k) (asRow k))
        (pivotProduct (columnRest w k) (asRow k)) := by
  rw [leftReflector, h.columnRest_eq, hd, h.pivotProduct_eq]

/-- A step leaves a reflection behind. -/
theorem ReflectsRow.leaves (h : ReflectsRow k w w' a) (hd : d' k = a) :
    LeavesReflection w' d' k := by
  refine ⟨columnRest w k, ?_, h.columnRest_eq⟩
  rw [hd, h.entry, columnRest, rest_self]

/-- What the steps before left behind stays. -/
theorem ReflectsRow.leaves_of_lt (h : ReflectsRow k w w' a) {i : Fin (min m n)}
    (hi : (i : ℕ) < k) (hd : d' i = d i) (hbefore : LeavesReflection w d i) :
    LeavesReflection w' d' i :=
  hbefore.congr (fun _ => h.kept _ _ (Or.inl hi)) hd

/-- A finished column is zero where the vector is not. -/
theorem ReflectsRow.reflect_finished (h : ReflectsRow k w w' a)
    (hd : ∀ i, i < (k : ℕ) → d' i = d i) (i : Fin m) {j : Fin n} (hj : j < asCol k) :
    reducedMatrix w d k i j +
        (∑ t, star (householder (columnRest w k) (asRow k) t) * reducedMatrix w d k t j) /
          pivotProduct (columnRest w k) (asRow k) * householder (columnRest w k) (asRow k) i =
      reducedMatrix w' d' (k + 1) i j := by
  have hjk : (j : ℕ) < k := hj
  have hsum : ∑ t, star (householder (columnRest w k) (asRow k) t) *
      reducedMatrix w d k t j = 0 := by
    refine Finset.sum_eq_zero fun t _ => ?_
    by_cases ht : t < asRow k
    · rw [columnRest, householder_rest_of_lt _ ht, star_zero, zero_mul]
    · have htk : (k : ℕ) ≤ t := not_lt.1 ht
      rw [reducedMatrix_of_lt w d t hjk, if_neg (by omega), if_neg (by omega), mul_zero]
  have hrow : w' j i = w j i := h.kept j i (Or.inl hj)
  rw [hsum, zero_div, zero_mul, add_zero, reducedMatrix_of_lt w d i hjk,
    reducedMatrix_of_lt w' d' i (Nat.lt_succ_of_lt hjk), hrow, hd j hjk]

/-- The column of the step is taken to its new entry. -/
theorem ReflectsRow.reflect_column (h : ReflectsRow k w w' a) (hdk : d' k = a) (i : Fin m) :
    w (asCol k) i +
        (∑ t, star (householder (columnRest w k) (asRow k) t) * w (asCol k) t) /
          pivotProduct (columnRest w k) (asRow k) * householder (columnRest w k) (asRow k) i =
      reducedMatrix w' d' (k + 1) i (asCol k) := by
  have hkk : ((asCol k : Fin n) : ℕ) < (k : ℕ) + 1 := Nat.lt_succ_self (k : ℕ)
  rw [reducedMatrix_of_lt w' d' i hkk]
  by_cases hi : i < asRow k
  · have hik : (i : ℕ) < (asCol k : Fin n) := hi
    have hbefore : householder (columnRest w k) (asRow k) i = 0 := householder_rest_of_lt _ hi
    rw [hbefore, mul_zero, add_zero, if_pos hik, h.kept (asCol k) i (Or.inr hi)]
  · have hik : ¬ (i : ℕ) < (asCol k : Fin n) := hi
    have hsum : ∑ t, star (householder (columnRest w k) (asRow k) t) * w (asCol k) t =
        ∑ t, star (householder (columnRest w k) (asRow k) t) * columnRest w k t := by
      refine Finset.sum_congr rfl fun t _ => ?_
      by_cases ht : t < asRow k
      · rw [columnRest, householder_rest_of_lt _ ht, star_zero, zero_mul, zero_mul]
      · rw [columnRest_of_le w k (not_lt.1 ht)]
    have hiff : (i : ℕ) = (asCol k : Fin n) ↔ i = asRow k := by
      rw [Fin.ext_iff]
      rfl
    have hentry : newEntry (columnRest w k (asRow k)) (length (columnRest w k)) =
        d' (asCol k : Fin n) := by
      rw [columnRest_of_le w k le_rfl, ← h.entry]
      exact hdk.symm
    rw [hsum, ← columnRest_of_le w k (not_lt.1 hi), add_householder, hentry, if_neg hik]
    simp only [hiff]

/-- The reflector of a step takes the matrix before it to the matrix after it. -/
theorem ReflectsRow.leftReflector_mul (h : ReflectsRow k w w' a)
    (hd : ∀ i, i < (k : ℕ) → d' i = d i) (hdk : d' k = a) :
    leftReflector w' d' k * reducedMatrix w d k = reducedMatrix w' d' (k + 1) := by
  rw [h.leftReflector_self hdk]
  ext i j
  rw [reflector_mul_apply]
  by_cases hj : j < asCol k
  · exact h.reflect_finished hd i hj
  have hcolumn (t : Fin m) : reducedMatrix w d k t j = w j t :=
    reducedMatrix_of_le w d t (not_lt.1 hj)
  simp only [hcolumn]
  by_cases hjk : j = asCol k
  · rw [hjk]
    exact h.reflect_column hdk i
  · have hlater : asCol k < j := lt_of_le_of_ne (not_lt.1 hj) (Ne.symm hjk)
    have hlater' : (k : ℕ) + 1 ≤ j := hlater
    rw [reducedMatrix_of_le w' d' i hlater']
    by_cases hi : i < asRow k
    · have hbefore : householder (columnRest w k) (asRow k) i = 0 := householder_rest_of_lt _ hi
      rw [hbefore, mul_zero, add_zero, h.kept j i (Or.inr hi)]
    · exact (h.later j i hlater (not_lt.1 hi)).symm

end Step

/-! ### The reduction -/

section Reduction

variable {α ρ : Type} [RealScalar ρ] [ExactReal ρ] [EuclideanScalar α ρ]
  [ExactEuclidean α ρ 𝕜] {E : Failure → Prop}

/-- The diagonal entries, with zeros after the last. -/
def Factors.entries (f : Factors α) (i : ℕ) : 𝕜 := value (f.diagonal.getD i 0)

omit [RealScalar ρ] [ExactReal ρ] in
theorem Factors.read_diagonal (f : Factors α) {i : ℕ} (hi : i < f.diagonal.size) :
    Storage.read f.diagonal i = .ok (f.diagonal.getD i 0) := by
  rw [Storage.read_of_lt hi, Array.getD_eq_getD_getElem?, Array.getElem?_eq_getElem hi]
  rfl

/-- The factors after `k` steps, with the transposed copy `W`: the reflectors left
behind take `A` to the matrix with `k` finished columns. -/
structure Factors.Represents (f : Factors α) (A : Matrix (Fin m) (Fin n) α) (k : ℕ)
    (W : Matrix (Fin n) (Fin m) α) : Prop where
  work : f.work.Stores W
  size : f.diagonal.size = k
  leaves (i : Fin (min m n)) (hi : (i : ℕ) < k) : LeavesReflection (W.map value) f.entries i
  product : composed (leftReflector (W.map value) f.entries) k * A.map value =
    reducedMatrix (W.map value) f.entries k

theorem Factors.Represents.reflecting {f : Factors α} {A : Matrix (Fin m) (Fin n) α} {k : ℕ}
    {W : Matrix (Fin n) (Fin m) α} (h : f.Represents A k W) (i : Fin (min m n))
    (hi : (i : ℕ) < k) : star (columnRest (W.map value) i) ⬝ᵥ columnRest (W.map value) i =
      -2 * (star (f.entries i) * value (W (asCol i) (asRow i))) :=
  (h.leaves i hi).reflecting

/-- What takes the matrix to the finished columns is unitary. -/
theorem Factors.Represents.unitary {f : Factors α} {A : Matrix (Fin m) (Fin n) α} {k : ℕ}
    {W : Matrix (Fin n) (Fin m) α} (h : f.Represents A k W) :
    (composed (leftReflector (W.map value) f.entries) k)ᴴ *
      composed (leftReflector (W.map value) f.entries) k = 1 :=
  composed_unitary_of_lt fun i hi => reflector_unitary (h.reflecting i hi)

/-- A zero in the place of a head stands for no reflection. -/
theorem Factors.Represents.entry_eq_zero {f : Factors α} {A : Matrix (Fin m) (Fin n) α} {k : ℕ}
    {W : Matrix (Fin n) (Fin m) α} (h : f.Represents A k W) (i : Fin (min m n))
    (hi : (i : ℕ) < k) (hhead : value (W (asCol i) (asRow i)) = 0) : f.entries i = 0 :=
  (h.leaves i hi).entry_eq_zero hhead

theorem Factors.represents_start {A : Matrix (Fin m) (Fin n) α} {work : DenseMatrix α}
    (h : work.Stores A.transpose) :
    Factors.Represents { work, diagonal := #[] } A 0 A.transpose where
  work := h
  size := rfl
  leaves _ hi := absurd hi (Nat.not_lt_zero _)
  product := by
    rw [composed, Matrix.one_mul]
    ext i j
    rw [reducedMatrix_of_le _ _ _ (Nat.zero_le _)]
    rfl

/-- A step keeps what the factors stand for; it reflects one row and adds one entry. -/
theorem Factors.Represents.step {f : Factors α} {A : Matrix (Fin m) (Fin n) α}
    {k : Fin (min m n)} {W : Matrix (Fin n) (Fin m) α} (h : f.Represents A k W) :
    Ends E (fun f' => ∃ W', f'.Represents A (k + 1) W' ∧
        ReflectsRow k (W.map value) (W'.map value) (f'.entries k) ∧
        ∀ i < (k : ℕ), f'.entries i = f.entries i) (f.step (k : ℕ)) := by
  unfold Factors.step
  refine (ends_reflect h.work k).bind ?_
  intro result hresult
  obtain ⟨work', entry⟩ := result
  obtain ⟨W', hW', hreflects⟩ := hresult
  let f' : Factors α := { work := work', diagonal := f.diagonal.push entry }
  -- the new entry is the last, and those of the steps before stay
  have hd (i : ℕ) (hi : i < (k : ℕ)) : f'.entries i = f.entries i := by
    have hi' : i < f.diagonal.size := h.size.symm ▸ hi
    simp [Factors.entries, f', Array.getElem?_push, hi'.ne]
  have hdk : f'.entries (k : ℕ) = value entry := by
    simp [Factors.entries, f', ← h.size]
  have hearlier (i : Fin (min m n)) (hi : (i : ℕ) < k) :
      leftReflector (W'.map value) f'.entries i = leftReflector (W.map value) f.entries i :=
    hreflects.leftReflector_of_lt hi (hd i hi)
  refine ⟨W', ⟨hW', ?_, fun i hi => ?_, ?_⟩, hdk.symm ▸ hreflects, hd⟩
  · simp [h.size]
  · by_cases hik : i = k
    · subst hik
      exact hreflects.leaves hdk
    · have hlt : (i : ℕ) < k := by omega
      exact hreflects.leaves_of_lt hlt (hd i hlt) (h.leaves i hlt)
  · change composed (leftReflector (W'.map value) f'.entries) (k + 1) * _ =
      reducedMatrix (W'.map value) f'.entries (k + 1)
    rw [composed_succ, composed_congr hearlier, Matrix.mul_assoc, h.product,
      hreflects.leftReflector_mul hd hdk]

/-- The transposed copy. -/
theorem Factors.ends_transposed {A : Matrix (Fin m) (Fin n) α} {a : MatrixView α}
    (ha : a.Shows A) : Ends E (·.Stores A.transpose) (Factors.transposed a) := by
  unfold Factors.transposed
  rw [ha.nrows, ha.ncols]
  exact Ends.tabulate_of_ok fun i j => ha.entry j i

/-- The factors of any matrix. -/
theorem ends_ofThreshold {A : Matrix (Fin m) (Fin n) α} {a : MatrixView α} (ha : a.Shows A)
    (threshold : ρ) :
    Ends E (fun qr => ∃ W, qr.factors.Represents A (min m n) W) (ofThreshold threshold a) := by
  unfold ofThreshold
  rw [ha.nrows, ha.ncols]
  refine (Factors.ends_transposed ha).bind fun work hwork => ?_
  refine Ends.bind (Ends.foldlM_positions
    (I := fun k f => ∃ W : Matrix (Fin n) (Fin m) α, f.Represents A k W) (Nat.zero_le _)
    ⟨A.transpose, Factors.represents_start hwork⟩ ?_) ?_
  · intro k f _ hk hf
    obtain ⟨W, hW⟩ := hf
    refine (hW.step (k := ⟨k, hk⟩)).imp fun f' hf' => ?_
    obtain ⟨W', hW', -, -⟩ := hf'
    exact ⟨W', hW'⟩
  · intro f hf
    obtain ⟨W, hW⟩ := hf
    exact ⟨W, hW⟩

/-! ### The factors -/

variable {f : Factors α} {A : Matrix (Fin m) (Fin n) α} {W : Matrix (Fin n) (Fin m) α}

/-- The triangular factor. -/
theorem Factors.Represents.ends_upper (h : f.Represents A (min m n) W) :
    Ends E (fun r => ∃ R : Matrix (Fin m) (Fin n) α, r.Stores R ∧
        R.map value = reducedMatrix (W.map value) f.entries (min m n) ∧
        ∀ (i : Fin m) (j : Fin n), (j : ℕ) < i → R i j = 0) f.upper := by
  unfold Factors.upper
  have hrows : f.nrows = m := h.work.ncols
  have hcols : f.ncols = n := h.work.nrows
  rw [hrows, hcols]
  let P (i : Fin m) (j : Fin n) (x : α) : Prop :=
    value x = reducedMatrix (W.map value) f.entries (min m n) i j ∧ ((j : ℕ) < i → x = 0)
  refine (Ends.tabulate (P := P) fun i j => ?_).imp ?_
  · by_cases hij : (i : ℕ) = j
    · have hj : (j : ℕ) < min m n := by omega
      rw [if_pos hij, f.read_diagonal (by rw [h.size]; omega)]
      refine ⟨?_, fun hlt => absurd hlt (by omega)⟩
      rw [reducedMatrix_of_lt _ _ _ hj, if_neg (by omega), if_pos hij, hij]
      rfl
    · rw [if_neg hij]
      by_cases hlt : (i : ℕ) < j
      · rw [if_pos hlt, h.work.entry j i]
        refine ⟨?_, fun hgt => absurd hgt (by omega)⟩
        by_cases hj : (j : ℕ) < min m n
        · rw [reducedMatrix_of_lt _ _ _ hj, if_pos hlt]
          rfl
        · rw [reducedMatrix_of_le _ _ _ (not_lt.1 hj)]
          rfl
      · have hj : (j : ℕ) < min m n := by omega
        rw [if_neg hlt]
        refine ⟨?_, fun _ => rfl⟩
        rw [reducedMatrix_of_lt _ _ _ hj, if_neg hlt, if_neg hij, ExactScalar.value_zero']
  · intro r hr
    obtain ⟨R, hR, hentries⟩ := hr
    refine ⟨R, hR, ?_, fun i j hji => (hentries i j).2 hji⟩
    ext i j
    exact (hentries i j).1

/-- A reflection whose product is zero was not made. -/
theorem Factors.Represents.head_eq_zero (h : f.Represents A (min m n) W) (k : Fin (min m n))
    (hzero : star (f.entries k) * value (W (asCol k) (asRow k)) = 0) :
    value (W (asCol k) (asRow k)) = 0 := by
  have hdot := h.reflecting k k.isLt
  rw [hzero, mul_zero] at hdot
  have hsquare : (length (columnRest (W.map value) k) : 𝕜) *
      (length (columnRest (W.map value) k) : 𝕜) = 0 := by
    rw [length_mul_self]
    exact hdot
  have hlength : length (columnRest (W.map value) k) = 0 := by
    have hreal := mul_self_eq_zero.1 hsquare
    exact_mod_cast hreal
  have hhead := congrFun (eq_zero_of_length hlength) (asRow k)
  rwa [columnRest_of_le _ _ le_rfl] at hhead

/-- The product of a row and the rest of a column. -/
theorem Factors.Represents.ends_rowSum (h : f.Represents A (min m n) W) (k : Fin (min m n))
    {z : DenseMatrix α} {Z : Matrix (Fin m) (Fin m) α} (hZ : z.Stores Z) (i : Fin m) :
    Ends E (fun sum => value sum = ∑ t, Z.map value i t * columnRest (W.map value) k t)
      (foldPositions (k : ℕ) m (0 : α) fun sum t => do
        return sum + (← z.entry i t) * (← f.work.entry k t)) := by
  refine (ends_sum (asRow k).isLt.le (fun t => value (Z i t) * value (W (asCol k) t))
    fun t sum _ => ?_).imp fun sum hsum => ?_
  · have hread : f.work.entry (k : ℕ) t = .ok (W (asCol k) t) := h.work.entry (asCol k) t
    rw [hZ.entry i t, Ends.ok_bind_iff, hread]
    refine (ExactScalar.value_add _ _).trans ?_
    rw [ExactScalar.value_mul]
  · rw [hsum]
    refine Finset.sum_congr rfl fun t _ => ?_
    by_cases ht : (asRow k : ℕ) ≤ t
    · rw [if_pos ht, columnRest_of_le _ _ ht]
      rfl
    · rw [if_neg ht, columnRest_of_lt _ _ (not_le.1 ht), mul_zero]

/-- Applying a reflection from the right, to the later rows. -/
theorem Factors.Represents.ends_applyReflection (h : f.Represents A (min m n) W)
    (k : Fin (min m n)) {z : DenseMatrix α} {Z : Matrix (Fin m) (Fin m) α} (hZ : z.Stores Z) :
    Ends E (fun z' => ∃ Z' : Matrix (Fin m) (Fin m) α, z'.Stores Z' ∧
        Z'.map value = laterRows (W.map value) f.entries k (Z.map value))
      (f.applyReflection z (k : ℕ)) := by
  have hrow (j : Fin m) : f.work.entry (k : ℕ) j = .ok (W (asCol k) j) := h.work.entry (asCol k) j
  have hhead : f.work.entry (k : ℕ) k = .ok (W (asCol k) (asRow k)) := hrow (asRow k)
  unfold Factors.applyReflection
  rw [hhead, Ends.ok_bind_iff]
  by_cases hzero : (W (asCol k) (asRow k) == 0) = true
  · have hvalue : W.map value (asCol k) (asRow k) = 0 := by
      rw [Matrix.map_apply, (ExactScalar.eq_iff _ _).1 hzero, ExactScalar.value_zero']
    rw [if_pos hzero]
    refine ⟨Z, hZ, ?_⟩
    ext i j
    simp [laterRows, leftReflector_of_head hvalue]
  · have hk : (k : ℕ) < f.diagonal.size := by
      rw [h.size]
      exact k.isLt
    have hdenominator : value (conj (f.diagonal.getD k 0) * W (asCol k) (asRow k)) =
        star (f.entries k) * value (W (asCol k) (asRow k)) := by
      rw [ExactScalar.value_mul, ExactEuclidean.value_conj]
      rfl
    have hne : value (conj (f.diagonal.getD k 0) * W (asCol k) (asRow k)) ≠ 0 := by
      rw [hdenominator]
      exact fun hproduct => hzero <| by
        rw [ExactScalar.eq_iff, ExactScalar.value_zero']
        exact h.head_eq_zero k hproduct
    have hrows : f.nrows = m := h.work.ncols
    rw [if_neg hzero, f.read_diagonal hk, Ends.ok_bind_iff, hZ.nrows, hrows]
    refine Ends.bind (Ends.collect (P := fun i y => asRow k ≤ i → value y =
      (∑ t, Z.map value i t * columnRest (W.map value) k t) /
        (star (f.entries k) * value (W (asCol k) (asRow k)))) fun i => ?_) ?_
    · by_cases hi : (k : ℕ) ≤ i
      · rw [if_pos hi]
        refine (h.ends_rowSum k hZ i).bind fun sum hsum _ => ?_
        rw [ExactScalar.value_div _ _ hne, hdenominator, hsum]
      · rw [if_neg hi]
        exact fun hi' => absurd hi' hi
    · intro factors hfactors
      obtain ⟨x, hx⟩ := hfactors
      refine Ends.mapEntries_map hZ fun i j => ?_
      have hiff : ((k : ℕ) ≤ i ∧ (k : ℕ) ≤ j) ↔ (asRow k ≤ i ∧ asRow k ≤ j) := Iff.rfl
      by_cases hi : asRow k ≤ i
      · rw [laterRows_of_le _ _ _ j hi]
        by_cases hj : asRow k ≤ j
        · rw [if_pos (hiff.2 ⟨hi, hj⟩), (hx i).1, Ends.ok_bind_iff, hrow j]
          refine (ExactScalar.value_add _ _).trans ?_
          rw [ExactScalar.value_mul, (hx i).2 hi, ExactEuclidean.value_conj,
            columnRest_of_le _ _ hj]
          rfl
        · rw [if_neg fun hij => hj (hiff.1 hij).2, columnRest_of_lt _ _ (not_le.1 hj), star_zero,
            mul_zero, add_zero]
          rfl
      · rw [laterRows_of_lt _ _ _ j (not_le.1 hi), if_neg fun hij => hi (hiff.1 hij).1]
        rfl

/-- The unitary factor's conjugate transpose composes all reflectors. -/
theorem Factors.Represents.ends_adjointQ (h : f.Represents A (min m n) W) :
    Ends E (fun z => ∃ Z : Matrix (Fin m) (Fin m) α, z.Stores Z ∧
        Z.map value = composed (leftReflector (W.map value) f.entries) (min m n))
      f.adjointQ := by
  have hrows : f.nrows = m := h.work.ncols
  unfold Factors.adjointQ
  rw [hrows, h.size]
  refine (DenseMatrix.ends_identity m).bind ?_
  intro e he
  obtain ⟨I, he, hone⟩ := he
  -- times the reflectors that are left, the matrix so far is the composition of all
  refine (Ends.foldReversed (I := fun k z => ∃ Z : Matrix (Fin m) (Fin m) α, z.Stores Z ∧
    (∀ i j : Fin m, (i : ℕ) < k → Z.map value i j = (1 : Matrix (Fin m) (Fin m) 𝕜) i j) ∧
    Z.map value * composed (leftReflector (W.map value) f.entries) k =
      composed (leftReflector (W.map value) f.entries) (min m n))
    ⟨I, he, fun i j _ => congrFun (congrFun hone i) j, by rw [hone, Matrix.one_mul]⟩ ?_).imp ?_
  · intro k z hk hz
    obtain ⟨Z, hZ, hidentity, hproduct⟩ := hz
    refine (h.ends_applyReflection ⟨k, hk⟩ hZ).imp ?_
    intro z' hz'
    obtain ⟨Z', hZ', hentries⟩ := hz'
    refine ⟨Z', hZ', fun i j hi => ?_, ?_⟩
    · rw [hentries, laterRows_of_lt _ _ _ j hi]
      exact hidentity i j (by omega)
    · have hbefore (i j : Fin m) (hi : i < asRow (⟨k, hk⟩ : Fin (min m n))) :
          Z.map value i j = (1 : Matrix (Fin m) (Fin m) 𝕜) i j :=
        hidentity i j (Nat.lt_succ_of_lt hi)
      rw [hentries, laterRows_eq_mul _ _ hbefore, Matrix.mul_assoc, ← composed_succ ⟨k, hk⟩]
      exact hproduct
  · intro z hz
    obtain ⟨Z, hZ, -, hproduct⟩ := hz
    rw [composed, Matrix.mul_one] at hproduct
    exact ⟨Z, hZ, hproduct⟩

/-- The conjugate transpose of a stored matrix. -/
theorem ends_adjoint {z : DenseMatrix α} {Z : Matrix (Fin m) (Fin n) α} (hZ : z.Stores Z) :
    Ends E (fun z' => ∃ Z' : Matrix (Fin n) (Fin m) α, z'.Stores Z' ∧
        Z'.map value = (Z.map value)ᴴ) z.adjoint := by
  unfold DenseMatrix.adjoint
  rw [hZ.nrows, hZ.ncols]
  refine (Ends.tabulate_of_ok (M := Z.transpose.map conj) fun i j => ?_).imp fun z' hz' => ?_
  · rw [hZ.entry j i]
    rfl
  · refine ⟨Z.transpose.map conj, hz', ?_⟩
    ext i j
    exact ExactEuclidean.value_conj (Z j i)

end Reduction

end

/-- Over exact real or complex elements every matrix, of any shape and rank, has a QR
decomposition, and its factors can be read off: `Q · R = A`, `Q` is unitary, the third
factor is the conjugate transpose of `Q`, and `R` is zero below the diagonal. -/
theorem q_mul_r_eq {α ρ 𝕜 : Type} [RealScalar ρ] [ExactReal ρ] [EuclideanScalar α ρ]
    [RCLike 𝕜] [ExactEuclidean α ρ 𝕜] {m n : ℕ} {A : Matrix (Fin m) (Fin n) α}
    {a : MatrixView α} (ha : a.Shows A) (threshold : ρ) :
    ∃ (qr : QR α ρ) (q qt r : DenseMatrix α) (Q Qt : Matrix (Fin m) (Fin m) α)
        (R : Matrix (Fin m) (Fin n) α),
      ofThreshold threshold a = .ok qr ∧
        (qr.q = .ok q ∧ q.Stores Q) ∧
        (qr.qAdjoint = .ok qt ∧ qt.Stores Qt) ∧
        (qr.r = .ok r ∧ r.Stores R) ∧
        Q.map value * R.map value = A.map value ∧
        (Q.map value)ᴴ * Q.map value = 1 ∧
        Qt.map value = (Q.map value)ᴴ ∧
        ∀ (i : Fin m) (j : Fin n), (j : ℕ) < i → R i j = 0 := by
  obtain ⟨qr, hqr, W, hW⟩ := Ends.never_iff.1 (ends_ofThreshold ha threshold)
  obtain ⟨qt, hqt, Qt, hQt, hcomposed⟩ := Ends.never_iff.1 hW.ends_adjointQ
  obtain ⟨q, hq, Q, hQ, hadjoint⟩ := Ends.never_iff.1 (ends_adjoint hQt)
  obtain ⟨r, hr, R, hR, hreduced, hlower⟩ := Ends.never_iff.1 hW.ends_upper
  have hq' : qr.q = .ok q := by
    unfold QR.q
    rw [hqt]
    exact hq
  -- the composed reflectors are unitary, and take `A` to `R`
  have hunitary : (Qt.map value)ᴴ * Qt.map value = 1 := by
    rw [hcomposed]
    exact composed_unitary (fun i => reflector_unitary (hW.reflecting i i.isLt)) _
  have hproduct : Qt.map value * A.map value = R.map value := by
    rw [hcomposed, hreduced]
    exact hW.product
  refine ⟨qr, q, qt, r, Q, Qt, R, hqr, ⟨hq', hQ⟩, ⟨hqt, hQt⟩, ⟨hr, hR⟩, ?_, ?_, ?_, hlower⟩
  · rw [hadjoint, ← hproduct, ← Matrix.mul_assoc, hunitary, Matrix.one_mul]
  · rw [hadjoint, Matrix.conjTranspose_conjTranspose]
    exact mul_eq_one_comm.1 hunitary
  · rw [hadjoint, Matrix.conjTranspose_conjTranspose]

/-- A complex column whose head is zero, over the real numbers themselves. -/
theorem q_mul_r_eq_complex :
    letI := exactReal 1 1
    letI := exactReal.exact 1 1
    let A : Matrix (Fin 2) (Fin 1) (Cartesian ℝ) := !![⟨0, 0⟩; ⟨0, 1⟩]
    ∃ (qr : QR (Cartesian ℝ) ℝ) (q r : DenseMatrix (Cartesian ℝ))
        (Q : Matrix (Fin 2) (Fin 2) (Cartesian ℝ)) (R : Matrix (Fin 2) (Fin 1) (Cartesian ℝ)),
      ofThreshold 0 (.ofMatrix A) = .ok qr ∧
        (qr.q = .ok q ∧ q.Stores Q) ∧ (qr.r = .ok r ∧ r.Stores R) ∧
        Q.map Cartesian.toComplex * R.map Cartesian.toComplex = A.map Cartesian.toComplex ∧
        (Q.map Cartesian.toComplex)ᴴ * Q.map Cartesian.toComplex = 1 ∧
        R 1 0 = 0 := by
  let := exactReal 1 1
  let := exactReal.exact 1 1
  intro A
  obtain ⟨qr, q, -, r, Q, -, R, hqr, hq, -, hr, hmul, hunitary, -, hlower⟩ :=
    q_mul_r_eq (MatrixView.ofMatrix_shows A) (0 : ℝ)
  exact ⟨qr, q, r, Q, R, hqr, hq, hr, hmul, hunitary, hlower 1 0 Nat.zero_lt_one⟩

end DenseFactor.QR
