import Mathlib
import DenseFactor.SVD.Bidiagonal
import DenseFactor.Proofs.Edit
import DenseFactor.Proofs.SVD.Rotation

/-!
# DenseFactor.Proofs.SVD.Bidiagonal

The reduction to bidiagonal form as a sequence of **orthogonal steps**, over exact real
elements.

Design points:

* Arrays of elements are read as functions on all positions (`reals`), zero past their
  end. The form is the matrix `bidiagonal d e`, whatever its shape.
* `Carries u v δ A B` says what the stored transformations are for: they lead from `A` to
  `B`, up to a distance of `δ`. Each thing a step does to them has one lemma, and none of
  them looks at the form itself.
* `partly d e R p q` is the matrix in the middle of the reduction: the rows before `p` and
  the columns before `q` are those of the form, all others are still stored.
-/

namespace DenseFactor.SVD

open ExactScalar (value)
open scoped Matrix

variable {ρ : Type} [RealScalar ρ] [ExactReal ρ] {m n : ℕ} {E : Failure → Prop}

noncomputable section

/-! ### Runs of exact elements -/

/-- The numbers of a run of elements, zero past its end. -/
def reals (xs : Array ρ) (i : ℕ) : ℝ := value (xs.getD i 0)

theorem reals_of_le {xs : Array ρ} {i : ℕ} (hi : xs.size ≤ i) : reals xs i = 0 := by
  rw [reals, Array.getD_eq_getD_getElem?, Array.getElem?_eq_none hi, Option.getD_none,
    ExactScalar.value_zero']

/-- Inside the run an element can be read. -/
theorem exists_read {xs : Array ρ} {i : ℕ} (hi : i < xs.size) :
    ∃ x, Storage.read xs i = .ok x ∧ value x = reals xs i := by
  refine ⟨xs[i], Storage.read_of_lt hi, ?_⟩
  rw [reals, Array.getD_eq_getD_getElem?, Array.getElem?_eq_getElem hi, Option.getD_some]

theorem ends_read {xs : Array ρ} {i : ℕ} (hi : i < xs.size) :
    Ends E (fun x => value x = reals xs i) (Storage.read xs i) := by
  obtain ⟨x, hread, hx⟩ := exists_read hi
  rw [hread]
  exact hx

theorem reals_push (xs : Array ρ) (x : ρ) :
    reals (xs.push x) = Function.update (reals xs) xs.size (value x) := by
  funext i
  simp only [reals, Array.getD_eq_getD_getElem?, Array.getElem?_push]
  by_cases hi : i = xs.size
  · rw [if_pos hi, hi, Function.update_self, Option.getD_some]
  · rw [if_neg hi, Function.update_of_ne hi, reals, Array.getD_eq_getD_getElem?]

/-- Writing replaces one number. -/
theorem ends_write {xs : Array ρ} {i : ℕ} (hi : i < xs.size) (x : ρ) :
    Ends E (fun ys => ys.size = xs.size ∧ reals ys = Function.update (reals xs) i (value x))
      (Storage.write xs i x) := by
  rw [Storage.write_of_lt hi]
  refine ⟨Array.size_set _, funext fun j => ?_⟩
  simp only [reals, Array.getD_eq_getD_getElem?, Array.getElem?_set]
  by_cases hj : j = i
  · rw [if_pos hj.symm, hj, Function.update_self, Option.getD_some]
  · rw [if_neg (Ne.symm hj), Function.update_of_ne hj, reals, Array.getD_eq_getD_getElem?]

/-! ### The form -/

/-- The matrix with `d` on the diagonal and `e` beside it. -/
def bidiagonal (d e : ℕ → ℝ) : Matrix (Fin m) (Fin n) ℝ :=
  Matrix.of fun i j =>
    if (i : ℕ) = j then d j else if (i : ℕ) + 1 = j then e i else 0

/-- What the transformations are for: they lead from `A` to `B`, up to what was
discarded. -/
def Carries (u v : DenseMatrix ρ) (discarded : ρ) (A B : Matrix (Fin m) (Fin n) ℝ) : Prop :=
  ∃ (U : Matrix (Fin m) (Fin m) ρ) (V : Matrix (Fin n) (Fin n) ρ), u.Stores U ∧ v.Stores V ∧
    Transforms (U.map value) (V.map value) B A (value discarded)

/-- The bidiagonal form is one of `A`. -/
structure Bidiagonal.Represents (b : Bidiagonal ρ) (A : Matrix (Fin m) (Fin n) ℝ) : Prop where
  diag_size : b.diag.size = n
  offDiag_size : b.offDiag.size = n - 1
  carries : Carries b.u b.v b.discarded A (bidiagonal (reals b.diag) (reals b.offDiag))

namespace Carries

variable {u v : DenseMatrix ρ} {δ : ρ} {A B : Matrix (Fin m) (Fin n) ℝ}

/-- Identities lead from a matrix to itself. -/
theorem refl {U : Matrix (Fin m) (Fin m) ρ} {V : Matrix (Fin n) (Fin n) ρ} (hu : u.Stores U)
    (hU : U.map value = 1) (hv : v.Stores V) (hV : V.map value = 1)
    (A : Matrix (Fin m) (Fin n) ℝ) : Carries u v (0 : ρ) A A := by
  refine ⟨U, V, hu, hv, ?_⟩
  rw [hU, hV, ExactScalar.value_zero']
  exact Transforms.refl A

/-- Dropping entries adds at least their absolute values to what is discarded. -/
theorem drop (h : Carries u v δ A B) {B' : Matrix (Fin m) (Fin n) ℝ} {ε : ρ}
    (hdrops : Drops B B') (hB : ∑ i, ∑ j, |B i j - B' i j| ≤ value ε) :
    Carries u v (δ + ε) A B' := by
  obtain ⟨U, V, hu, hv, htransforms⟩ := h
  refine ⟨U, V, hu, hv, ?_⟩
  rw [ExactScalar.value_add]
  exact htransforms.drop hdrops hB

/-- Reflecting the left transformation reflects the columns between. -/
theorem reflect_left (h : Carries u v δ A B) {g : Reflection ρ} {k : Fin m} {w : Fin m → ℝ}
    (hw : g.Along k w) :
    Ends E (fun u' => Carries u' v δ A (mirror w (value g.factor) * B)) (g.rows u 0) := by
  obtain ⟨U, V, hu, hv, htransforms⟩ := h
  refine (hw.ends_rows hu 0).imp fun u' hu' => ?_
  obtain ⟨U', hu', hU'⟩ := hu'
  refine ⟨U', V, hu', hv, ?_⟩
  have hproduct : U'.map value = U.map value * mirror w (value g.factor) := by
    rw [hU']
    rfl
  have hmirror := htransforms.mul_left (mirror_orthogonal hw.factor)
  rwa [← hproduct, mirror_transpose hw.factor] at hmirror

/-- Reflecting the right transformation reflects the rows between. -/
theorem reflect_right (h : Carries u v δ A B) {g : Reflection ρ} {k : Fin n} {w : Fin n → ℝ}
    (hw : g.Along k w) :
    Ends E (fun v' => Carries u v' δ A (B * mirror w (value g.factor))) (g.rows v 0) := by
  obtain ⟨U, V, hu, hv, htransforms⟩ := h
  refine (hw.ends_rows hv 0).imp fun v' hv' => ?_
  obtain ⟨V', hv', hV'⟩ := hv'
  refine ⟨U, V', hu, hv', ?_⟩
  have hproduct : V'.map value = V.map value * mirror w (value g.factor) := by
    rw [hV']
    rfl
  have hmirror := htransforms.mul_right (mirror_orthogonal hw.factor)
  rwa [← hproduct] at hmirror

/-- Turning two columns of the left transformation turns the rows between. -/
theorem turn_left (h : Carries u v δ A B) (a b : ρ) {j k : Fin m} (hjk : j ≠ k) :
    Ends E (fun u' => Carries u' v δ A
        (turnRows (value (Rotation.ofPair a b).cos) (value (Rotation.ofPair a b).sin) j k B))
      ((Rotation.ofPair a b).columns u j k) := by
  obtain ⟨U, V, hu, hv, htransforms⟩ := h
  refine ((Rotation.ofPair a b).ends_columns hu j k).imp fun u' hu' => ?_
  obtain ⟨U', hu', hU'⟩ := hu'
  refine ⟨U', V, hu', hv, ?_⟩
  rw [hU']
  exact htransforms.turn_left (Rotation.ofPair_circle a b) hjk

/-- Turning two columns of the right transformation turns the columns between. -/
theorem turn_right (h : Carries u v δ A B) (a b : ρ) {j k : Fin n} (hjk : j ≠ k) :
    Ends E (fun v' => Carries u v' δ A
        (turnColumns (value (Rotation.ofPair a b).cos) (value (Rotation.ofPair a b).sin) j k B))
      ((Rotation.ofPair a b).columns v j k) := by
  obtain ⟨U, V, hu, hv, htransforms⟩ := h
  refine ((Rotation.ofPair a b).ends_columns hv j k).imp fun v' hv' => ?_
  obtain ⟨V', hv', hV'⟩ := hv'
  refine ⟨U, V', hu, hv', ?_⟩
  rw [hV']
  exact htransforms.turn_right (Rotation.ofPair_circle a b) hjk

/-- Negating a column of the left transformation negates the row between. -/
theorem negate (h : Carries u v δ A B) (i : ℕ) :
    Ends E (fun u' => Carries u' v δ A
        (Matrix.of fun (r : Fin m) (l : Fin n) => if (r : ℕ) = i then -B r l else B r l))
      (u.mapEntries fun _ j x => .ok (if j = i then -x else x)) := by
  obtain ⟨U, V, hu, hv, htransforms⟩ := h
  let signs : Fin m → ℝ := fun r => if (r : ℕ) = i then -1 else 1
  have hentry (r j : Fin m) : value (if (j : ℕ) = i then -U r j else U r j) =
      (U.map value * Matrix.diagonal signs) r j := by
    rw [Matrix.mul_diagonal, Matrix.map_apply]
    by_cases hj : (j : ℕ) = i
    · simp only [signs, if_pos hj, ExactReal.value_neg, mul_neg, mul_one]
    · simp only [signs, if_neg hj, mul_one]
  have hcolumns : Ends E (fun u' => ∃ U' : Matrix (Fin m) (Fin m) ρ, u'.Stores U' ∧
      U'.map value = U.map value * Matrix.diagonal signs)
      (u.mapEntries fun _ j x => .ok (if j = i then -x else x)) :=
    Ends.mapEntries_map hu hentry
  refine hcolumns.imp fun u' hu' => ?_
  obtain ⟨U', hu', hU'⟩ := hu'
  refine ⟨U', V, hu', hv, ?_⟩
  have horthogonal : (Matrix.diagonal signs)ᵀ * Matrix.diagonal signs = 1 := by
    rw [Matrix.diagonal_transpose, Matrix.diagonal_mul_diagonal, ← Matrix.diagonal_one]
    congr 1
    funext r
    by_cases hr : (r : ℕ) = i
    · simp [signs, hr]
    · simp [signs, hr]
  have hrows : (Matrix.diagonal signs)ᵀ * B =
      Matrix.of fun (r : Fin m) (l : Fin n) => if (r : ℕ) = i then -B r l else B r l := by
    ext r l
    rw [Matrix.diagonal_transpose, Matrix.diagonal_mul, Matrix.of_apply]
    by_cases hr : (r : ℕ) = i
    · simp only [signs, if_pos hr, neg_mul, one_mul]
    · simp only [signs, if_neg hr, one_mul]
  rw [hU', ← hrows]
  exact htransforms.mul_left horthogonal

/-- Exchanging two columns of the left transformation exchanges the rows between. -/
theorem swap_left (h : Carries u v δ A B) (i j : Fin m) :
    Ends E (fun u' => Carries u' v δ A (B.submatrix (Equiv.swap i j) id))
      ((Edit.swapCols (i : ℕ) j).apply u) := by
  obtain ⟨U, V, hu, hv, htransforms⟩ := h
  exact (hu.swapCols i j).of_never.imp fun u' hu' =>
    ⟨_, V, hu', hv, htransforms.permute_left (Equiv.swap i j)⟩

/-- Exchanging two columns of the right transformation exchanges the columns between. -/
theorem swap_right (h : Carries u v δ A B) (i j : Fin n) :
    Ends E (fun v' => Carries u v' δ A (B.submatrix id (Equiv.swap i j)))
      ((Edit.swapCols (i : ℕ) j).apply v) := by
  obtain ⟨U, V, hu, hv, htransforms⟩ := h
  exact (hv.swapCols i j).of_never.imp fun v' hv' =>
    ⟨U, _, hu, hv', htransforms.permute_right (Equiv.swap i j)⟩

end Carries

/-! ### Matrices in the middle of the reduction -/

/-- The form in the rows before `p` and the columns before `q`, and `R` elsewhere. -/
def partly (d e : ℕ → ℝ) (R : Matrix (Fin m) (Fin n) ℝ) (p q : ℕ) : Matrix (Fin m) (Fin n) ℝ :=
  Matrix.of fun i j => if (i : ℕ) < p ∨ (j : ℕ) < q then bidiagonal d e i j else R i j

section Partly

variable {d e : ℕ → ℝ} {R : Matrix (Fin m) (Fin n) ℝ} {p q : ℕ}

theorem partly_of_lt {i : Fin m} {j : Fin n} (h : (i : ℕ) < p ∨ (j : ℕ) < q) :
    partly d e R p q i j = bidiagonal d e i j := if_pos h

theorem partly_of_le {i : Fin m} {j : Fin n} (hi : p ≤ (i : ℕ)) (hj : q ≤ (j : ℕ)) :
    partly d e R p q i j = R i j :=
  if_neg (not_or.2 ⟨not_lt.2 hi, not_lt.2 hj⟩)

/-- Below the diagonal the form is zero. -/
theorem bidiagonal_of_lt {i : Fin m} {j : Fin n} (h : (j : ℕ) < i) : bidiagonal d e i j = 0 := by
  simp only [bidiagonal, Matrix.of_apply]
  rw [if_neg (by omega), if_neg (by omega)]

/-- Beyond the entry beside the diagonal the form is zero. -/
theorem bidiagonal_of_succ_lt {i : Fin m} {j : Fin n} (h : (i : ℕ) + 1 < j) :
    bidiagonal d e i j = 0 := by
  simp only [bidiagonal, Matrix.of_apply]
  rw [if_neg (by omega), if_neg (by omega)]

/-- An entry of the form depends on one number only. -/
theorem bidiagonal_congr {d' e' : ℕ → ℝ} {i : Fin m} {j : Fin n}
    (hd : (i : ℕ) = j → d j = d' j) (he : (i : ℕ) + 1 = j → e i = e' i) :
    (bidiagonal d e i j : ℝ) = bidiagonal d' e' i j := by
  simp only [bidiagonal, Matrix.of_apply]
  by_cases hij : (i : ℕ) = j
  · rw [if_pos hij, if_pos hij, hd hij]
  · rw [if_neg hij, if_neg hij]
    by_cases hbeside : (i : ℕ) + 1 = j
    · rw [if_pos hbeside, if_pos hbeside, he hbeside]
    · rw [if_neg hbeside, if_neg hbeside]

/-- A vector that starts at `k` meets only what stands from there on. -/
theorem sum_from_congr {w x y : Fin m → ℝ} {k : ℕ} (hw : ∀ t : Fin m, (t : ℕ) < k → w t = 0)
    (hxy : ∀ t : Fin m, k ≤ (t : ℕ) → x t = y t) : ∑ t, w t * x t = ∑ t, w t * y t := by
  refine Finset.sum_congr rfl fun t _ => ?_
  rcases lt_or_ge (t : ℕ) k with ht | ht
  · rw [hw t ht, zero_mul, zero_mul]
  · rw [hxy t ht]

/-- Reflecting column `k` onto the diagonal finishes it. -/
theorem mirror_mul_partly {k : ℕ} {w : Fin m → ℝ} {τ a : ℝ} (row : Fin m) (col : Fin n)
    (hrow : (row : ℕ) = k) (hcol : (col : ℕ) = k) (hw : ∀ t : Fin m, (t : ℕ) < k → w t = 0)
    (hreflects : ∀ i, QR.rest k (fun t => R t col) i -
      (∑ t, w t * QR.rest k (fun t => R t col) t) * τ * w i = if i = row then a else 0) :
    mirror w τ * partly d e R k k = partly (Function.update d k a) e
      (Matrix.of fun (i : Fin m) (j : Fin n) =>
        if k + 1 ≤ (j : ℕ) then (mirror w τ * R) i j else R i j) k (k + 1) := by
  ext i j
  rw [mirror_mul_apply]
  rcases lt_or_ge (i : ℕ) k with hi | hi
  · -- the rows before stay
    rw [hw i hi, mul_zero, sub_zero, partly_of_lt (Or.inl hi), partly_of_lt (Or.inl hi)]
    refine bidiagonal_congr (fun hij => ?_) fun _ => rfl
    rw [Function.update_of_ne (by omega)]
  rcases lt_trichotomy (j : ℕ) k with hj | hj | hj
  · -- the columns before are zero where the vector is not
    have hzero (t : Fin m) (ht : k ≤ (t : ℕ)) : partly d e R k k t j = 0 := by
      rw [partly_of_lt (Or.inr hj), bidiagonal_of_lt (hj.trans_le ht)]
    rw [sum_from_congr hw (y := 0) hzero, hzero i hi, partly_of_lt (Or.inr (by omega)),
      bidiagonal_of_lt (by omega)]
    simp
  · obtain rfl : j = col := Fin.ext (hj.trans hcol.symm)
    have hrest (t : Fin m) (ht : k ≤ (t : ℕ)) :
        partly d e R k k t j = QR.rest k (fun t => R t j) t := by
      rw [partly_of_le ht hj.ge, QR.rest, if_pos ht]
    rw [sum_from_congr hw hrest, hrest i hi, hreflects i, partly_of_lt (Or.inr (by omega))]
    by_cases hik : i = row
    · rw [if_pos hik, hik]
      simp [bidiagonal, hrow, hcol]
    · have hlt : (j : ℕ) < i := by
        have hne : (i : ℕ) ≠ row := fun h => hik (Fin.ext h)
        omega
      rw [if_neg hik, bidiagonal_of_lt hlt]
  · have hrest (t : Fin m) (ht : k ≤ (t : ℕ)) : partly d e R k k t j = R t j :=
      partly_of_le ht hj.le
    rw [sum_from_congr hw hrest, hrest i hi, partly_of_le hi hj, Matrix.of_apply,
      if_pos (Nat.succ_le_of_lt hj),
      mirror_mul_apply]

/-- Reflecting the rest of row `k` onto the entry beside the diagonal finishes it. -/
theorem partly_mul_mirror {k : ℕ} {w : Fin n → ℝ} {τ a : ℝ} (row : Fin m) (col : Fin n)
    (hrow : (row : ℕ) = k) (hcol : (col : ℕ) = k + 1)
    (hw : ∀ t : Fin n, (t : ℕ) < k + 1 → w t = 0)
    (hreflects : ∀ j, QR.rest (k + 1) (R row) j -
      (∑ t, w t * QR.rest (k + 1) (R row) t) * τ * w j = if j = col then a else 0) :
    partly d e R k (k + 1) * mirror w τ = partly d (Function.update e k a)
      (Matrix.of fun (i : Fin m) (j : Fin n) =>
        if k + 1 ≤ (i : ℕ) then (R * mirror w τ) i j else R i j) (k + 1) (k + 1) := by
  have hsum (i : Fin m) {y : Fin n → ℝ}
      (hy : ∀ t : Fin n, k + 1 ≤ (t : ℕ) → partly d e R k (k + 1) i t = y t) :
      ∑ t, partly d e R k (k + 1) i t * w t = ∑ t, w t * y t := by
    rw [Finset.sum_congr rfl fun t _ => mul_comm _ _, sum_from_congr hw hy]
  ext i j
  rw [mul_mirror_apply]
  rcases lt_or_ge (j : ℕ) (k + 1) with hj | hj
  · -- the columns before stay
    rw [hw j hj, mul_zero, sub_zero, partly_of_lt (Or.inr hj), partly_of_lt (Or.inr hj)]
    refine bidiagonal_congr (fun _ => rfl) fun hij => ?_
    rw [Function.update_of_ne (by omega)]
  rcases lt_trichotomy (i : ℕ) k with hi | hi | hi
  · -- the rows before are zero where the vector is not
    have hzero (t : Fin n) (ht : k + 1 ≤ (t : ℕ)) : partly d e R k (k + 1) i t = 0 := by
      rw [partly_of_lt (Or.inl hi), bidiagonal_of_succ_lt (by omega)]
    rw [hsum i (y := 0) hzero, hzero j hj, partly_of_lt (Or.inl (by omega)),
      bidiagonal_of_succ_lt (by omega)]
    simp
  · obtain rfl : i = row := Fin.ext (hi.trans hrow.symm)
    have hrest (t : Fin n) (ht : k + 1 ≤ (t : ℕ)) :
        partly d e R k (k + 1) i t = QR.rest (k + 1) (R i) t := by
      rw [partly_of_le hi.ge ht, QR.rest, if_pos ht]
    rw [hsum i hrest, hrest j hj, hreflects j, partly_of_lt (Or.inl (by omega))]
    by_cases hjk : j = col
    · rw [if_pos hjk, hjk]
      simp [bidiagonal, hrow, hcol]
    · have hlt : (i : ℕ) + 1 < j := by
        have hne : (j : ℕ) ≠ col := fun h => hjk (Fin.ext h)
        omega
      rw [if_neg hjk, bidiagonal_of_succ_lt hlt]
  · have hrest (t : Fin n) (ht : k + 1 ≤ (t : ℕ)) : partly d e R k (k + 1) i t = R i t :=
      partly_of_le hi.le ht
    have hcomm : ∑ t, w t * R i t = ∑ t, R i t * w t :=
      Finset.sum_congr rfl fun t _ => mul_comm _ _
    rw [hsum i hrest, hrest j hj, partly_of_le hi hj, Matrix.of_apply,
      if_pos (Nat.succ_le_of_lt hi),
      mul_mirror_apply, hcomm]

/-- Matrices that differ in one column only differ by what is there. -/
theorem sum_abs_sub_column {B B' : Matrix (Fin m) (Fin n) ℝ} (col : Fin n)
    (h : ∀ i j, j ≠ col → B i j = B' i j) :
    ∑ i, ∑ j, |B i j - B' i j| = ∑ i, |B i col - B' i col| := by
  refine Finset.sum_congr rfl fun i _ => Finset.sum_eq_single col (fun j _ hj => ?_) ?_
  · rw [h i j hj, sub_self, abs_zero]
  · exact fun hcol => absurd (Finset.mem_univ col) hcol

/-- Matrices that differ in one row only differ by what is there. -/
theorem sum_abs_sub_row {B B' : Matrix (Fin m) (Fin n) ℝ} (row : Fin m)
    (h : ∀ i j, i ≠ row → B i j = B' i j) :
    ∑ i, ∑ j, |B i j - B' i j| = ∑ j, |B row j - B' row j| := by
  rw [Finset.sum_comm]
  have htransposed (j : Fin n) (i : Fin m) (hi : i ≠ row) : Bᵀ j i = B'ᵀ j i := h i j hi
  exact sum_abs_sub_column row htransposed

/-- Finishing column `k` as it is sets what is below the diagonal to zero. -/
theorem partly_dropped_column {k : ℕ} (row : Fin m) (col : Fin n) (hrow : (row : ℕ) = k)
    (hcol : (col : ℕ) = k) (i : Fin m) (j : Fin n) :
    partly (Function.update d k (R row col)) e R k (k + 1) i j =
      if j = col ∧ k + 1 ≤ (i : ℕ) then 0 else partly d e R k k i j := by
  by_cases hj : j = col
  · rw [hj, partly_of_lt (q := k + 1) (Or.inr (by omega))]
    rcases lt_trichotomy (i : ℕ) k with hi | hi | hi
    · rw [if_neg fun h => absurd h.2 (by omega), partly_of_lt (Or.inl hi)]
      exact bidiagonal_congr (fun h => absurd h (by omega)) fun _ => rfl
    · obtain rfl : i = row := Fin.ext (hi.trans hrow.symm)
      rw [if_neg fun h => absurd h.2 (by omega), partly_of_le hrow.ge hcol.ge]
      simp [bidiagonal, hrow, hcol]
    · rw [if_pos ⟨rfl, Nat.succ_le_of_lt hi⟩, bidiagonal_of_lt (by omega)]
  · have hne : (j : ℕ) ≠ k := fun h => hj (Fin.ext (h.trans hcol.symm))
    rw [if_neg fun h => hj h.1]
    by_cases hdone : (i : ℕ) < k ∨ (j : ℕ) < k
    · rw [partly_of_lt hdone, partly_of_lt (hdone.imp_right Nat.lt_succ_of_lt)]
      refine bidiagonal_congr (fun _ => ?_) fun _ => rfl
      rw [Function.update_of_ne hne]
    · rw [partly_of_le (by omega) (by omega), partly_of_le (by omega) (by omega)]

theorem drops_column {k : ℕ} (row : Fin m) (col : Fin n) (hrow : (row : ℕ) = k)
    (hcol : (col : ℕ) = k) :
    Drops (partly d e R k k) (partly (Function.update d k (R row col)) e R k (k + 1)) := by
  intro i j
  rw [partly_dropped_column row col hrow hcol]
  by_cases hdropped : j = col ∧ k + 1 ≤ (i : ℕ)
  · exact Or.inr (if_pos hdropped)
  · exact Or.inl (if_neg hdropped)

theorem sum_abs_dropped_column {k : ℕ} (row : Fin m) (col : Fin n) (hrow : (row : ℕ) = k)
    (hcol : (col : ℕ) = k) :
    ∑ i, ∑ j, |partly d e R k k i j -
        partly (Function.update d k (R row col)) e R k (k + 1) i j| =
      ∑ i : Fin m, if k + 1 ≤ (i : ℕ) then |R i col| else 0 := by
  simp only [partly_dropped_column row col hrow hcol]
  refine (sum_abs_sub_column col fun i j hj => ?_).trans (Finset.sum_congr rfl fun i _ => ?_)
  · rw [if_neg fun h => hj h.1]
  · by_cases hi : k + 1 ≤ (i : ℕ)
    · rw [if_pos ⟨rfl, hi⟩, if_pos hi, sub_zero, partly_of_le (by omega) hcol.ge]
    · rw [if_neg fun h => hi h.2, if_neg hi, sub_self, abs_zero]

/-- Finishing row `k` as it is sets what is beyond the entry beside the diagonal to zero. -/
theorem partly_dropped_row {k : ℕ} (row : Fin m) (col : Fin n) (hrow : (row : ℕ) = k)
    (hcol : (col : ℕ) = k + 1) (i : Fin m) (j : Fin n) :
    partly d (Function.update e k (R row col)) R (k + 1) (k + 1) i j =
      if i = row ∧ k + 2 ≤ (j : ℕ) then 0 else partly d e R k (k + 1) i j := by
  by_cases hi : i = row
  · rw [hi, partly_of_lt (p := k + 1) (Or.inl (by omega))]
    rcases lt_trichotomy (j : ℕ) (k + 1) with hj | hj | hj
    · rw [if_neg fun h => absurd h.2 (by omega), partly_of_lt (Or.inr hj)]
      exact bidiagonal_congr (fun _ => rfl) fun h => absurd h (by omega)
    · obtain rfl : j = col := Fin.ext (hj.trans hcol.symm)
      rw [if_neg fun h => absurd h.2 (by omega), partly_of_le hrow.ge hcol.ge]
      simp [bidiagonal, hrow, hcol]
    · rw [if_pos ⟨rfl, Nat.succ_le_of_lt hj⟩, bidiagonal_of_succ_lt (by omega)]
  · have hne : (i : ℕ) ≠ k := fun h => hi (Fin.ext (h.trans hrow.symm))
    rw [if_neg fun h => hi h.1]
    by_cases hdone : (i : ℕ) < k ∨ (j : ℕ) < k + 1
    · rw [partly_of_lt hdone, partly_of_lt (hdone.imp_left Nat.lt_succ_of_lt)]
      refine bidiagonal_congr (fun _ => rfl) fun _ => ?_
      rw [Function.update_of_ne hne]
    · rw [partly_of_le (by omega) (by omega), partly_of_le (by omega) (by omega)]

theorem drops_row {k : ℕ} (row : Fin m) (col : Fin n) (hrow : (row : ℕ) = k)
    (hcol : (col : ℕ) = k + 1) :
    Drops (partly d e R k (k + 1))
      (partly d (Function.update e k (R row col)) R (k + 1) (k + 1)) := by
  intro i j
  rw [partly_dropped_row row col hrow hcol]
  by_cases hdropped : i = row ∧ k + 2 ≤ (j : ℕ)
  · exact Or.inr (if_pos hdropped)
  · exact Or.inl (if_neg hdropped)

theorem sum_abs_dropped_row {k : ℕ} (row : Fin m) (col : Fin n) (hrow : (row : ℕ) = k)
    (hcol : (col : ℕ) = k + 1) :
    ∑ i, ∑ j, |partly d e R k (k + 1) i j -
        partly d (Function.update e k (R row col)) R (k + 1) (k + 1) i j| =
      ∑ j : Fin n, if k + 2 ≤ (j : ℕ) then |R row j| else 0 := by
  simp only [partly_dropped_row row col hrow hcol]
  refine (sum_abs_sub_row row fun i j hi => ?_).trans (Finset.sum_congr rfl fun j _ => ?_)
  · rw [if_neg fun h => hi h.1]
  · by_cases hj : k + 2 ≤ (j : ℕ)
    · rw [if_pos ⟨rfl, hj⟩, if_pos hj, sub_zero, partly_of_le hrow.ge (by omega)]
    · rw [if_neg fun h => hj h.2, if_neg hj, sub_self, abs_zero]

end Partly

/-! ### Steps of the reduction -/

namespace Bidiagonal

/-- The rows before `p` and the columns before `q` are finished. -/
structure Reduction.Reaches (A : Matrix (Fin m) (Fin n) ℝ) (p q : ℕ) (s : Reduction ρ) :
    Prop where
  diag_size : s.form.diag.size = q
  offDiag_size : s.form.offDiag.size = min p (n - 1)
  rest : ∃ R : Matrix (Fin m) (Fin n) ρ, s.rest.Stores R ∧
    Carries s.form.u s.form.v s.form.discarded A
      (partly (reals s.form.diag) (reals s.form.offDiag) (R.map value) p q)

/-- The sum of the absolute values of a vector. -/
theorem ends_absoluteSum {vector : ℕ → Except Failure ρ} {x : Fin m → ρ}
    (hx : ∀ i : Fin m, vector i = .ok (x i)) {start : ℕ} (hstart : start ≤ m) :
    Ends E (fun s => value s = ∑ i : Fin m, if start ≤ (i : ℕ) then |value (x i)| else 0)
      (absoluteSum vector start m) := by
  refine ends_sum (K := ℝ) hstart (fun i => |value (x i)|) fun i sum _ => ?_
  rw [hx i]
  exact (ExactScalar.value_add _ _).trans (congrArg _ (ExactReal.value_abs _))

variable {A : Matrix (Fin m) (Fin n) ℝ} {s : Reduction ρ} {k : ℕ}

/-- Column `k` is finished, by a reflection or by dropping what is below the diagonal. -/
theorem ends_reflectColumn (hmin : 0 ≤ value (RealScalar.minPositive : ρ)) (hm : k < m) (hn : k < n)
    (hs : s.Reaches A k k) : Ends E (·.Reaches A k (k + 1)) (s.reflectColumn k) := by
  obtain ⟨R, hR, hcarries⟩ := hs.rest
  have hcolumn (i : Fin m) : s.rest.entry i k = .ok (R i ⟨k, hn⟩) := hR.entry i ⟨k, hn⟩
  unfold Reduction.reflectColumn
  rw [hR.nrows]
  refine (Reflection.ends_ofVector? hmin hcolumn ⟨k, hm⟩).bind fun h? hh => ?_
  cases h? with
  | some h =>
      obtain ⟨w, hw, hreflects⟩ := hh h rfl
      refine (hw.ends_columns hR (k + 1)).bind fun rest hrest => ?_
      obtain ⟨R', hrest, hR'⟩ := hrest
      refine (hcarries.reflect_left hw).bind fun u hu => ?_
      refine ⟨?_, hs.offDiag_size, R', hrest, ?_⟩
      · rw [Array.size_push, hs.diag_size]
      · rw [mirror_mul_partly (R := R.map value) ⟨k, hm⟩ ⟨k, hn⟩ rfl rfl
          (fun t ht => hw.before t ht) hreflects, ← hR'] at hu
        rw [reals_push, hs.diag_size]
        exact hu
  | none =>
      refine (ends_absoluteSum hcolumn hm).bind fun skipped hskipped => ?_
      beta_reduce
      rw [hcolumn ⟨k, hm⟩]
      refine ⟨?_, hs.offDiag_size, R, hR, ?_⟩
      · rw [Array.size_push, hs.diag_size]
      rw [reals_push, hs.diag_size]
      refine hcarries.drop (drops_column (R := R.map value) ⟨k, hm⟩ ⟨k, hn⟩ rfl rfl) ?_
      rw [hskipped]
      exact (sum_abs_dropped_column (R := R.map value) ⟨k, hm⟩ ⟨k, hn⟩ rfl rfl).le

/-- Row `k` is finished, by a reflection or by dropping what is beyond the entry beside
the diagonal. -/
theorem ends_reflectRow (hmin : 0 ≤ value (RealScalar.minPositive : ρ)) (hm : k < m)
    (hn : k + 1 < n) (hs : s.Reaches A k (k + 1)) :
    Ends E (·.Reaches A (k + 1) (k + 1)) (s.reflectRow k) := by
  obtain ⟨R, hR, hcarries⟩ := hs.rest
  have hrow (j : Fin n) : s.rest.entry k j = .ok (R ⟨k, hm⟩ j) := hR.entry ⟨k, hm⟩ j
  have hsize : s.form.offDiag.size = k := by
    rw [hs.offDiag_size]
    omega
  have hfinished (x : ρ) : (s.form.offDiag.push x).size = min (k + 1) (n - 1) := by
    rw [Array.size_push, hsize]
    omega
  unfold Reduction.reflectRow
  rw [hR.ncols]
  refine Ends.ite_bind (P := fun h? : Option (Reflection ρ) => ∀ h ∈ h?, ∃ w : Fin n → ℝ,
    h.Along ⟨k + 1, hn⟩ w ∧
      h.Reflects ⟨k + 1, hn⟩ w (QR.rest (k + 1) fun j => value (R ⟨k, hm⟩ j))) ?_ fun h? hh => ?_
  · by_cases htwo : k + 2 < n
    · rw [if_pos htwo]
      exact Reflection.ends_ofVector? hmin hrow ⟨k + 1, hn⟩
    · rw [if_neg htwo]
      exact fun h hh => absurd hh (Option.not_mem_none h)
  cases h? with
  | some h =>
      obtain ⟨w, hw, hreflects⟩ := hh h rfl
      refine (hw.ends_rows hR (k + 1)).bind fun rest hrest => ?_
      obtain ⟨R', hrest, hR'⟩ := hrest
      refine (hcarries.reflect_right hw).bind fun v hv => ?_
      refine ⟨hs.diag_size, hfinished _, R', hrest, ?_⟩
      rw [partly_mul_mirror (R := R.map value) ⟨k, hm⟩ ⟨k + 1, hn⟩ rfl rfl
        (fun t ht => hw.before t ht) hreflects, ← hR'] at hv
      rw [reals_push, hsize]
      exact hv
  | none =>
      refine (ends_absoluteSum hrow hn).bind fun skipped hskipped => ?_
      beta_reduce
      rw [hrow ⟨k + 1, hn⟩]
      refine ⟨hs.diag_size, hfinished _, R, hR, ?_⟩
      rw [reals_push, hsize]
      refine hcarries.drop (drops_row (R := R.map value) ⟨k, hm⟩ ⟨k + 1, hn⟩ rfl rfl) ?_
      rw [hskipped]
      exact (sum_abs_dropped_row (R := R.map value) ⟨k, hm⟩ ⟨k + 1, hn⟩ rfl rfl).le

/-- One step finishes a column and a row. -/
theorem ends_step (hmin : 0 ≤ value (RealScalar.minPositive : ρ)) (hnm : n ≤ m) (hn : k < n)
    (hs : s.Reaches A k k) : Ends E (·.Reaches A (k + 1) (k + 1)) (s.step k) := by
  unfold Reduction.step
  refine (ends_reflectColumn hmin (hn.trans_le hnm) hn hs).bind fun s hs => ?_
  obtain ⟨R, hR, hcarries⟩ := hs.rest
  rw [hR.ncols]
  by_cases hlast : k + 1 < n
  · rw [if_pos hlast]
    exact ends_reflectRow hmin (hn.trans_le hnm) hlast hs
  · -- with the last column everything is finished
    have hall : partly (reals s.form.diag) (reals s.form.offDiag) (R.map value) k (k + 1) =
        partly (reals s.form.diag) (reals s.form.offDiag) (R.map value) (k + 1) (k + 1) := by
      ext i j
      have hj : (j : ℕ) < k + 1 := by omega
      rw [partly_of_lt (Or.inr hj), partly_of_lt (Or.inr hj)]
    rw [if_neg hlast]
    refine ⟨hs.diag_size, ?_, R, hR, hall ▸ hcarries⟩
    rw [hs.offDiag_size]
    omega

/-- The reduction ends in a bidiagonal form of the matrix. -/
theorem ends_ofTall (hmin : 0 ≤ value (RealScalar.minPositive : ρ)) (hnm : n ≤ m)
    {a : DenseMatrix ρ} {M : Matrix (Fin m) (Fin n) ρ} (hM : a.Stores M) :
    Ends E (·.Represents (M.map value)) (Bidiagonal.ofTall a) := by
  unfold Bidiagonal.ofTall
  rw [hM.nrows, hM.ncols]
  refine (DenseMatrix.ends_identity (K := ℝ) m).bind fun u hu => ?_
  refine (DenseMatrix.ends_identity (K := ℝ) n).bind fun v hv => ?_
  obtain ⟨U, hu, hU⟩ := hu
  obtain ⟨V, hv, hV⟩ := hv
  have hstart : Reduction.Reaches (M.map value) 0 0
      { rest := a, form := { diag := #[], offDiag := #[], u, v, discarded := (0 : ρ) } } := by
    refine ⟨rfl, (Nat.zero_min _).symm, M, hM, ?_⟩
    have hnone (d e : ℕ → ℝ) : partly d e (M.map value) 0 0 = M.map value := by
      ext i j
      exact partly_of_le (Nat.zero_le _) (Nat.zero_le _)
    rw [hnone]
    exact Carries.refl hu hU hv hV _
  refine (Ends.foldlM_positions (I := fun k s => s.Reaches (M.map value) k k) (Nat.zero_le n)
    hstart fun k s _ hk hs => ends_step hmin hnm hk hs).bind fun s hs => ?_
  obtain ⟨R, hR, hcarries⟩ := hs.rest
  have hall : partly (reals s.form.diag) (reals s.form.offDiag) (R.map value) n n =
      bidiagonal (reals s.form.diag) (reals s.form.offDiag) := by
    ext i j
    exact partly_of_lt (Or.inr j.isLt)
  refine ⟨hs.diag_size, ?_, hall ▸ hcarries⟩
  rw [hs.offDiag_size]
  omega

end Bidiagonal

end

end DenseFactor.SVD
