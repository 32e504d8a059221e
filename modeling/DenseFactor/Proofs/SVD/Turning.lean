import Mathlib
import DenseFactor.Proofs.Orthogonal
import DenseFactor.Proofs.SVD.Bidiagonal

/-!
# DenseFactor.Proofs.SVD.Turning

What plane rotations make of a bidiagonal matrix with **one more entry** beside or below
the form.

Design points:

* The entry that a pass moves along lives in two numbers of the program, not in the
  stored form. Here it is a summand of the matrix, `spike` or `upper`.
* A row or a column of the form is a combination of unit vectors (`bidiagonal_row`,
  `bidiagonal_column`). A rotation combines two of them, so each lemma compares
  coefficients.
-/

namespace DenseFactor.SVD

variable {m n : ℕ}

noncomputable section

/-! ### Single entries -/

/-- One at position `p`, zero elsewhere. -/
def unit (p i : ℕ) : ℝ := if i = p then 1 else 0

theorem unit_of_ne {p i : ℕ} (h : i ≠ p) : unit p i = 0 := if_neg h

theorem unit_self (p : ℕ) : unit p p = 1 := if_pos rfl

/-- Where the unit is not zero, it stands at its position. -/
theorem mul_unit_congr {x x' : ℝ} {p i : ℕ} (h : i = p → x = x') :
    x * unit p i = x' * unit p i := by
  by_cases hi : i = p
  · rw [h hi]
  · rw [unit_of_ne hi, mul_zero, mul_zero]

/-- One entry in a matrix of zeros, if its position is in the shape. -/
def spike (row col : ℕ) (z : ℝ) : Matrix (Fin m) (Fin n) ℝ :=
  Matrix.of fun i j => z * unit row i * unit col j

/-- An entry above the form in the row before `k`, if there is one. -/
def upper (k : ℕ) (z : ℝ) : Matrix (Fin m) (Fin n) ℝ :=
  Matrix.of fun i j => z * unit k (i + 1) * unit (k + 1) j

theorem unit_nonneg (p i : ℕ) : 0 ≤ unit p i := by
  unfold unit
  split
  · exact zero_le_one
  · exact le_rfl

/-- At most one position of a run is `p`. -/
theorem sum_unit_le (p : ℕ) : ∑ i : Fin n, unit p i ≤ 1 := by
  by_cases hp : p < n
  · rw [Finset.sum_eq_single (⟨p, hp⟩ : Fin n), unit_self]
    · exact fun i _ hi => unit_of_ne fun h => hi (Fin.ext h)
    · exact fun hnot => absurd (Finset.mem_univ _) hnot
  · have hne (i : Fin n) : (i : ℕ) ≠ p := by omega
    rw [Finset.sum_eq_zero fun i _ => unit_of_ne (hne i)]
    exact zero_le_one

/-- One entry is all that a spike can be away from zero. -/
theorem sum_abs_spike_le (row col : ℕ) (z : ℝ) :
    ∑ i, ∑ j, |(spike row col z : Matrix (Fin m) (Fin n) ℝ) i j| ≤ |z| := by
  have hterm (i : Fin m) (j : Fin n) : |(spike row col z : Matrix (Fin m) (Fin n) ℝ) i j| =
      |z| * (unit row i * unit col j) := by
    rw [spike, Matrix.of_apply, mul_assoc, abs_mul,
      abs_of_nonneg (mul_nonneg (unit_nonneg _ _) (unit_nonneg _ _))]
  calc ∑ i, ∑ j, |(spike row col z : Matrix (Fin m) (Fin n) ℝ) i j|
      = |z| * ((∑ i : Fin m, unit row i) * ∑ j : Fin n, unit col j) := by
        rw [Finset.sum_mul_sum]
        simp only [hterm, Finset.mul_sum]
    _ ≤ |z| * (1 * 1) := by
        refine mul_le_mul_of_nonneg_left ?_ (abs_nonneg z)
        exact mul_le_mul (sum_unit_le row) (sum_unit_le col)
          (Finset.sum_nonneg fun _ _ => unit_nonneg _ _) zero_le_one
    _ = |z| := by ring

theorem spike_zero (row col : ℕ) : (spike row col 0 : Matrix (Fin m) (Fin n) ℝ) = 0 := by
  ext i j
  rw [spike, Matrix.of_apply, zero_mul, zero_mul, Matrix.zero_apply]

theorem upper_zero (k : ℕ) : (upper k 0 : Matrix (Fin m) (Fin n) ℝ) = 0 := by
  ext i j
  rw [upper, Matrix.of_apply, zero_mul, zero_mul, Matrix.zero_apply]

/-- A row of the form. -/
theorem bidiagonal_row (d e : ℕ → ℝ) (i : Fin m) (j : Fin n) :
    bidiagonal d e i j = d i * unit i j + e i * unit (i + 1) j := by
  simp only [bidiagonal, Matrix.of_apply]
  by_cases hij : (i : ℕ) = j
  · rw [if_pos hij, ← hij, unit_self, unit_of_ne (by omega)]
    ring
  · rw [if_neg hij, unit_of_ne (Ne.symm hij)]
    by_cases hbeside : (i : ℕ) + 1 = j
    · rw [if_pos hbeside, hbeside, unit_self]
      ring
    · rw [if_neg hbeside, unit_of_ne (Ne.symm hbeside)]
      ring

/-- A column of the form. -/
theorem bidiagonal_column (d e : ℕ → ℝ) (i : Fin m) (j : Fin n) :
    bidiagonal d e i j = d j * unit j i + e i * unit j (i + 1) := by
  simp only [bidiagonal, Matrix.of_apply]
  by_cases hij : (i : ℕ) = j
  · rw [if_pos hij, hij, unit_self, unit_of_ne (by omega)]
    ring
  · rw [if_neg hij, unit_of_ne hij]
    by_cases hbeside : (i : ℕ) + 1 = j
    · rw [if_pos hbeside, hbeside, unit_self]
      ring
    · rw [if_neg hbeside, unit_of_ne hbeside]
      ring

/-- Replacing a diagonal entry changes one entry of the form. -/
theorem bidiagonal_sub_update_diag (d e : ℕ → ℝ) (k : ℕ) (x : ℝ) (i : Fin m) (j : Fin n) :
    bidiagonal d e i j - bidiagonal (Function.update d k x) e i j = spike k k (d k - x) i j := by
  rw [bidiagonal_row, bidiagonal_row, spike, Matrix.of_apply]
  by_cases hik : (i : ℕ) = k
  · rw [hik, Function.update_self, unit_self]
    ring
  · rw [Function.update_of_ne hik, unit_of_ne hik]
    ring

/-- Replacing an entry beside the diagonal changes one entry of the form. -/
theorem bidiagonal_sub_update_beside (d e : ℕ → ℝ) (k : ℕ) (x : ℝ) (i : Fin m) (j : Fin n) :
    bidiagonal d e i j - bidiagonal d (Function.update e k x) i j =
      spike k (k + 1) (e k - x) i j := by
  rw [bidiagonal_row, bidiagonal_row, spike, Matrix.of_apply]
  by_cases hik : (i : ℕ) = k
  · rw [hik, Function.update_self, unit_self]
    ring
  · rw [Function.update_of_ne hik, unit_of_ne hik]
    ring

theorem drops_diag (d e : ℕ → ℝ) (k : ℕ) :
    Drops (bidiagonal d e : Matrix (Fin m) (Fin n) ℝ) (bidiagonal (Function.update d k 0) e) := by
  intro i j
  simp only [bidiagonal, Matrix.of_apply]
  by_cases hij : (i : ℕ) = j
  · rw [if_pos hij, if_pos hij]
    by_cases hk : (j : ℕ) = k
    · exact Or.inr (hk ▸ Function.update_self ..)
    · exact Or.inl (Function.update_of_ne hk ..)
  · rw [if_neg hij, if_neg hij]
    exact Or.inl rfl

theorem drops_beside (d e : ℕ → ℝ) (k : ℕ) :
    Drops (bidiagonal d e : Matrix (Fin m) (Fin n) ℝ) (bidiagonal d (Function.update e k 0)) := by
  intro i j
  simp only [bidiagonal, Matrix.of_apply]
  by_cases hij : (i : ℕ) = j
  · rw [if_pos hij, if_pos hij]
    exact Or.inl rfl
  · rw [if_neg hij, if_neg hij]
    by_cases hk : (i : ℕ) = k
    · rw [hk, Function.update_self, ite_self]
      exact Or.inr rfl
    · rw [Function.update_of_ne hk]
      exact Or.inl rfl

/-- Permuting the rows and columns of a diagonal form alike permutes its diagonal. -/
theorem bidiagonal_permuted {d e : ℕ → ℝ} (σ : Equiv.Perm ℕ) (he : ∀ i, e i = 0)
    {rows : Fin m → Fin m} {cols : Fin n → Fin n} (hrows : ∀ r, (rows r : ℕ) = σ r)
    (hcols : ∀ l, (cols l : ℕ) = σ l) :
    ((bidiagonal d e).submatrix rows id).submatrix id cols = bidiagonal (d ∘ σ) e := by
  ext r l
  have hunit : unit (σ r) (σ l) = unit r l := by
    simp [unit]
  rw [Matrix.submatrix_apply, Matrix.submatrix_apply, id, id, bidiagonal_row, bidiagonal_row,
    hrows, hcols, hunit, he, he, Function.comp_apply]
  ring

/-! ### Rotations -/

section Turns

variable {d e e₀ : ℕ → ℝ} {c s y z : ℝ} {k : ℕ}

theorem turnRows_apply (c s : ℝ) (j k : Fin m) (M : Matrix (Fin m) (Fin n) ℝ) (i : Fin m)
    (l : Fin n) : turnRows c s j k M i l =
      if i = j then c * M j l + s * M k l else if i = k then c * M k l - s * M j l else M i l :=
  rfl

theorem turnColumns_apply (c s : ℝ) (j k : Fin n) (M : Matrix (Fin m) (Fin n) ℝ) (i : Fin m)
    (l : Fin n) : turnColumns c s j k M i l =
      if l = j then c * M i j + s * M i k else if l = k then c * M i k - s * M i j else M i l :=
  rfl

/-- An entry alone in its row is turned into the row of the form where its column has
the diagonal entry, and comes out one column further. -/
theorem turnRows_chased {row j : Fin m} (hrow : row < j) (hd : d row = 0) (he : e row = 0)
    (hturns : c * z - s * d j = 0) :
    turnRows c s j row (bidiagonal d e + spike row j z) =
      (bidiagonal (Function.update d j (c * d j + s * z)) (Function.update e j (c * e j)) +
        spike row (j + 1) (-s * e j) : Matrix (Fin m) (Fin n) ℝ) := by
  have hne : (j : ℕ) ≠ row := (Fin.lt_def.1 hrow).ne'
  ext i l
  rw [turnRows_apply]
  simp only [Matrix.add_apply, bidiagonal_row, spike, Matrix.of_apply]
  by_cases hij : i = j
  · rw [if_pos hij, hij, unit_of_ne hne, unit_self, Function.update_self, Function.update_self,
      hd, he]
    ring
  have hij' : (i : ℕ) ≠ j := fun h => hij (Fin.ext h)
  rw [if_neg hij, Function.update_of_ne hij', Function.update_of_ne hij']
  by_cases hir : i = row
  · rw [if_pos hir, hir, unit_of_ne hne, unit_self, hd, he]
    linear_combination hturns * unit j l
  · have hir' : (i : ℕ) ≠ row := fun h => hir (Fin.ext h)
    rw [if_neg hir, unit_of_ne hir']
    ring

/-- Turning two neighbouring columns moves the entry above the form below it. -/
theorem turnColumns_swept {j j' : Fin n} (hj : (j : ℕ) = k) (hj' : (j' : ℕ) = k + 1)
    (hkept : ∀ i, i + 1 ≠ k → e₀ i = e i)
    (hturns : ∀ i, i + 1 = k → e₀ i = c * e i + s * z ∧ c * z - s * e i = 0) :
    turnColumns c s j j' (bidiagonal d e + upper k z) =
      (bidiagonal
          (Function.update (Function.update d k (c * d k + s * e k)) (k + 1) (c * d (k + 1)))
          (Function.update e₀ k (c * e k - s * d k)) +
        spike (k + 1) k (s * d (k + 1)) : Matrix (Fin m) (Fin n) ℝ) := by
  have hne : k ≠ k + 1 := k.lt_succ_self.ne
  ext i l
  -- the rows that the two columns meet
  have hunit : unit (k + 1) (i + 1) = unit k i := by
    simp [unit]
  have he : e i * unit k i = e k * unit k i := mul_unit_congr fun h => by rw [h]
  have he₀ : Function.update e₀ k (c * e k - s * d k) i * unit k i =
      (c * e k - s * d k) * unit k i :=
    mul_unit_congr fun h => by rw [h, Function.update_self]
  have hbefore : Function.update e₀ k (c * e k - s * d k) i * unit k (i + 1) =
      (c * e i + s * z) * unit k (i + 1) :=
    mul_unit_congr fun h => by rw [Function.update_of_ne (by omega), (hturns i h).1]
  have hgone : (c * z - s * e i) * unit k (i + 1) = 0 * unit k (i + 1) :=
    mul_unit_congr fun h => (hturns i h).2
  rw [turnColumns_apply]
  simp only [Matrix.add_apply, bidiagonal_column, spike, upper, Matrix.of_apply]
  by_cases hlj : l = j
  · rw [if_pos hlj, hlj, hj, hj', Function.update_of_ne hne, Function.update_self, hunit, hbefore,
      unit_self, unit_self, unit_of_ne hne]
    linear_combination s * he
  have hlj' : (l : ℕ) ≠ k := fun h => hlj (Fin.ext (h.trans hj.symm))
  rw [if_neg hlj, unit_of_ne hlj']
  by_cases hlk : l = j'
  · rw [if_pos hlk, hlk, hj, hj', Function.update_self, hunit, he₀, unit_self, unit_of_ne hne]
    linear_combination c * he + hgone
  · have hlk' : (l : ℕ) ≠ k + 1 := fun h => hlk (Fin.ext (h.trans hj'.symm))
    have hrest : Function.update e₀ k (c * e k - s * d k) i * unit l (i + 1) =
        e i * unit l (i + 1) :=
      mul_unit_congr fun h => by rw [Function.update_of_ne (by omega), hkept i (by omega)]
    rw [if_neg hlk, unit_of_ne hlk', Function.update_of_ne hlk', Function.update_of_ne hlj', hrest]
    ring

/-- Turning two neighbouring rows moves the entry below the form above it, one row
further. -/
theorem turnRows_swept {i₀ i₁ : Fin m} (hi₀ : (i₀ : ℕ) = k) (hi₁ : (i₁ : ℕ) = k + 1)
    (hturns : c * y - s * d k = 0) :
    turnRows c s i₀ i₁ (bidiagonal d e + spike (k + 1) k y) =
      (bidiagonal
          (Function.update (Function.update d k (c * d k + s * y)) (k + 1)
            (c * d (k + 1) - s * e k))
          (Function.update (Function.update e k (c * e k + s * d (k + 1))) (k + 1)
            (c * e (k + 1))) +
        upper (k + 1) (s * e (k + 1)) : Matrix (Fin m) (Fin n) ℝ) := by
  have hne : k ≠ k + 1 := k.lt_succ_self.ne
  ext i l
  rw [turnRows_apply]
  simp only [Matrix.add_apply, bidiagonal_row, spike, upper, Matrix.of_apply]
  by_cases hik : i = i₀
  · rw [if_pos hik, hik, hi₀, hi₁, unit_of_ne hne, unit_self, Function.update_of_ne hne,
      Function.update_self, Function.update_of_ne hne, Function.update_self]
    ring
  have hik' : (i : ℕ) ≠ k := fun h => hik (Fin.ext (h.trans hi₀.symm))
  have habove : unit (k + 1) ((i : ℕ) + 1) = 0 := unit_of_ne (by omega)
  rw [if_neg hik, habove]
  by_cases hik₁ : i = i₁
  · rw [if_pos hik₁, hik₁, hi₀, hi₁, unit_of_ne hne, unit_self, Function.update_self,
      Function.update_self]
    linear_combination hturns * unit k l
  · have hik₁' : (i : ℕ) ≠ k + 1 := fun h => hik₁ (Fin.ext (h.trans hi₁.symm))
    rw [if_neg hik₁, unit_of_ne hik₁', Function.update_of_ne hik₁', Function.update_of_ne hik',
      Function.update_of_ne hik₁', Function.update_of_ne hik']
    ring

end Turns

end

end DenseFactor.SVD
