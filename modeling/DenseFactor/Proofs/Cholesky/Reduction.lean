import Mathlib
import DenseFactor.Cholesky.Pivoted
import DenseFactor.Proofs.Cholesky.Complement
import DenseFactor.Proofs.Edit
import DenseFactor.Proofs.Order
import DenseFactor.Proofs.Scalar.Real

/-!
# DenseFactor.Proofs.Cholesky.Reduction

The elimination of a symmetric matrix whose **largest remaining diagonal entry** comes
first: one step, and by induction the run until nothing but small entries is left.

Design points:

* `s.Holds σ W L` ties a state to the working matrix, to the root so far, and to the
  permutation that lists the rows of the matrix in the order of elimination.
* The working matrix is kept whole, but only its part from position `r` on counts;
  `residual w r` is this part as a matrix.
* `Reduces A r σ w l` is the invariant. Its factor is a `PartialFactor` of `A` in the order
  of elimination, and `A` is positive semidefinite exactly if what is left is.
* A run may stop at entries that are small, and it may refuse the matrix. `Settled` and
  `Refused` say what is known in either case.
-/

namespace DenseFactor.PivotedCholesky

open ExactScalar (value)
open scoped Matrix

noncomputable section

variable {n : ℕ}

/-! ### What is left -/

/-- What the working matrix `w` has left from position `r` on. -/
def residual (w : Matrix (Fin n) (Fin n) ℝ) (r : ℕ) : Matrix (Fin n) (Fin n) ℝ :=
  Matrix.of fun i j => if r ≤ (i : ℕ) ∧ r ≤ (j : ℕ) then w i j else 0

/-- The working matrix `w'` and the root `l'` come from `w` and `l` by the elimination of
position `r`. -/
structure EliminatesPosition (r : Fin n) (w l w' l' : Matrix (Fin n) (Fin n) ℝ) : Prop where
  rest (i j : Fin n) (hi : r < i) (hj : r < j) : w' i j = w i j - w i r * w r j / w r r
  column (i : Fin n) (hi : r ≤ i) : l' i r = w i r / √(w r r)
  kept (i t : Fin n) (h : t ≠ r ∨ i < r) : l' i t = l i t

section Residual

variable {w : Matrix (Fin n) (Fin n) ℝ} {r : ℕ}

theorem residual_of_le (w : Matrix (Fin n) (Fin n) ℝ) {i j : Fin n} (hi : r ≤ (i : ℕ))
    (hj : r ≤ (j : ℕ)) : residual w r i j = w i j :=
  if_pos ⟨hi, hj⟩

theorem residual_of_lt (w : Matrix (Fin n) (Fin n) ℝ) {i j : Fin n}
    (h : (i : ℕ) < r ∨ (j : ℕ) < r) : residual w r i j = 0 :=
  if_neg (by omega)

@[simp]
theorem residual_zero (w : Matrix (Fin n) (Fin n) ℝ) : residual w 0 = w := by
  ext i j
  exact residual_of_le w (Nat.zero_le _) (Nat.zero_le _)

/-- Exchanging two positions that are left. -/
theorem residual_exchange (w : Matrix (Fin n) (Fin n) ℝ) {a b : Fin n} (ha : r ≤ (a : ℕ))
    (hb : r ≤ (b : ℕ)) :
    residual (w.submatrix (Equiv.swap a b) (Equiv.swap a b)) r =
      (residual w r).submatrix (Equiv.swap a b) (Equiv.swap a b) := by
  ext i j
  simp only [residual, Matrix.of_apply, Matrix.submatrix_apply, le_swap_iff ha hb]

/-- Once it is exchanged into place, no diagonal entry that is left is larger than a largest
one. -/
theorem diag_exchange_le {w : Matrix (Fin n) (Fin n) ℝ} {r q : Fin n} (hrq : r ≤ q)
    (hmax : ∀ i, r ≤ i → w i i ≤ w q q) (i : Fin n) (hri : r ≤ i) :
    w.submatrix (Equiv.swap r q) (Equiv.swap r q) i i ≤
      w.submatrix (Equiv.swap r q) (Equiv.swap r q) r r := by
  rw [Matrix.submatrix_apply, Matrix.submatrix_apply, Equiv.swap_apply_left]
  exact hmax _ ((le_swap_iff le_rfl hrq i).2 hri)

/-- An eliminated position leaves its complement. -/
theorem EliminatesPosition.residual_eq {r : Fin n} {l w' l' : Matrix (Fin n) (Fin n) ℝ}
    (h : EliminatesPosition r w l w' l') (hr : w r r ≠ 0) :
    residual w' (r + 1) = complement (residual w r) r := by
  have hpivot : residual w r r r ≠ 0 := by
    rwa [residual_of_le w le_rfl le_rfl]
  refine eq_complement hpivot (fun i j h => residual_of_lt w h)
    (fun i j h => residual_of_lt w' (by omega)) fun i j hi hj => ?_
  rw [residual_of_le w' hi hj, h.rest i j hi hj, residual_of_le w hi.le hj.le,
    residual_of_le w hi.le le_rfl, residual_of_le w le_rfl hj.le,
    residual_of_le w le_rfl le_rfl]

end Residual

/-! ### The invariant -/

/-- In the order `σ` of elimination the first `r` columns of `l` are those of a factor of
`A`, the others are empty, and `w` has the rest. -/
structure Reduces (A : Matrix (Fin n) (Fin n) ℝ) (r : ℕ) (σ : Equiv.Perm (Fin n))
    (w l : Matrix (Fin n) (Fin n) ℝ) : Prop where
  factor : PartialFactor (A.submatrix σ σ) l (residual w r) r
  empty (i t : Fin n) (ht : r ≤ (t : ℕ)) : l i t = 0
  semidefinite : A.PosSemidef ↔ (residual w r).PosSemidef

namespace Reduces

variable {A w l w' l' : Matrix (Fin n) (Fin n) ℝ} {r : ℕ} {σ : Equiv.Perm (Fin n)}

theorem start (hA : A.IsSymm) : Reduces A 0 1 A 0 where
  factor := by
    rw [residual_zero]
    exact PartialFactor.start hA 0
  empty _ _ _ := rfl
  semidefinite := by rw [residual_zero]

theorem symm (h : Reduces A r σ w l) {i j : Fin n} (hi : r ≤ (i : ℕ)) (hj : r ≤ (j : ℕ)) :
    w i j = w j i := by
  have hij := h.factor.symm.apply j i
  rwa [residual_of_le w hi hj, residual_of_le w hj hi] at hij

/-- Two positions that are left may change places. -/
theorem exchange (h : Reduces A r σ w l) {a b : Fin n} (ha : r ≤ (a : ℕ)) (hb : r ≤ (b : ℕ)) :
    Reduces A r (σ * Equiv.swap a b) (w.submatrix (Equiv.swap a b) (Equiv.swap a b))
      (l.submatrix (Equiv.swap a b) id) where
  factor := by
    rw [residual_exchange w ha hb]
    exact h.factor.exchange ha hb
  empty i t ht := h.empty _ t ht
  semidefinite := by
    rw [h.semidefinite, residual_exchange w ha hb, Matrix.posSemidef_submatrix_equiv]

/-- A positive pivot keeps the invariant. -/
theorem step {r : Fin n} (h : Reduces A r σ w l) (hr : 0 < w r r)
    (heliminates : EliminatesPosition r w l w' l') : Reduces A (r + 1) σ w' l' := by
  have hpivot : residual w r r r = w r r := residual_of_le w le_rfl le_rfl
  have hpos : 0 < residual w r r r := by rwa [hpivot]
  refine ⟨?_, fun i t ht => ?_, ?_⟩
  · rw [heliminates.residual_eq hr.ne']
    refine h.factor.step hpos (fun i t ht => heliminates.kept i t (Or.inl ht.ne)) fun i => ?_
    rw [hpivot]
    by_cases hi : i < r
    · rw [heliminates.kept i r (Or.inr hi), h.empty i r le_rfl, residual_of_lt w (Or.inl hi),
        zero_div]
    · rw [heliminates.column i (not_lt.1 hi), residual_of_le w (not_lt.1 hi) le_rfl]
  · have htr : t ≠ r := by
      rintro rfl
      omega
    rw [heliminates.kept i t (Or.inl htr), h.empty i t (by omega)]
  · rw [heliminates.residual_eq hr.ne', posSemidef_complement_iff h.factor.symm hpos,
      h.semidefinite]

end Reduces

/-! ### States -/

section States

variable {ρ : Type} [RealScalar ρ] {E : Failure → Prop}

/-- The state has the working matrix `W` and the root `L`, in the order `σ`. -/
structure Reduction.Holds (s : Reduction ρ) (σ : Equiv.Perm (Fin n))
    (W L : Matrix (Fin n) (Fin n) ρ) : Prop where
  work : s.work.Stores W
  root : s.root.Stores L
  order : Lists s.order σ

namespace Reduction.Holds

variable {s : Reduction ρ} {σ : Equiv.Perm (Fin n)} {W L : Matrix (Fin n) (Fin n) ρ}

omit [RealScalar ρ] in
/-- An exchange moves rows and columns of the working matrix, rows of the root, and
records it. -/
theorem exchange (h : s.Holds σ W L) (a b : Fin n) :
    Ends Never (·.Holds (σ * Equiv.swap a b)
        (W.submatrix (Equiv.swap a b) (Equiv.swap a b)) (L.submatrix (Equiv.swap a b) id))
      (s.exchange a b) := by
  unfold Reduction.exchange
  by_cases hab : a = b
  · subst hab
    rw [if_pos rfl, Equiv.swap_self]
    exact h
  have hne : (a : ℕ) ≠ b := fun hval => hab (Fin.ext hval)
  have hother (i : Fin n) : (if (i : ℕ) = a then (b : ℕ) else if (i : ℕ) = b then a else i) =
      (Equiv.swap a b i : Fin n) := by
    rw [Equiv.swap_apply_def]
    simp only [Fin.ext_iff]
    split_ifs <;> rfl
  rw [if_neg hne]
  let W' : Matrix (Fin n) (Fin n) ρ := W.submatrix (Equiv.swap a b) (Equiv.swap a b)
  refine (Ends.mapEntries_of_ok (N := W') h.work fun i j => ?_).bind fun work hwork => ?_
  · simp only [hother]
    exact h.work.entry _ _
  refine (h.root.swapRows a b).bind fun root hroot => ?_
  refine (h.order.exchange a b).bind fun order horder => ?_
  exact ⟨hwork, hroot, horder⟩

variable [ExactReal ρ]

/-- The search finds a position with a largest diagonal entry among those left. -/
theorem ends_largestDiagonal (h : s.Holds σ W L) (r : Fin n) :
    Ends Never (fun p : ℕ => ∃ q : Fin n, p = q ∧ r ≤ q ∧
        ∀ i, r ≤ i → value (W i i) ≤ value (W q q))
      (s.largestDiagonal r) := by
  have hle : (r : ℕ) + 1 ≤ n := r.isLt
  unfold largestDiagonal
  rw [h.order.size]
  refine (Ends.foldPositions (I := fun k (p : ℕ) => ∃ q : Fin n, p = q ∧ r ≤ q ∧
    ∀ i : Fin n, r ≤ i → (i : ℕ) < k → value (W i i) ≤ value (W q q)) hle ?_ ?_).imp ?_
  · refine ⟨r, rfl, le_rfl, fun i hri hi => ?_⟩
    have hir : i = r := by omega
    rw [hir]
  · intro k p hk hkn hp
    obtain ⟨q, rfl, hrq, hmax⟩ := hp
    obtain ⟨t, rfl⟩ : ∃ t : Fin n, (t : ℕ) = k := ⟨⟨k, hkn⟩, rfl⟩
    rw [h.work.entry q q, Ends.ok_bind_iff, h.work.entry t t, Ends.ok_bind_iff]
    by_cases hlt : W q q < W t t
    · rw [if_pos hlt]
      have hle := ((ExactReal.lt_iff _ _).1 hlt).le
      refine ⟨t, rfl, by omega, fun i hri hi => ?_⟩
      by_cases hit : i < t
      · exact (hmax i hri hit).trans hle
      · have heq : i = t := by omega
        rw [heq]
    · rw [if_neg hlt]
      have hle := not_lt.1 ((ExactReal.lt_iff _ _).not.1 hlt)
      refine ⟨q, rfl, hrq, fun i hri hi => ?_⟩
      by_cases hit : i < t
      · exact hmax i hri hit
      · have heq : i = t := by omega
        rwa [heq]
  · intro p hp
    obtain ⟨q, hpq, hrq, hmax⟩ := hp
    exact ⟨q, hpq, hrq, fun i hri => hmax i hri i.isLt⟩

/-- The test for a negative entry is exact. -/
theorem ends_hasNegative (h : s.Holds σ W L) (r : ℕ) (small : ρ) :
    Ends Never (fun b => b = true ↔ ∃ i : Fin n, r ≤ (i : ℕ) ∧ value (W i i) < -value small)
      (s.hasNegative r small) := by
  unfold hasNegative
  rw [h.order.size]
  refine (Ends.anyM (P := fun k => ∃ i : Fin n, (i : ℕ) = k ∧ value (W i i) < -value small)
    fun k hk => ?_).imp fun b hb => ?_
  · obtain ⟨t, rfl⟩ : ∃ t : Fin n, (t : ℕ) = k := ⟨⟨k, (mem_positions.1 hk).2⟩, rfl⟩
    rw [h.work.entry t t, Ends.ok_bind_iff, Ends.pure_iff, decide_eq_true_iff, ExactReal.lt_iff,
      ExactReal.value_neg]
    constructor
    · intro hneg
      exact ⟨t, rfl, hneg⟩
    · intro hexists
      obtain ⟨i, hit, hneg⟩ := hexists
      rwa [Fin.ext hit] at hneg
  · rw [hb]
    constructor
    · intro hexists
      obtain ⟨k, hk, i, rfl, hneg⟩ := hexists
      exact ⟨i, (mem_positions.1 hk).1, hneg⟩
    · intro hexists
      obtain ⟨i, hri, hneg⟩ := hexists
      exact ⟨i, mem_positions.2 ⟨hri, i.isLt⟩, i, rfl, hneg⟩

/-- The new column of the root, below its diagonal entry. -/
theorem ends_column (h : s.Holds σ W L) (r : Fin n) {root : ρ} (hroot : value root ≠ 0) :
    Ends E (fun xs => ∃ x : Fin n → ρ, ∀ i : Fin n, Storage.read xs i = .ok (x i) ∧
        (r < i → value (x i) = value (W i r) / value root))
      (s.column r root) := by
  unfold column
  rw [h.order.size]
  extract_lets inverse
  refine Ends.collect (P := fun i x => r < i → value x = value (W i r) / value root) fun i => ?_
  by_cases hri : (r : ℕ) < i
  · rw [if_pos hri, h.work.entry i r, Ends.ok_bind_iff, Ends.pure_iff]
    intro _
    rw [ExactScalar.value_mul, ExactScalar.value_div _ _ hroot, ExactScalar.value_one',
      one_div_mul_eq_div]
  · rw [if_neg hri]
    exact fun hlt => absurd hlt hri

/-- What is left of an entry: on the diagonal it is computed from the working matrix, and
elsewhere from the new column of the root. -/
theorem ends_remainder (h : s.Holds σ W L) {r i j : Fin n} (hi : (r : ℕ) < i) (hj : (r : ℕ) < j)
    (hr : 0 < value (W r r)) (hsymm : ∀ i j, r ≤ i → r ≤ j → value (W i j) = value (W j i))
    {reciprocal : ρ} (hreciprocal : value reciprocal = 1 / value (W r r)) {column : Array ρ}
    {x : Fin n → ρ} (hx : ∀ i : Fin n, Storage.read column i = .ok (x i) ∧
      (r < i → value (x i) = value (W i r) / √(value (W r r)))) :
    Ends E (fun y => value y =
        value (W i j) - value (W i r) * value (W r j) / value (W r r))
      (if (i : ℕ) = j then do
        let below ← s.work.entry i r
        return W i j - below * below * reciprocal
      else do
        let old ← s.work.entry (max (i : ℕ) j) (min (i : ℕ) j)
        return old - (← Storage.read column (max (i : ℕ) j)) *
          (← Storage.read column (min (i : ℕ) j))) := by
  by_cases hij : (i : ℕ) = j
  · obtain rfl := Fin.ext hij
    rw [if_pos rfl, h.work.entry i r, Ends.ok_bind_iff, Ends.pure_iff, ExactScalar.value_sub,
      ExactScalar.value_mul, ExactScalar.value_mul, hreciprocal, hsymm r i le_rfl hi.le,
      mul_one_div]
  · rw [if_neg hij, ← Fin.coe_max, ← Fin.coe_min, h.work.entry, Ends.ok_bind_iff,
      (hx _).1, (hx _).1, Ends.ok_bind_iff, Ends.ok_bind_iff, Ends.pure_iff,
      ExactScalar.value_sub, ExactScalar.value_mul, (hx _).2 (lt_max_of_lt_left hi),
      (hx _).2 (lt_min hi hj), div_mul_div_comm, Real.mul_self_sqrt hr.le]
    rcases le_total i j with hle | hle
    · rw [max_eq_right hle, min_eq_left hle, hsymm j i (by omega) (by omega),
        hsymm j r (by omega) le_rfl, mul_comm]
    · rw [max_eq_left hle, min_eq_right hle, hsymm j r (by omega) le_rfl]

/-- One step of the elimination, at a positive pivot. -/
theorem ends_eliminate (h : s.Holds σ W L) (r : Fin n) (hr : 0 < value (W r r))
    (hsymm : ∀ i j, r ≤ i → r ≤ j → value (W i j) = value (W j i)) :
    Ends E (fun s' => ∃ W' L', s'.Holds σ W' L' ∧
        EliminatesPosition r (W.map value) (L.map value) (W'.map value) (L'.map value))
      (s.eliminate r) := by
  have hsqrt : value (RealScalar.sqrt (W r r)) = √(value (W r r)) :=
    ExactReal.value_sqrt _ hr.le
  have hroot : value (RealScalar.sqrt (W r r)) ≠ 0 := by
    rw [hsqrt]
    exact (Real.sqrt_pos.2 hr).ne'
  unfold eliminate
  rw [h.work.entry r r, Ends.ok_bind_iff]
  extract_lets root reciprocal
  have hreciprocal : value reciprocal = 1 / value (W r r) := by
    rw [ExactScalar.value_div _ _ hr.ne', ExactScalar.value_one']
  refine (h.ends_column r hroot).bind ?_
  intro column hcolumn
  obtain ⟨x, hx⟩ := hcolumn
  simp only [hsqrt] at hx
  -- the root gets its column
  let N : Matrix (Fin n) (Fin n) ℝ := Matrix.of fun i t =>
    if t = r ∧ r ≤ i then value (W i r) / √(value (W r r)) else value (L i t)
  refine (Ends.mapEntries_map (v := value) (N := N) h.root fun i t => ?_).bind ?_
  · simp only [N, Matrix.of_apply, Fin.val_inj, Fin.val_fin_lt]
    rcases lt_trichotomy i r with hir | rfl | hri
    · simp [hir.ne, hir.not_gt, hir.not_ge]
    · by_cases hti : t = i
      · simp [hti, root, hsqrt, Real.div_sqrt]
      · simp [hti]
    · by_cases htr : t = r
      · simp [htr, hri, hri.ne', hri.le, (hx i).1, (hx i).2 hri]
      · simp [htr]
  intro newRoot hnewRoot
  obtain ⟨L', hL', hN⟩ := hnewRoot
  -- and of every pair of entries the lower one counts
  let T : Matrix (Fin n) (Fin n) ℝ := Matrix.of fun i j =>
    if r < i ∧ r < j then value (W i j) - value (W i r) * value (W r j) / value (W r r)
    else value (W i j)
  refine (Ends.mapEntries_map (v := value) (N := T) h.work fun i j => ?_).bind ?_
  · by_cases hij : (r : ℕ) < i ∧ (r : ℕ) < j
    · rw [if_pos hij]
      refine (h.ends_remainder hij.1 hij.2 hr hsymm hreciprocal hx).imp fun y hy => ?_
      exact hy.trans (if_pos hij).symm
    · rw [if_neg hij]
      exact (if_neg hij).symm
  intro work hwork
  obtain ⟨W', hW', hT⟩ := hwork
  refine ⟨W', L', ⟨hW', hL', h.order⟩, fun i j hi hj => ?_, fun i hi => ?_, fun i t hit => ?_⟩
  · rw [hT]
    exact if_pos ⟨hi, hj⟩
  · rw [hN]
    exact if_pos ⟨rfl, hi⟩
  · rw [hN]
    exact if_neg (by omega)

end Reduction.Holds

end States

/-! ### Runs -/

/-- Why a run refuses `A`: no diagonal entry is above the bound, or an elimination leaves
one below the negated bound. -/
inductive Refused (A : Matrix (Fin n) (Fin n) ℝ) (small : ℝ) : Prop
  | noPivot (h : ∀ i, A i i ≤ small)
  | negative {r : ℕ} {σ : Equiv.Perm (Fin n)} {w l : Matrix (Fin n) (Fin n) ℝ}
      (h : Reduces A r σ w l) (i : Fin n) (hi : r ≤ (i : ℕ)) (hneg : w i i < -small)

/-- A run is settled after `r` positions, as all diagonal entries that are left are
small. -/
structure Settled (A : Matrix (Fin n) (Fin n) ℝ) (small : ℝ) (r : ℕ) (σ : Equiv.Perm (Fin n))
    (w l : Matrix (Fin n) (Fin n) ℝ) : Prop extends Reduces A r σ w l where
  le : r ≤ n
  small (i : Fin n) (hi : r ≤ (i : ℕ)) : |w i i| ≤ small

section Runs

variable {ρ : Type} [RealScalar ρ] [ExactReal ρ] {A : Matrix (Fin n) (Fin n) ℝ} {small : ρ}

/-- Before the first elimination the working matrix is `A` in some order. -/
theorem Reduces.diag_le {σ : Equiv.Perm (Fin n)} {w l : Matrix (Fin n) (Fin n) ℝ} {bound : ℝ}
    (h : Reduces A 0 σ w l) (hw : ∀ i, w i i ≤ bound) (i : Fin n) : A i i ≤ bound := by
  have hentry := h.factor.product (σ.symm i) (σ.symm i)
  simp only [Matrix.submatrix_apply, Equiv.apply_symm_apply, residual_zero, Nat.not_lt_zero,
    if_false, Finset.sum_const_zero, zero_add] at hentry
  rw [hentry]
  exact hw _

/-- The induction over the positions that are left. -/
theorem Reduction.ends_run (hsmall : 0 ≤ value small) {k len : ℕ} (hlen : k + len = n)
    {s : Reduction ρ} {σ : Equiv.Perm (Fin n)} {W L : Matrix (Fin n) (Fin n) ρ}
    (hs : s.Holds σ W L) (hI : Reduces A k σ (W.map value) (L.map value)) :
    Ends (fun e => e = .notPositiveDefinite ∧ Refused A (value small))
      (fun out => ∃ σ' W' L', out.1.Holds σ' W' L' ∧
        Settled A (value small) out.2 σ' (W'.map value) (L'.map value))
      (Reduction.run small (List.range' k len) s) := by
  induction len generalizing k s σ W L with
  | zero =>
      have hk : k = n := by omega
      subst hk
      refine ⟨σ, W, L, hs, ?_⟩
      rw [hs.order.size]
      exact ⟨hI, le_rfl, fun i hi => absurd i.isLt (by omega)⟩
  | succ len ih =>
      obtain ⟨r, rfl⟩ : ∃ r : Fin n, (r : ℕ) = k := ⟨⟨k, by omega⟩, rfl⟩
      rw [List.range'_succ, Reduction.run]
      refine (hs.ends_largestDiagonal r).of_never.bind ?_
      intro p hp
      obtain ⟨q, rfl, hrq, hlargest⟩ := hp
      refine (hs.exchange r q).of_never.bind ?_
      intro s₁ hs₁
      have hI₁ := hI.exchange le_rfl hrq
      have hmax := diag_exchange_le (w := W.map value) hrq hlargest
      rw [Matrix.submatrix_map, Matrix.submatrix_map] at hI₁
      rw [Matrix.submatrix_map] at hmax
      generalize W.submatrix (Equiv.swap r q) (Equiv.swap r q) = W₁ at hs₁ hI₁ hmax
      generalize L.submatrix (Equiv.swap r q) id = L₁ at hs₁ hI₁
      rw [hs₁.work.entry r r, Ends.ok_bind_iff]
      by_cases hstop : W₁ r r ≤ small
      · rw [if_pos hstop]
        have hpivot := (ExactReal.le_iff _ _).1 hstop
        by_cases hfirst : (r : ℕ) = 0
        · rw [if_pos hfirst]
          rw [hfirst] at hI₁
          refine ⟨rfl, Refused.noPivot (hI₁.diag_le fun i => ?_)⟩
          exact (hmax i (by omega)).trans hpivot
        · rw [if_neg hfirst]
          refine (hs₁.ends_hasNegative r small).of_never.bind ?_
          intro found hfound
          cases found with
          | true =>
              obtain ⟨i, hri, hneg⟩ := hfound.1 rfl
              exact ⟨rfl, Refused.negative hI₁ i hri hneg⟩
          | false =>
              refine ⟨_, W₁, L₁, hs₁, hI₁, r.isLt.le, fun i hri => abs_le.2 ⟨?_, ?_⟩⟩
              · by_contra hneg
                exact Bool.false_ne_true (hfound.2 ⟨i, hri, not_le.1 hneg⟩)
              · exact (hmax i hri).trans hpivot
      · rw [if_neg hstop]
        have hpivot := not_le.1 ((ExactReal.le_iff _ _).not.1 hstop)
        refine (hs₁.ends_eliminate r (hsmall.trans_lt hpivot) ?_).bind ?_
        · intro i j hi hj
          exact hI₁.symm hi hj
        · intro s₂ hs₂
          obtain ⟨W₂, L₂, hs₂, heliminates⟩ := hs₂
          exact ih (by omega) hs₂ (hI₁.step (hsmall.trans_lt hpivot) heliminates)

end Runs

end

end DenseFactor.PivotedCholesky
