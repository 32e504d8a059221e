import Mathlib
import DenseFactor.QR.RankRevealing
import DenseFactor.Proofs.Edit
import DenseFactor.Proofs.Order
import DenseFactor.Proofs.QR.Factorization

/-!
# DenseFactor.Proofs.QR.RankRevealing

Over exact real elements the decomposition with column pivoting is `A · P = Q · R`, and
every diagonal entry of `R` **dominates** what stands to its right.

Design points:

* Exchanging two columns that are not finished exchanges the same rows of the working
  copy. The reflectors so far stand in other rows, so the factors then represent the
  matrix with its columns exchanged (`Factors.Represents.exchange`).
* The column that moves into place is the first with the largest rest, of which there is one
  only (`Leads`).
* What a column has from row `k` on is measured by `tailSquare`. A reflection that
  leaves the rows before `k` alone keeps it (`tailSquare_mul`), so what the greedy
  choice has achieved for a row survives all later exchanges and reflections.
* All that is said about the diagonal follows from that: it decreases, and a zero on it
  leaves nothing in the rows from there on.
-/

namespace DenseFactor

open ExactScalar (value)
open scoped Matrix

variable {m n : ℕ}

/-! ### The squares of a column from a row on -/

/-- The sum of the squares of column `j` from row `k` on. -/
def tailSquare (M : Matrix (Fin m) (Fin n) ℝ) (k : ℕ) (j : Fin n) : ℝ :=
  ∑ i : Fin m, if k ≤ (i : ℕ) then M i j * M i j else 0

section TailSquare

variable {M : Matrix (Fin m) (Fin n) ℝ} {k : ℕ} {j : Fin n}

theorem tailSquare_nonneg : 0 ≤ tailSquare M k j := by
  refine Finset.sum_nonneg fun i _ => ?_
  split
  · exact mul_self_nonneg _
  · exact le_rfl

/-- An entry of the tail is no larger than the tail. -/
theorem mul_self_le_tailSquare {i : Fin m} (hi : k ≤ (i : ℕ)) :
    M i j * M i j ≤ tailSquare M k j := by
  have hnonneg (t : Fin m) (_ : t ∈ Finset.univ) :
      0 ≤ if k ≤ (t : ℕ) then M t j * M t j else 0 := by
    split
    · exact mul_self_nonneg _
    · exact le_rfl
  have hsingle := Finset.single_le_sum hnonneg (Finset.mem_univ i)
  rwa [if_pos hi] at hsingle

/-- The whole column without the rows before. -/
theorem tailSquare_eq_sub (M : Matrix (Fin m) (Fin n) ℝ) (k : ℕ) (j : Fin n) :
    tailSquare M k j = (Mᵀ * M) j j - ∑ i : Fin m, if (i : ℕ) < k then M i j * M i j else 0 := by
  rw [eq_sub_iff_add_eq, tailSquare, ← Finset.sum_add_distrib, Matrix.mul_apply]
  refine Finset.sum_congr rfl fun i _ => ?_
  by_cases hi : k ≤ (i : ℕ)
  · simp [hi, not_lt.2 hi]
  · simp [hi, not_le.1 hi]

/-- An orthogonal matrix that leaves the rows before `k` alone keeps the tails. -/
theorem tailSquare_mul {H : Matrix (Fin m) (Fin m) ℝ} (hH : Hᵀ * H = 1)
    (hkept : ∀ i : Fin m, (i : ℕ) < k → (H * M) i j = M i j) :
    tailSquare (H * M) k j = tailSquare M k j := by
  have hwhole : (H * M)ᵀ * (H * M) = Mᵀ * M := by
    rw [Matrix.transpose_mul, Matrix.mul_assoc, ← Matrix.mul_assoc Hᵀ, hH, Matrix.one_mul]
  rw [tailSquare_eq_sub, tailSquare_eq_sub M, hwhole]
  refine congrArg _ (Finset.sum_congr rfl fun i _ => ?_)
  by_cases hi : (i : ℕ) < k
  · rw [if_pos hi, if_pos hi, hkept i hi]
  · rw [if_neg hi, if_neg hi]

/-- Below a column that ends in row `k` the tail is the entry there. -/
theorem tailSquare_of_zero_below {i : Fin m} (hi : (i : ℕ) = k)
    (hzero : ∀ t : Fin m, k < (t : ℕ) → M t j = 0) : tailSquare M k j = M i j * M i j := by
  rw [tailSquare, Finset.sum_eq_single i]
  · rw [if_pos hi.ge]
  · intro t _ hti
    by_cases ht : k ≤ (t : ℕ)
    · have hlt : k < (t : ℕ) := by omega
      rw [if_pos ht, hzero t hlt, mul_zero]
    · rw [if_neg ht]
  · exact fun h => absurd (Finset.mem_univ i) h

end TailSquare

/-! ### Exchanged columns -/

namespace QR

variable {𝕜 : Type} [RCLike 𝕜]

/-- A finished column has its entry on the diagonal. -/
theorem reducedMatrix_diag (w : Matrix (Fin n) (Fin m) 𝕜) (d : ℕ → 𝕜) {k : ℕ}
    {t : Fin (min m n)} (ht : (t : ℕ) < k) : reducedMatrix w d k (asRow t) (asCol t) = d t := by
  have hcol : ((asCol t : Fin n) : ℕ) < k := ht
  have hsame : ((asRow t : Fin m) : ℕ) = (asCol t : Fin n) := rfl
  rw [reducedMatrix_of_lt w d _ hcol, if_neg hsame.not_lt, if_pos hsame]
  rfl

/-- A finished column is zero below the diagonal. -/
theorem reducedMatrix_below (w : Matrix (Fin n) (Fin m) 𝕜) (d : ℕ → 𝕜) {k : ℕ} {i : Fin m}
    {j : Fin n} (hj : (j : ℕ) < k) (hij : (j : ℕ) < i) : reducedMatrix w d k i j = 0 := by
  rw [reducedMatrix_of_lt w d i hj, if_neg hij.not_gt, if_neg hij.ne']

/-- Exchanging rows of the working copy that are not finished exchanges the columns of
the matrix it stands for. -/
theorem reducedMatrix_exchange (w : Matrix (Fin n) (Fin m) 𝕜) (d : ℕ → 𝕜) {k : ℕ}
    {a b : Fin n} (ha : k ≤ (a : ℕ)) (hb : k ≤ (b : ℕ)) :
    reducedMatrix (w.submatrix (Equiv.swap a b) id) d k =
      (reducedMatrix w d k).submatrix id (Equiv.swap a b) := by
  ext i j
  by_cases hj : (j : ℕ) < k
  · simp only [reducedMatrix_of_lt _ _ _ hj, Matrix.submatrix_apply, swap_of_lt ha hb hj, id_eq]
  · have hother : k ≤ (Equiv.swap a b j : ℕ) := (le_swap_iff ha hb j).2 (not_lt.1 hj)
    rw [reducedMatrix_of_le _ _ _ (not_lt.1 hj), Matrix.submatrix_apply, Matrix.submatrix_apply,
      reducedMatrix_of_le _ _ _ hother, id_eq]

variable {α ρ : Type} [RealScalar ρ] [ExactReal ρ] [EuclideanScalar α ρ] [ExactEuclidean α ρ 𝕜]

/-- Columns that are not finished may be exchanged at any time. -/
theorem Factors.Represents.exchange {f : Factors α} {A : Matrix (Fin m) (Fin n) α}
    {k : ℕ} {W : Matrix (Fin n) (Fin m) α} (h : f.Represents A k W) {a b : Fin n}
    (ha : k ≤ (a : ℕ)) (hb : k ≤ (b : ℕ)) {work : DenseMatrix α}
    (hwork : work.Stores (W.submatrix (Equiv.swap a b) id)) :
    Factors.Represents { f with work } (A.submatrix id (Equiv.swap a b)) k
      (W.submatrix (Equiv.swap a b) id) := by
  -- the vectors of the steps before stand in rows that are not exchanged
  have hrow (i : Fin (min m n)) (hi : (i : ℕ) < k) (j : Fin m) :
      W.submatrix (Equiv.swap a b) id (asCol i) j = W (asCol i) j := by
    rw [Matrix.submatrix_apply, swap_of_lt ha hb (i := asCol i) hi]
    rfl
  have hvalue (i : Fin (min m n)) (hi : (i : ℕ) < k) (j : Fin m) :
      (W.submatrix (Equiv.swap a b) id).map value (asCol i) j = W.map value (asCol i) j :=
    congrArg value (hrow i hi j)
  have hreflector (i : Fin (min m n)) (hi : (i : ℕ) < k) :
      leftReflector ((W.submatrix (Equiv.swap a b) id).map value)
          (Factors.entries { f with work }) i =
        leftReflector (W.map value) f.entries i := by
    rw [leftReflector, leftReflector, columnRest_congr (hvalue i hi), hvalue i hi]
    rfl
  refine ⟨hwork, h.size, fun i hi => (h.leaves i hi).congr (hvalue i hi) rfl, ?_⟩
  · change _ = reducedMatrix ((W.map value).submatrix (Equiv.swap a b) id) f.entries k
    rw [composed_congr hreflector, reducedMatrix_exchange _ _ ha hb, ← h.product]
    rfl

end QR

/-! ### The choice of a column -/

namespace RankRevealingQR

open QR

/-- Of the positions from `k` on, the first with the largest size. -/
structure Leads (size : Fin n → ℝ) (k : ℕ) (b : Fin n) : Prop where
  le : k ≤ (b : ℕ)
  largest (j : Fin n) (hj : k ≤ (j : ℕ)) : size j ≤ size b
  first (j : Fin n) (hj : k ≤ (j : ℕ)) (hjb : j < b) : size j < size b

/-- There is one such position only, and it is the same for sizes in proportion. -/
theorem Leads.unique {size size' : Fin n → ℝ} {k : ℕ} {b b' : Fin n} {s : ℝ} (hs : 0 < s)
    (hsize : ∀ j : Fin n, k ≤ (j : ℕ) → size' j = s * size j) (h : Leads size k b)
    (h' : Leads size' k b') : b' = b := by
  rcases lt_trichotomy b' b with hlt | heq | hgt
  · have hle := h'.largest b h.le
    rw [hsize b h.le, hsize b' h'.le] at hle
    exact absurd (h.first b' h'.le hlt) (le_of_mul_le_mul_left hle hs).not_gt
  · exact heq
  · have hlt := h'.first b h.le hgt
    rw [hsize b h.le, hsize b' h'.le] at hlt
    exact absurd (lt_of_mul_lt_mul_left hlt hs.le) (h.largest b' h'.le).not_gt

variable {ρ : Type} [RealScalar ρ] [ExactReal ρ] {E : Failure → Prop}

section Choice

variable {work : DenseMatrix ρ} {W : Matrix (Fin n) (Fin m) ρ}

theorem ends_restSquares (hW : work.Stores W) (row : Fin n) {start : ℕ} (hstart : start ≤ m) :
    Ends E (fun s => value s = tailSquare (W.map value)ᵀ start row)
      (restSquares work (row : ℕ) start) := by
  unfold restSquares
  rw [hW.ncols]
  refine ends_sum (K := ℝ) hstart (fun t => value (W row t) * value (W row t))
    fun t sum _ => ?_
  rw [hW.entry row t, Ends.ok_bind_iff]
  refine (ExactScalar.value_add _ _).trans ?_
  rw [ExactScalar.value_mul]

/-- The row that is chosen is the first one from `k` on with the largest rest. -/
theorem ends_largestRest (hW : work.Stores W) (k : Fin (min m n)) :
    Ends E (fun best : ℕ => ∃ b : Fin n, best = b ∧ Leads (tailSquare (W.map value)ᵀ k) k b)
      (largestRest work (k : ℕ)) := by
  have hkm : (k : ℕ) ≤ m := (asRow k).isLt.le
  unfold largestRest
  rw [hW.nrows]
  -- the size at hand is that of the row at hand at most, and of no row seen less
  refine Ends.bind (Ends.foldPositions (I := fun t (found : ℕ × ρ) =>
    ∃ b : Fin n, found.1 = b ∧ (k : ℕ) ≤ b ∧ value found.2 ≤ tailSquare (W.map value)ᵀ k b ∧
      (∀ j : Fin n, (k : ℕ) ≤ j → (j : ℕ) < t → tailSquare (W.map value)ᵀ k j ≤ value found.2) ∧
      ∀ j : Fin n, (k : ℕ) ≤ j → j < b →
        tailSquare (W.map value)ᵀ k j < tailSquare (W.map value)ᵀ k b)
    (asCol k).isLt.le ?_ ?_) ?_
  · refine ⟨asCol k, rfl, le_rfl, ?_, fun j hj hjk => absurd hj (not_le.2 hjk),
      fun j hj hjk => absurd hj (not_le.2 hjk)⟩
    rw [ExactScalar.value_zero']
    exact tailSquare_nonneg
  · intro t found hkt htn hfound
    obtain ⟨best, size⟩ := found
    obtain ⟨b, hbest, hkb, hsize, hlargest, hfirst⟩ := hfound
    refine (ends_restSquares hW ⟨t, htn⟩ hkm).bind fun squares hsquares => ?_
    have hlast (j : Fin n) (hj : (j : ℕ) < t + 1) (hjt : ¬ (j : ℕ) < t) : j = ⟨t, htn⟩ :=
      Fin.ext (by simp only; omega)
    by_cases hlt : size < squares
    · rw [if_pos hlt]
      have hgrows : value size < value squares := (ExactReal.lt_iff _ _).1 hlt
      refine ⟨⟨t, htn⟩, rfl, hkt, hsquares.le, fun j hj hjt => ?_, fun j hj hjt => ?_⟩
      · by_cases hbefore : (j : ℕ) < t
        · exact (hlargest j hj hbefore).trans hgrows.le
        · rw [hlast j hjt hbefore]
          exact hsquares.ge
      · exact (hlargest j hj hjt).trans_lt (hgrows.trans_eq hsquares)
    · rw [if_neg hlt]
      have hstays : value squares ≤ value size := not_lt.1 ((ExactReal.lt_iff _ _).not.1 hlt)
      refine ⟨b, hbest, hkb, hsize, fun j hj hjt => ?_, hfirst⟩
      by_cases hbefore : (j : ℕ) < t
      · exact hlargest j hj hbefore
      · rw [hlast j hjt hbefore, ← hsquares]
        exact hstays
  · intro found hfound
    obtain ⟨b, hbest, hkb, hsize, hlargest, hfirst⟩ := hfound
    exact ⟨b, hbest, hkb, fun j hj => (hlargest j hj j.isLt).trans hsize, hfirst⟩

end Choice

/-! ### The reduction -/

/-- Every finished diagonal entry is at least as large as the rest of any column to its
right, from its row on. -/
def Dominates (M : Matrix (Fin m) (Fin n) ℝ) (d : ℕ → ℝ) (k : ℕ) : Prop :=
  ∀ (t : Fin (min m n)) (j : Fin n), (t : ℕ) < k → (t : ℕ) < j → tailSquare M t j ≤ d t * d t

/-- The rest of a column that is not finished stands in the copy. -/
theorem tailSquare_unfinished (w : Matrix (Fin n) (Fin m) ℝ) (d : ℕ → ℝ) {k : ℕ} {j : Fin n}
    (hj : k ≤ (j : ℕ)) : tailSquare (reducedMatrix w d k) k j = tailSquare wᵀ k j := by
  refine Finset.sum_congr rfl fun i _ => ?_
  rw [reducedMatrix_of_le w d i hj]
  rfl

/-- A reflection of the largest rest adds an entry that dominates, and those before still
do. -/
theorem dominates_succ {w w' : Matrix (Fin n) (Fin m) ℝ} {d d' : ℕ → ℝ} {k : Fin (min m n)}
    (hbefore : Dominates (reducedMatrix w d k) d k)
    (hlargest : ∀ j : Fin n, (k : ℕ) ≤ j → tailSquare wᵀ k j ≤ tailSquare wᵀ k (asCol k))
    (hreflects : ReflectsRow k w w' (d' k)) (hd : ∀ i < (k : ℕ), d' i = d i)
    (hunitary : (leftReflector w' d' k)ᵀ * leftReflector w' d' k = 1) :
    Dominates (reducedMatrix w' d' (k + 1)) d' (k + 1) := by
  have hproduct := hreflects.leftReflector_mul hd rfl
  -- the reflection leaves the rows before `k` alone
  have htail {t : ℕ} (ht : t ≤ k) (j : Fin n) :
      tailSquare (reducedMatrix w' d' (k + 1)) t j = tailSquare (reducedMatrix w d k) t j := by
    rw [← hproduct]
    refine tailSquare_mul hunitary fun i hi => ?_
    have hvector : columnRest w' k i = 0 := columnRest_of_lt w' k (Nat.lt_of_lt_of_le hi ht)
    rw [leftReflector, reflector_mul_apply, hvector, mul_zero, add_zero]
  intro t j htk htj
  by_cases ht : (t : ℕ) < k
  · rw [htail ht.le, hd t ht]
    exact hbefore t j ht htj
  · obtain rfl : t = k := Fin.ext (by omega)
    have hnext : (t : ℕ) < t + 1 := Nat.lt_succ_self _
    have hend : tailSquare (reducedMatrix w' d' (t + 1)) t (asCol t) = d' t * d' t := by
      have hentry : ((asRow t : Fin m) : ℕ) = t := rfl
      rw [tailSquare_of_zero_below hentry fun i hi => reducedMatrix_below w' d' hnext hi,
        reducedMatrix_diag w' d' hnext]
    calc tailSquare (reducedMatrix w' d' (t + 1)) t j
        = tailSquare wᵀ t j := by rw [htail le_rfl, tailSquare_unfinished w d htj.le]
      _ ≤ tailSquare wᵀ t (asCol t) := hlargest j htj.le
      _ = tailSquare (reducedMatrix w' d' (t + 1)) t (asCol t) := by
          rw [htail le_rfl, tailSquare_unfinished w d (k := t) (j := asCol t) le_rfl]
      _ = d' t * d' t := hend

/-- The state after `k` steps: the factors represent `A` with its columns in the order
so far, and the finished diagonal entries dominate. -/
structure Reduction.Holds (s : Reduction ρ) (A : Matrix (Fin m) (Fin n) ρ) (k : ℕ)
    (σ : Equiv.Perm (Fin n)) (W : Matrix (Fin n) (Fin m) ρ) : Prop where
  order : Lists s.order σ
  factors : s.factors.Represents (𝕜 := ℝ) (A.submatrix id σ) k W
  dominates : Dominates (reducedMatrix (W.map value) s.factors.entries k) s.factors.entries k

/-- Nothing is reduced yet, and the columns stand in their own order. -/
theorem Reduction.holds_start {A : Matrix (Fin m) (Fin n) ρ} {work : DenseMatrix ρ}
    (h : work.Stores Aᵀ) :
    Reduction.Holds ⟨{ work, diagonal := #[] }, Array.range n⟩ A 0 1 Aᵀ where
  order := Lists.range n
  factors := Factors.represents_start h
  dominates _ _ ht := absurd ht (Nat.not_lt_zero _)

section Step

variable {s : Reduction ρ} {A : Matrix (Fin m) (Fin n) ρ} {σ : Equiv.Perm (Fin n)}
  {W : Matrix (Fin n) (Fin m) ρ} {k : Fin (min m n)}

/-- Moving a later column into place keeps the state, with that column in place. -/
theorem Reduction.Holds.select (h : s.Holds A k σ W) {b : Fin n} (hkb : (k : ℕ) ≤ b) :
    Ends Never (fun s' => s'.Holds A k (σ * Equiv.swap (asCol k) b)
          (W.submatrix (Equiv.swap (asCol k) b) id) ∧
        ∀ i, s'.factors.entries (𝕜 := ℝ) i = s.factors.entries i) (s.select (k : ℕ) b) := by
  unfold Reduction.select
  by_cases hb : b = asCol k
  · subst hb
    have hsame : ((asCol k : Fin n) : ℕ) = k := rfl
    rw [if_pos hsame, Equiv.swap_self]
    exact ⟨h, fun _ => rfl⟩
  have hne : ¬ (b : ℕ) = k := fun heq => hb (Fin.ext heq)
  rw [if_neg hne]
  refine (h.factors.work.swapRows (asCol k) b).bind fun work hwork => ?_
  refine (h.order.exchange (asCol k) b).bind fun order horder => ?_
  refine ⟨⟨horder, h.factors.exchange le_rfl hkb hwork, fun t j htk htj => ?_⟩, fun _ => rfl⟩
  have hother : (t : ℕ) < (Equiv.swap (asCol k) b j : Fin n) :=
    (le_swap_iff (a := asCol k) htk (htk.trans_le hkb) j).2 htj
  have hcolumn : tailSquare (reducedMatrix ((W.submatrix (Equiv.swap (asCol k) b) id).map value)
      s.factors.entries k) t j =
        tailSquare (reducedMatrix (W.map value) s.factors.entries k) t
          (Equiv.swap (asCol k) b j) := by
    have hexchange := reducedMatrix_exchange (W.map value) s.factors.entries
      (k := k) (a := asCol k) (b := b) le_rfl hkb
    rw [← Matrix.submatrix_map, hexchange]
    rfl
  exact hcolumn.le.trans (h.dominates t _ htk hother)

/-- A step moves the first column with the largest rest into place and reflects it. -/
theorem Reduction.Holds.step (h : s.Holds A k σ W) :
    Ends Never (fun s' => ∃ b W', Leads (tailSquare (W.map value)ᵀ k) k b ∧
        s'.Holds A (k + 1) (σ * Equiv.swap (asCol k) b) W' ∧
        ∀ i < (k : ℕ), s'.factors.entries (𝕜 := ℝ) i = s.factors.entries i)
      (s.step (k : ℕ)) := by
  unfold Reduction.step
  refine (ends_largestRest h.factors.work k).bind ?_
  rintro best ⟨b, rfl, hleads⟩
  refine (h.select hleads.le).bind ?_
  rintro s₁ ⟨h₁, hentries⟩
  refine h₁.factors.step.bind ?_
  rintro factors ⟨W', hW', hreflects, hd⟩
  refine ⟨b, W', hleads, ⟨h₁.order, hW', ?_⟩, fun i hi => (hd i hi).trans (hentries i)⟩
  refine dominates_succ h₁.dominates (fun j hj => ?_) hreflects hd ?_
  · have hother : (k : ℕ) ≤ (Equiv.swap (asCol k) b j : Fin n) :=
      (le_swap_iff (a := asCol k) le_rfl hleads.le j).2 hj
    have hplace : Equiv.swap (asCol k) b (asCol k) = b := Equiv.swap_apply_left _ _
    have hrows (i : Fin n) : tailSquare ((W.submatrix (Equiv.swap (asCol k) b) id).map value)ᵀ k i =
        tailSquare (W.map value)ᵀ k (Equiv.swap (asCol k) b i) := rfl
    rw [hrows, hrows, hplace]
    exact hleads.largest _ hother
  · have hunitary := reflector_unitary (hW'.reflecting k (Nat.lt_succ_self (k : ℕ)))
    rwa [Matrix.conjTranspose_eq_transpose_of_trivial] at hunitary

end Step

/-- The decomposition of any matrix. -/
theorem ends_ofThreshold {A : Matrix (Fin m) (Fin n) ρ} {a : MatrixView ρ} (ha : a.Shows A)
    (threshold : ρ) :
    Ends Never (fun qr => ∃ σ W, Lists qr.permutation σ ∧
        qr.factors.Represents (𝕜 := ℝ) (A.submatrix id σ) (min m n) W ∧
        Dominates (reducedMatrix (W.map value) qr.factors.entries (min m n)) qr.factors.entries
          (min m n)) (ofThreshold threshold a) := by
  unfold ofThreshold
  rw [ha.nrows, ha.ncols]
  refine (Factors.ends_transposed ha).bind fun work hwork => ?_
  refine Ends.bind (Ends.foldlM_positions
    (I := fun k (s : Reduction ρ) => ∃ σ W, s.Holds A k σ W) (Nat.zero_le _) ?_ ?_) ?_
  · exact ⟨1, A.transpose, Reduction.holds_start hwork⟩
  · rintro k s - hk ⟨σ, W, hs⟩
    refine (hs.step (k := ⟨k, hk⟩)).imp ?_
    rintro s' ⟨b, W', -, hs', -⟩
    exact ⟨_, W', hs'⟩
  · rintro s ⟨σ, W, hs⟩
    exact ⟨σ, W, hs.order, hs.factors, hs.dominates⟩

/-! ### What is read off -/

/-- The permutation matrix, which puts the columns into their order. -/
theorem ends_p {qr : RankRevealingQR ρ} {σ : Equiv.Perm (Fin n)} (h : Lists qr.permutation σ) :
    Ends E (fun p => ∃ P : Matrix (Fin n) (Fin n) ρ, p.Stores P ∧
        P.map value = Matrix.of fun i j => if σ j = i then 1 else 0) qr.p := by
  unfold RankRevealingQR.p
  rw [h.size]
  refine (Ends.tabulate (P := fun i j x => value x = if σ j = i then 1 else 0)
    fun i j => ?_).imp ?_
  · have hiff : (σ j : ℕ) = i ↔ σ j = i := Fin.ext_iff.symm
    rw [h.read j, Ends.ok_bind_iff]
    by_cases hij : σ j = i
    · rw [if_pos (hiff.2 hij), if_pos hij]
      exact ExactScalar.value_one'
    · rw [if_neg (hiff.not.2 hij), if_neg hij]
      exact ExactScalar.value_zero'
  · rintro p ⟨P, hP, hentries⟩
    exact ⟨P, hP, by ext i j; exact hentries i j⟩

/-- Multiplying by a permutation matrix reorders the columns. -/
theorem mul_permutation (M : Matrix (Fin m) (Fin n) ℝ) (σ : Equiv.Perm (Fin n)) :
    M * Matrix.of (fun i j => if σ j = i then (1 : ℝ) else 0) = M.submatrix id σ := by
  ext i j
  simp [Matrix.mul_apply]

/-! ### The diagonal of the triangular factor -/

section Diagonal

variable {w : Matrix (Fin n) (Fin m) ℝ} {d : ℕ → ℝ}

/-- The diagonal decreases in absolute value. -/
theorem Dominates.abs_le (h : Dominates (reducedMatrix w d (min m n)) d (min m n))
    {k l : Fin (min m n)} (hkl : k ≤ l) : |d l| ≤ |d k| := by
  rcases hkl.eq_or_lt with rfl | hlt
  · exact le_rfl
  have hl : reducedMatrix w d (min m n) (asRow l) (asCol l) = d l := reducedMatrix_diag w d l.isLt
  have hentry : d l * d l ≤ tailSquare (reducedMatrix w d (min m n)) k (asCol l) := by
    have hrow : (k : ℕ) ≤ (asRow l : Fin m) := hkl
    have hle := mul_self_le_tailSquare (M := reducedMatrix w d (min m n)) (j := asCol l) hrow
    rwa [hl] at hle
  exact abs_le_iff_mul_self_le.2 (hentry.trans (h k (asCol l) k.isLt hlt))

/-- A zero on the diagonal leaves nothing in the rows from there on. -/
theorem Dominates.eq_zero (h : Dominates (reducedMatrix w d (min m n)) d (min m n))
    {k : Fin (min m n)} (hk : d k = 0) {i : Fin m} (hi : (k : ℕ) ≤ i) (j : Fin n) :
    reducedMatrix w d (min m n) i j = 0 := by
  rcases lt_trichotomy (k : ℕ) j with hkj | hkj | hkj
  · have htail := h k j k.isLt hkj
    rw [hk, mul_zero] at htail
    have hentry :=
      (mul_self_le_tailSquare (M := reducedMatrix w d (min m n)) (j := j) hi).trans htail
    exact mul_self_eq_zero.1 (le_antisymm hentry (mul_self_nonneg _))
  · obtain rfl : j = asCol k := Fin.ext hkj.symm
    rcases hi.eq_or_lt with hik | hik
    · obtain rfl : i = asRow k := Fin.ext hik.symm
      rw [reducedMatrix_diag w d k.isLt, hk]
    · exact reducedMatrix_below w d k.isLt hik
  · have hj : (j : ℕ) < min m n := hkj.trans k.isLt
    exact reducedMatrix_below w d hj (lt_of_lt_of_le hkj hi)

/-- Below the diagonal there is nothing to sum. -/
theorem tailSquare_reducedMatrix (w : Matrix (Fin n) (Fin m) ℝ) (d : ℕ → ℝ) (k : ℕ) (j : Fin n) :
    tailSquare (reducedMatrix w d (min m n)) k j = ∑ i : Fin m,
      if k ≤ (i : ℕ) ∧ (i : ℕ) ≤ j then reducedMatrix w d (min m n) i j ^ 2 else 0 := by
  refine Finset.sum_congr rfl fun i _ => ?_
  by_cases hij : (i : ℕ) ≤ j
  · simp only [hij, and_true, sq]
  · have hj : (j : ℕ) < min m n := by omega
    simp [hij, reducedMatrix_below w d hj (not_le.1 hij)]

end Diagonal

/-- Over exact real elements every matrix, of any shape and rank, has a decomposition
`A · P = Q · R` with the permutation matrix `P` of its column order, an orthogonal `Q` and
an upper triangular `R`. The square of a diagonal entry of `R` is no less than the squares of
any later column from its row on, summed. So the diagonal decreases in absolute value, and a
zero on it leaves only zeros in the rows from there on. -/
theorem mul_p_eq_q_mul_r {ρ : Type} [RealScalar ρ] [ExactReal ρ] {m n : ℕ}
    {A : Matrix (Fin m) (Fin n) ρ} {a : MatrixView ρ} (ha : a.Shows A) (threshold : ρ) :
    ∃ (qr : RankRevealingQR ρ) (σ : Equiv.Perm (Fin n)) (p q r : DenseMatrix ρ)
        (P : Matrix (Fin n) (Fin n) ρ) (Q : Matrix (Fin m) (Fin m) ρ)
        (R : Matrix (Fin m) (Fin n) ρ),
      ofThreshold threshold a = .ok qr ∧
        Lists qr.permutation σ ∧
        (qr.p = .ok p ∧ p.Stores P) ∧
        (qr.q = .ok q ∧ q.Stores Q) ∧
        (qr.r = .ok r ∧ r.Stores R) ∧
        (∀ i j, value (P i j) = if i = σ j then 1 else 0) ∧
        A.map value * P.map value = Q.map value * R.map value ∧
        (Q.map value)ᵀ * Q.map value = 1 ∧
        (∀ (i : Fin m) (j : Fin n), (j : ℕ) < i → R i j = 0) ∧
        (∀ (k : Fin (min m n)) (j : Fin n), (k : ℕ) < j →
          (∑ i : Fin m, if (k : ℕ) ≤ i ∧ (i : ℕ) ≤ j then value (R i j) ^ 2 else 0) ≤
            value (R (asRow k) (asCol k)) ^ 2) ∧
        (∀ k l : Fin (min m n), k ≤ l →
          |value (R (asRow l) (asCol l))| ≤ |value (R (asRow k) (asCol k))|) ∧
        ∀ k : Fin (min m n), value (R (asRow k) (asCol k)) = 0 →
          ∀ (i : Fin m) (j : Fin n), (k : ℕ) ≤ i → value (R i j) = 0 := by
  obtain ⟨qr, hqr, σ, W, hσ, hW, hdominates⟩ := Ends.never_iff.1 (ends_ofThreshold ha threshold)
  obtain ⟨p, hp, P, hP, hpermutation⟩ := Ends.never_iff.1 (ends_p hσ)
  obtain ⟨qt, hqt, Qt, hQt, hcomposed⟩ := Ends.never_iff.1 hW.ends_adjointQ
  obtain ⟨q, hq, hQ⟩ := Ends.never_iff.1 hQt.transpose
  obtain ⟨r, hr, R, hR, hreduced, hlower⟩ := Ends.never_iff.1 hW.ends_upper
  have hq' : qr.q = .ok q := by
    unfold RankRevealingQR.q
    rw [hqt]
    exact hq
  have hunitary : (Qt.map value)ᵀ * Qt.map value = 1 := by
    rw [hcomposed, ← Matrix.conjTranspose_eq_transpose_of_trivial]
    exact composed_unitary (fun i => reflector_unitary (hW.reflecting i i.isLt)) _
  have hproduct : Qt.map value * (A.submatrix id σ).map value = R.map value := by
    rw [hcomposed, hreduced]
    exact hW.product
  have hentry (i : Fin m) (j : Fin n) : value (R i j) =
      reducedMatrix (W.map value) qr.factors.entries (min m n) i j := by
    rw [← hreduced, Matrix.map_apply]
  have hdiag (k : Fin (min m n)) : value (R (asRow k) (asCol k)) = qr.factors.entries k := by
    rw [hentry, reducedMatrix_diag _ _ k.isLt]
  refine ⟨qr, σ, p, q, r, P, Qt.transpose, R, hqr, hσ, ⟨hp, hP⟩, ⟨hq', hQ⟩, ⟨hr, hR⟩, fun i j => ?_,
    ?_, ?_, hlower, fun k j hkj => ?_, fun k l hkl => ?_, fun k hk i j hi => ?_⟩
  · have hij : value (P i j) = if σ j = i then 1 else 0 := congrFun (congrFun hpermutation i) j
    rw [hij]
    exact if_congr eq_comm rfl rfl
  · rw [hpermutation, mul_permutation, ← hproduct, Matrix.transpose_map, ← Matrix.mul_assoc,
      hunitary, Matrix.one_mul]
    rfl
  · rw [Matrix.transpose_map, Matrix.transpose_transpose]
    exact mul_eq_one_comm.1 hunitary
  · simp only [hentry]
    rw [← tailSquare_reducedMatrix, reducedMatrix_diag _ _ k.isLt, sq]
    exact hdominates k j k.isLt hkj
  · rw [hdiag, hdiag]
    exact hdominates.abs_le hkl
  · rw [hentry]
    exact hdominates.eq_zero (hdiag k ▸ hk) hi j

/-- A row whose second entry is the larger one: the columns change places. -/
theorem mul_p_eq_q_mul_r_exchanging :
    letI := exactReal 1 1
    letI := exactReal.exact 1 1
    let A : Matrix (Fin 1) (Fin 2) ℝ := !![0, 2]
    ∃ (qr : RankRevealingQR ℝ) (σ : Equiv.Perm (Fin 2)) (q r : DenseMatrix ℝ)
        (Q : Matrix (Fin 1) (Fin 1) ℝ) (R : Matrix (Fin 1) (Fin 2) ℝ),
      ofThreshold 0 (.ofMatrix A) = .ok qr ∧ Lists qr.permutation σ ∧ σ 0 = 1 ∧
        (qr.q = .ok q ∧ q.Stores Q) ∧ (qr.r = .ok r ∧ r.Stores R) ∧
        A.submatrix id σ = Q * R ∧ R 0 1 ^ 2 ≤ R 0 0 ^ 2 := by
  let := exactReal 1 1
  let := exactReal.exact 1 1
  intro A
  obtain ⟨qr, σ, p, q, r, P, Q, R, hqr, hσ, -, hq, hr, hP, hmul, hQ, -, hdominates, -, hzero⟩ :=
    mul_p_eq_q_mul_r (MatrixView.ofMatrix_shows A) (0 : ℝ)
  have hreorder : A.submatrix id σ = Q * R := by
    have hpermutation : P = Matrix.of fun i j => if σ j = i then (1 : ℝ) else 0 := by
      ext i j
      exact (hP i j).trans (if_congr eq_comm rfl rfl)
    rw [← mul_permutation, ← hpermutation]
    exact hmul
  refine ⟨qr, σ, q, r, Q, R, hqr, hσ, ?_, hq, hr, hreorder, ?_⟩
  · by_contra hσ₀
    -- a zero in front would leave nothing of the row
    have hfirst : σ 0 = 0 := by omega
    have hsquare : Q 0 0 * Q 0 0 = 1 := by
      have hentry := congrFun (congrFun hQ 0) 0
      rwa [Matrix.mul_apply, Fin.sum_univ_one] at hentry
    have hhead : (0 : ℝ) = Q 0 0 * R 0 0 := by
      have hentry := congrFun (congrFun hreorder 0) 0
      rwa [Matrix.submatrix_apply, hfirst, Matrix.mul_apply, Fin.sum_univ_one] at hentry
    have hR₀ : R 0 0 = 0 := by
      linear_combination (-R 0 0) * hsquare - Q 0 0 * hhead
    have hR₁ : R 0 1 = 0 := hzero ⟨0, by decide⟩ hR₀ 0 1 le_rfl
    have hsecond : σ 1 = 1 := by
      have hne : σ 1 ≠ σ 0 := fun h => one_ne_zero (σ.injective h)
      omega
    have hentry := congrFun (congrFun hreorder 0) 1
    rw [Matrix.submatrix_apply, hsecond, Matrix.mul_apply, Fin.sum_univ_one, hR₁,
      mul_zero] at hentry
    exact two_ne_zero hentry
  · have hsum := hdominates ⟨0, by decide⟩ 1 Nat.zero_lt_one
    rw [Fin.sum_univ_one] at hsum
    exact hsum

end RankRevealingQR

end DenseFactor
