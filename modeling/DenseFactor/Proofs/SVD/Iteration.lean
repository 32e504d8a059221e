import Mathlib
import DenseFactor.SVD.Iteration
import DenseFactor.Proofs.SVD.Turning

/-!
# DenseFactor.Proofs.SVD.Iteration

The iteration on a bidiagonal form, over exact real elements: **every step is an orthogonal
transformation**, except that it drops what it sets to zero.

Design points:

* Deflation and the start of a chase are the only steps that drop entries. Each adds what
  it drops to the sum that the form keeps.
* `Chase.Reaches` and `Sweep.Reaches` are the invariants of the two passes. They say where
  the entry outside the form is, and that the rows past the block are finished.
* A pass never fails. Only the limit on the number of passes can end the iteration
  without a result.
-/

namespace DenseFactor.SVD.Bidiagonal

open ExactScalar (value)

variable {ρ : Type} [RealScalar ρ] [ExactReal ρ] {m n : ℕ} {E : Failure → Prop}
  {A : Matrix (Fin m) (Fin n) ℝ} {b : Bidiagonal ρ} {row lo hi i j k : ℕ}

noncomputable section

/-! ### Deflation -/

/-- The test compares the entry beside the diagonal with its two neighbours on it. -/
theorem ends_isNegligible (hb : b.Represents A) (hi : i + 1 < n) :
    Ends E (fun negligible => negligible = true ↔ |reals b.offDiag i| ≤
        value (RealScalar.epsilon : ρ) * (|reals b.diag i| + |reals b.diag (i + 1)|))
      (b.isNegligible i) := by
  have hdiag (j : ℕ) (hj : j < n) : j < b.diag.size := hb.diag_size ▸ hj
  have hoff : i < b.offDiag.size := by
    rw [hb.offDiag_size]
    omega
  unfold isNegligible
  refine (ends_read hoff).bind fun beside hbeside => ?_
  refine (ends_read (hdiag i (by omega))).bind fun before hbefore => ?_
  refine (ends_read (hdiag (i + 1) hi)).bind fun after hafter => ?_
  rw [Ends.pure_iff, decide_eq_true_iff, ExactReal.le_iff, ExactReal.value_abs,
    ExactScalar.value_mul, ExactScalar.value_add, ExactReal.value_abs, ExactReal.value_abs,
    hbeside, hbefore, hafter]

/-- Splitting drops the entry beside the diagonal. -/
theorem ends_split (hb : b.Represents A) (hi : i + 1 < n) :
    Ends E (fun b' => b'.Represents A ∧
        reals b'.offDiag = Function.update (reals b.offDiag) i 0) (b.split i) := by
  have hoff : i < b.offDiag.size := by
    rw [hb.offDiag_size]
    omega
  unfold split
  refine (ends_read hoff).bind fun beside hbeside => ?_
  refine (ends_write hoff 0).bind fun offDiag hoffDiag => ?_
  rw [ExactScalar.value_zero'] at hoffDiag
  refine ⟨⟨hb.diag_size, hoffDiag.1.trans hb.offDiag_size, ?_⟩, hoffDiag.2⟩
  dsimp only
  rw [hoffDiag.2]
  refine hb.carries.drop (drops_beside _ _ _) ?_
  simp only [bidiagonal_sub_update_beside, sub_zero]
  rw [ExactReal.value_abs, hbeside]
  exact sum_abs_spike_le i (i + 1) _

/-- Looking for the start of a block drops at most the entry before it. -/
theorem ends_blockStart (hb : b.Represents A) (hlo : lo < n) :
    Ends E (fun found => found.1.Represents A ∧ found.2 ≤ lo ∧
        (∀ i, i + 1 = found.2 → reals found.1.offDiag i = 0) ∧
        ∀ i, lo ≤ i → reals found.1.offDiag i = reals b.offDiag i) (b.blockStart lo) := by
  induction lo with
  | zero => exact ⟨hb, le_rfl, fun i hi => absurd hi (Nat.succ_ne_zero i), fun _ _ => rfl⟩
  | succ lo ih =>
      rw [blockStart]
      refine (ends_isNegligible hb hlo).bind fun negligible _ => ?_
      cases negligible with
      | true =>
          refine (ends_split hb hlo).bind fun b' hb' => ?_
          refine ⟨hb'.1, le_rfl, fun i hi => ?_, fun i hi => ?_⟩
          · obtain rfl : i = lo := Nat.succ_injective hi
            rw [hb'.2, Function.update_self]
          · rw [hb'.2, Function.update_of_ne (Nat.lt_of_succ_le hi).ne']
      | false =>
          refine (ih (Nat.lt_of_succ_lt hlo)).imp fun found hfound => ?_
          exact ⟨hfound.1, hfound.2.1.trans (Nat.le_succ lo), hfound.2.2.1, fun i hi =>
            hfound.2.2.2 i (Nat.le_of_succ_le hi)⟩

/-! ### Chases -/

/-- The moved entry stands in column `j` of its row, or has left the block. -/
structure Chase.Reaches (A : Matrix (Fin m) (Fin n) ℝ) (row hi j : ℕ) (s : Chase ρ) : Prop where
  diag_size : s.form.diag.size = n
  offDiag_size : s.form.offDiag.size = n - 1
  diag_zero : reals s.form.diag row = 0
  beside_zero : reals s.form.offDiag row = 0
  finished (i : ℕ) (h : hi ≤ i) : reals s.form.offDiag i = 0
  carries : Carries s.form.u s.form.v s.form.discarded A
    (bidiagonal (reals s.form.diag) (reals s.form.offDiag) +
      spike row j (if j ≤ hi then value s.moved else 0))

/-- Every rotation of a chase moves the entry one column further. -/
theorem Chase.ends_step {s : Chase ρ} (hs : s.Reaches A row hi j) (hnm : n ≤ m) (hrow : row < j)
    (hj : j ≤ hi) (hhi : hi < n) : Ends E (·.Reaches A row hi (j + 1)) (s.step row hi j) := by
  have hjn : j < n := hj.trans_lt hhi
  have hcarries := hs.carries
  rw [if_pos hj] at hcarries
  unfold step
  refine (ends_read (hs.diag_size ▸ hjn)).bind fun d hd => ?_
  refine (ends_write (hs.diag_size ▸ hjn) _).bind fun diag hdiag => ?_
  refine (hcarries.turn_left d s.moved (j := ⟨j, hjn.trans_le hnm⟩)
    (k := ⟨row, (hrow.trans hjn).trans_le hnm⟩) fun h => hrow.ne' (congrArg Fin.val h)).bind
    fun u hu => ?_
  have hturns : value (Rotation.ofPair d s.moved).cos * value s.moved -
      value (Rotation.ofPair d s.moved).sin * reals s.form.diag j = 0 := by
    rw [← hd]
    exact Rotation.ofPair_turns d s.moved
  rw [turnRows_chased (Fin.lt_def.2 hrow) hs.diag_zero hs.beside_zero hturns] at hu
  have hnew : reals diag = Function.update (reals s.form.diag) j
      (value (Rotation.ofPair d s.moved).cos * reals s.form.diag j +
        value (Rotation.ofPair d s.moved).sin * value s.moved) := by
    rw [hdiag.2, Rotation.value_first, hd]
  rw [← hnew] at hu
  have hdiag_zero : reals diag row = 0 := by
    rw [hnew, Function.update_of_ne hrow.ne, hs.diag_zero]
  by_cases hlast : j < hi
  · have hoff : j < s.form.offDiag.size := by
      rw [hs.offDiag_size]
      omega
    rw [if_pos hlast]
    refine (ends_read hoff).bind fun e he => ?_
    refine (ends_write hoff _).bind fun offDiag hoffDiag => ?_
    rw [ExactScalar.value_mul, he] at hoffDiag
    refine ⟨hdiag.1.trans hs.diag_size, hoffDiag.1.trans hs.offDiag_size, hdiag_zero, ?_, ?_, ?_⟩
    · rw [hoffDiag.2, Function.update_of_ne hrow.ne, hs.beside_zero]
    · intro i hi
      rw [hoffDiag.2, Function.update_of_ne (by omega), hs.finished i hi]
    · rw [if_pos (Nat.succ_le_of_lt hlast), hoffDiag.2, ExactScalar.value_mul, ExactReal.value_neg,
        he]
      exact hu
  · have hzero : reals s.form.offDiag j = 0 := hs.finished j (not_lt.1 hlast)
    rw [hzero, mul_zero, mul_zero, Function.update_eq_self_iff.2 hzero.symm] at hu
    rw [if_neg hlast]
    refine ⟨hdiag.1.trans hs.diag_size, hs.offDiag_size, hdiag_zero, hs.beside_zero,
      hs.finished, ?_⟩
    rw [if_neg (by omega)]
    exact hu

/-- A chase drops the diagonal entry and moves the entry beside it out of the block. -/
theorem ends_chase (hb : b.Represents A) (hnm : n ≤ m) (hrow : row < hi) (hhi : hi < n)
    (hfinished : ∀ i, hi ≤ i → reals b.offDiag i = 0) :
    Ends E (fun b' => (b'.Represents A ∧ ∀ i, hi ≤ i → reals b'.offDiag i = 0) ∧
        reals b'.offDiag row = 0)
      (b.chase row hi) := by
  have hdiag : row < b.diag.size := hb.diag_size ▸ hrow.trans hhi
  have hoff : row < b.offDiag.size := by
    rw [hb.offDiag_size]
    omega
  unfold chase
  refine (ends_read hdiag).bind fun d hd => ?_
  refine (ends_read hoff).bind fun moved hmoved => ?_
  refine (ends_write hdiag 0).bind fun diag hdiag' => ?_
  refine (ends_write hoff 0).bind fun offDiag hoffDiag => ?_
  rw [ExactScalar.value_zero'] at hdiag' hoffDiag
  have hstart : Chase.Reaches A row hi (row + 1)
      { form := { b with diag, offDiag, discarded := b.discarded + RealScalar.abs d }, moved } := by
    refine ⟨hdiag'.1.trans hb.diag_size, hoffDiag.1.trans hb.offDiag_size, ?_, ?_, ?_, ?_⟩
    · rw [hdiag'.2, Function.update_self]
    · rw [hoffDiag.2, Function.update_self]
    · intro i hi
      rw [hoffDiag.2, Function.update_of_ne (by omega), hfinished i hi]
    · -- taking the entry out of the form changes nothing, only the diagonal entry is dropped
      have htaken : bidiagonal (reals diag) (reals offDiag) +
          spike row (row + 1) (value moved) =
            (bidiagonal (reals diag) (reals b.offDiag) : Matrix (Fin m) (Fin n) ℝ) := by
        ext i j
        rw [Matrix.add_apply, hoffDiag.2, hmoved]
        have hchange := bidiagonal_sub_update_beside (reals diag) (reals b.offDiag) row 0 i j
        rw [sub_zero] at hchange
        linear_combination -hchange
      dsimp only
      rw [if_pos (Nat.succ_le_of_lt hrow), htaken, hdiag'.2]
      refine hb.carries.drop (drops_diag _ _ _) ?_
      simp only [bidiagonal_sub_update_diag, sub_zero]
      rw [ExactReal.value_abs, hd]
      exact sum_abs_spike_le row row _
  refine (Ends.foldlM_positions (I := fun j s => s.Reaches A row hi j) (by omega) hstart
    fun j s hj hj' hs => Chase.ends_step hs hnm (by omega) (by omega) hhi).bind fun s hs => ?_
  have hcarries := hs.carries
  rw [if_neg (by omega), spike_zero, add_zero] at hcarries
  exact ⟨⟨⟨hs.diag_size, hs.offDiag_size, hcarries⟩, hs.finished⟩, hs.beside_zero⟩

/-! ### Sweeps -/

/-- The next rotation of a sweep is that of columns `k` and `k + 1`. Within the block the
entry above the form is `z`, and the one beside it `x`. -/
structure Sweep.Reaches (A : Matrix (Fin m) (Fin n) ℝ) (lo hi k : ℕ) (s : Sweep ρ) : Prop where
  diag_size : s.form.diag.size = n
  offDiag_size : s.form.offDiag.size = n - 1
  separate (i : ℕ) (h : i + 1 = lo) : reals s.form.offDiag i = 0
  finished (i : ℕ) (h : hi ≤ i) : reals s.form.offDiag i = 0
  beside (i : ℕ) (h : i + 1 = k) (hlo : lo < k) (hhi : k < hi) :
    reals s.form.offDiag i = value s.x
  carries : Carries s.form.u s.form.v s.form.discarded A
    (bidiagonal (reals s.form.diag) (reals s.form.offDiag) +
      upper k (if lo < k ∧ k < hi then value s.z else 0))

/-- The rotation of columns turns the entry above the form into the one beside the diagonal.
The first rotation of a sweep meets none. -/
theorem Sweep.Reaches.ends_before {s : Sweep ρ} (hs : s.Reaches A lo hi k) (hlo : lo ≤ k)
    (hk : k < hi) (hhi : hi < n) {z : ℝ} (hz : z = if lo < k ∧ k < hi then value s.z else 0) :
    Ends E (fun xs => xs.size = n - 1 ∧ (∀ i, i + 1 ≠ k → reals xs i = reals s.form.offDiag i) ∧
        ∀ i, i + 1 = k →
          reals xs i = value (Rotation.ofPair s.x s.z).cos * reals s.form.offDiag i +
            value (Rotation.ofPair s.x s.z).sin * z ∧
          value (Rotation.ofPair s.x s.z).cos * z -
            value (Rotation.ofPair s.x s.z).sin * reals s.form.offDiag i = 0)
      (if lo < k then
        Storage.write s.form.offDiag (k - 1) ((Rotation.ofPair s.x s.z).first s.x s.z)
      else pure s.form.offDiag) := by
  by_cases hfirst : lo < k
  · have hoff : k - 1 < s.form.offDiag.size := by
      rw [hs.offDiag_size]
      omega
    rw [if_pos ⟨hfirst, hk⟩] at hz
    rw [if_pos hfirst]
    refine (ends_write hoff _).imp fun xs hxs => ?_
    refine ⟨hxs.1.trans hs.offDiag_size, fun i hi => ?_, fun i hi => ?_⟩
    · rw [hxs.2, Function.update_of_ne (by omega)]
    · have hx : reals s.form.offDiag i = value s.x := hs.beside i hi hfirst hk
      obtain rfl : i = k - 1 := by omega
      rw [hxs.2, Function.update_self, Rotation.value_first, hx, hz]
      exact ⟨rfl, Rotation.ofPair_turns s.x s.z⟩
  · rw [if_neg fun h => hfirst h.1] at hz
    rw [if_neg hfirst]
    refine ⟨hs.offDiag_size, fun i _ => rfl, fun i hi => ?_⟩
    have hzero : reals s.form.offDiag i = 0 := hs.separate i (by omega)
    rw [hz, hzero, mul_zero, mul_zero, add_zero, sub_zero]
    exact ⟨rfl, rfl⟩

/-- After both rotations the entry is above the form again, one row further. It is the `z` of
the next step, or there is none at the end of the block. -/
theorem Sweep.ends_next {b : Bidiagonal ρ} {g : Rotation ρ} {s : Sweep ρ}
    (hdiag_size : b.diag.size = n) (hoffDiag_size : b.offDiag.size = n - 1) (hlo : lo ≤ k)
    (hk : k < hi) (hhi : hi < n) (hseparate : ∀ i, i + 1 = lo → reals b.offDiag i = 0)
    (hfinished : ∀ i, hi ≤ i → reals b.offDiag i = 0)
    (hcarries : Carries b.u b.v b.discarded A
      (bidiagonal (reals b.diag) (Function.update (reals b.offDiag) (k + 1)
          (value g.cos * reals b.offDiag (k + 1))) +
        upper (k + 1) (value g.sin * reals b.offDiag (k + 1)))) :
    Ends E (·.Reaches A lo hi (k + 1))
      (if k + 1 < hi then do
        let beside ← Storage.read b.offDiag (k + 1)
        let x ← Storage.read b.offDiag k
        let offDiag ← Storage.write b.offDiag (k + 1) (g.cos * beside)
        return { form := { b with offDiag }, x, z := g.sin * beside : Sweep ρ }
      else return { s with form := b }) := by
  by_cases hlast : k + 1 < hi
  · have hoff (i : ℕ) (hi : i + 1 < n) : i < b.offDiag.size := by
      rw [hoffDiag_size]
      omega
    rw [if_pos hlast]
    refine (ends_read (hoff (k + 1) (by omega))).bind fun beside hbeside => ?_
    refine (ends_read (hoff k (by omega))).bind fun x hx => ?_
    refine (ends_write (hoff (k + 1) (by omega)) _).bind fun offDiag hoffDiag => ?_
    rw [ExactScalar.value_mul, hbeside] at hoffDiag
    refine ⟨hdiag_size, hoffDiag.1.trans hoffDiag_size, fun i hi => ?_, fun i hi => ?_,
      fun i hi _ _ => ?_, ?_⟩
    · rw [hoffDiag.2, Function.update_of_ne (by omega), hseparate i hi]
    · rw [hoffDiag.2, Function.update_of_ne (by omega), hfinished i hi]
    · obtain rfl : i = k := Nat.succ_injective hi
      rw [hoffDiag.2, Function.update_of_ne i.lt_succ_self.ne, hx]
    · dsimp only
      rw [if_pos ⟨by omega, hlast⟩, hoffDiag.2, ExactScalar.value_mul, hbeside]
      exact hcarries
  · have hzero : reals b.offDiag (k + 1) = 0 := hfinished (k + 1) (not_lt.1 hlast)
    rw [hzero, mul_zero, mul_zero, Function.update_eq_self_iff.2 hzero.symm, upper_zero] at hcarries
    rw [if_neg hlast]
    refine ⟨hdiag_size, hoffDiag_size, hseparate, hfinished, fun i _ _ h => absurd h hlast, ?_⟩
    rw [if_neg fun h => hlast h.2, upper_zero]
    exact hcarries

/-- Every pair of rotations of a sweep moves the entry one row further. -/
theorem Sweep.ends_step {s : Sweep ρ} (hs : s.Reaches A lo hi k) (hnm : n ≤ m) (hlo : lo ≤ k)
    (hk : k < hi) (hhi : hi < n) : Ends E (·.Reaches A lo hi (k + 1)) (s.step lo hi k) := by
  have hdiag (i : ℕ) (hi : i < n) : i < s.form.diag.size := hs.diag_size ▸ hi
  have hne : k ≠ k + 1 := k.lt_succ_self.ne
  set z := if lo < k ∧ k < hi then value s.z else 0 with hz
  set d := reals s.form.diag
  set e := reals s.form.offDiag
  unfold step
  refine Ends.ite_bind (hs.ends_before hlo hk hhi hz) fun offDiag₀ hoffDiag₀ => ?_
  obtain ⟨hsize₀, hkept₀, hbefore₀⟩ := hoffDiag₀
  have hoff₀ : k < offDiag₀.size := by
    rw [hsize₀]
    omega
  refine (ends_read (hdiag k (by omega))).bind fun dk hdk => ?_
  refine (ends_read hoff₀).bind fun ek hek => ?_
  refine (ends_read (hdiag (k + 1) (by omega))).bind fun next hnext => ?_
  rw [hkept₀ k hne.symm] at hek
  refine (hs.carries.turn_right s.x s.z (j := ⟨k, by omega⟩) (k := ⟨k + 1, by omega⟩)
    fun h => hne (congrArg Fin.val h)).bind fun v hv => ?_
  rw [turnColumns_swept rfl rfl hkept₀ hbefore₀] at hv
  set right := Rotation.ofPair s.x s.z
  have hd' : value (right.first dk ek) = value right.cos * d k + value right.sin * e k := by
    rw [Rotation.value_first, hdk, hek]
  have he' : value (right.second dk ek) = value right.cos * e k - value right.sin * d k := by
    rw [Rotation.value_second, hdk, hek]
  have hbulge : value (right.sin * next) = value right.sin * d (k + 1) := by
    rw [ExactScalar.value_mul, hnext]
  have hnext' : value (right.cos * next) = value right.cos * d (k + 1) := by
    rw [ExactScalar.value_mul, hnext]
  rw [← hd', ← he', ← hbulge, ← hnext'] at hv
  set left := Rotation.ofPair (right.first dk ek) (right.sin * next)
  refine (ends_write (hdiag k (by omega)) _).bind fun diag₁ hdiag₁ => ?_
  refine (ends_write hoff₀ _).bind fun offDiag₁ hoffDiag₁ => ?_
  refine (ends_write (hdiag₁.1 ▸ hdiag (k + 1) (by omega)) _).bind fun diag₂ hdiag₂ => ?_
  refine (hv.turn_left (right.first dk ek) (right.sin * next) (j := ⟨k, by omega⟩)
    (k := ⟨k + 1, by omega⟩) fun h => hne (congrArg Fin.val h)).bind fun u hu => ?_
  have hturns : value left.cos * value (right.sin * next) - value left.sin *
      Function.update (Function.update d k (value (right.first dk ek))) (k + 1)
        (value (right.cos * next)) k = 0 := by
    rw [Function.update_of_ne hne, Function.update_self]
    exact Rotation.ofPair_turns _ _
  rw [turnRows_swept rfl rfl hturns] at hu
  simp only [Function.update_self, Function.update_of_ne hne, Function.update_of_ne hne.symm,
    Function.update_idem, Function.update_comm hne.symm] at hu
  have hkept (i : ℕ) (hi : i ≠ k) : reals offDiag₁ i = reals offDiag₀ i := by
    rw [hoffDiag₁.2, Function.update_of_ne hi]
  have hdiag' : reals diag₂ = Function.update (Function.update d k
      (value left.cos * value (right.first dk ek) + value left.sin * value (right.sin * next)))
      (k + 1) (value left.cos * value (right.cos * next) -
        value left.sin * value (right.second dk ek)) := by
    rw [hdiag₂.2, hdiag₁.2, Rotation.value_first, Rotation.value_second]
  have hbeside : reals offDiag₁ = Function.update (reals offDiag₀) k
      (value left.cos * value (right.second dk ek) +
        value left.sin * value (right.cos * next)) := by
    rw [hoffDiag₁.2, Rotation.value_first]
  rw [← hdiag', ← hbeside, ← hkept (k + 1) hne.symm] at hu
  refine ends_next (b := { s.form with diag := diag₂, offDiag := offDiag₁, u, v })
    (hdiag₂.1.trans (hdiag₁.1.trans hs.diag_size)) (hoffDiag₁.1.trans hsize₀) hlo hk hhi
    (fun i hi => ?_) (fun i hi => ?_) hu
  · -- the first rotation of a sweep has not touched the entry before the block
    have hzero : reals s.form.offDiag i = 0 := hs.separate i hi
    rw [hkept i (by omega)]
    by_cases hfirst : i + 1 = k
    · have hz' : z = 0 := if_neg fun h => h.1.ne (hi.symm.trans hfirst)
      rw [(hbefore₀ i hfirst).1, hzero, hz', mul_zero, mul_zero, add_zero]
    · rw [hkept₀ i hfirst, hzero]
  · rw [hkept i (by omega), hkept₀ i (by omega)]
    exact hs.finished i hi

/-- The corner of the block from `lo` to `hi`, by its numbers. -/
structure Corner.Shows (c : Corner ρ) (b : Bidiagonal ρ) (lo hi : ℕ) : Prop where
  last : value c.last = reals b.diag hi
  previous : value c.previous = reals b.diag (hi - 1)
  besideLast : value c.besideLast = reals b.offDiag (hi - 1)
  besidePrevious : value c.besidePrevious = if lo + 2 ≤ hi then reals b.offDiag (hi - 2) else 0
  first : value c.first = reals b.diag lo
  besideFirst : value c.besideFirst = reals b.offDiag lo

/-- The entries that determine the shift can be read. -/
theorem ends_corner (hb : b.Represents A) (hlo : lo < hi) (hhi : hi < n) :
    Ends E (·.Shows b lo hi) (b.corner lo hi) := by
  have hdiag (i : ℕ) (hi : i < n) : i < b.diag.size := hb.diag_size ▸ hi
  have hoff (i : ℕ) (hi : i + 1 < n) : i < b.offDiag.size := by
    rw [hb.offDiag_size]
    omega
  unfold corner
  refine (ends_read (hdiag hi hhi)).bind fun last hlast => ?_
  refine (ends_read (hdiag (hi - 1) (by omega))).bind fun previous hprevious => ?_
  refine (ends_read (hoff (hi - 1) (by omega))).bind fun besideLast hbesideLast => ?_
  refine Ends.ite_bind (P := fun besidePrevious : ρ => value besidePrevious =
    if lo + 2 ≤ hi then reals b.offDiag (hi - 2) else 0) ?_ fun besidePrevious hbesidePrevious => ?_
  · by_cases htwo : lo + 2 ≤ hi
    · rw [if_pos htwo, if_pos htwo]
      exact ends_read (hoff (hi - 2) (by omega))
    · rw [if_neg htwo, if_neg htwo]
      exact ExactScalar.value_zero'
  refine (ends_read (hdiag lo (by omega))).bind fun first hfirst => ?_
  refine (ends_read (hoff lo (by omega))).bind fun besideFirst hbesideFirst => ?_
  exact ⟨hlast, hprevious, hbesideLast, hbesidePrevious, hfirst, hbesideFirst⟩

/-- A sweep is an orthogonal transformation. -/
theorem ends_sweep (hb : b.Represents A) (hnm : n ≤ m) (hlo : lo < hi) (hhi : hi < n)
    (hseparate : ∀ i, i + 1 = lo → reals b.offDiag i = 0)
    (hfinished : ∀ i, hi ≤ i → reals b.offDiag i = 0) :
    Ends E (fun b' => b'.Represents A ∧ ∀ i, hi ≤ i → reals b'.offDiag i = 0)
      (b.sweep lo hi) := by
  unfold sweep
  refine (ends_corner hb hlo hhi).bind fun entries _ => ?_
  have hstart (x z : ρ) : Sweep.Reaches A lo hi lo { form := b, x, z } := by
    refine ⟨hb.diag_size, hb.offDiag_size, hseparate, hfinished,
      fun i _ h => absurd h (lt_irrefl lo), ?_⟩
    rw [if_neg fun h => lt_irrefl lo h.1, upper_zero, add_zero]
    exact hb.carries
  refine (Ends.foldlM_positions (I := fun k s => s.Reaches A lo hi k) hlo.le (hstart _ _)
    fun k s hk hk' hs => Sweep.ends_step hs hnm hk hk' hhi).bind fun s hs => ?_
  have hcarries := hs.carries
  rw [if_neg fun h => lt_irrefl hi h.2, upper_zero, add_zero] at hcarries
  exact ⟨⟨hs.diag_size, hs.offDiag_size, hcarries⟩, hs.finished⟩

/-! ### Iteration -/

/-- A pass is an orthogonal transformation, up to what it drops. -/
theorem ends_pass (hb : b.Represents A) (hnm : n ≤ m) (hlo : lo < hi) (hhi : hi < n) (small : ρ)
    (hseparate : ∀ i, i + 1 = lo → reals b.offDiag i = 0)
    (hfinished : ∀ i, hi ≤ i → reals b.offDiag i = 0) :
    Ends E (fun b' => b'.Represents A ∧ ∀ i, hi ≤ i → reals b'.offDiag i = 0)
      (b.pass small lo hi) := by
  unfold pass
  refine (Ends.findM?_mem (Q := fun _ _ => True) fun i hi => ?_).bind fun found hfound => ?_
  · have hi := mem_positions.1 hi
    refine (ends_read ?_).bind fun d _ => trivial
    rw [hb.diag_size]
    omega
  cases found with
  | some row =>
      have hrow := mem_positions.1 (hfound row rfl).1
      exact (ends_chase hb hnm hrow.2 hhi hfinished).imp fun _ h => h.1
  | none => exact ends_sweep hb hnm hlo hhi hseparate hfinished

/-- Unless the passes run out, the iteration leaves nothing beside the diagonal. A form of
one row needs no pass. -/
theorem ends_iterate (small : ρ) (hnm : n ≤ m) (hE : 1 < n → E .noConvergence) (budget : ℕ)
    (hb : b.Represents A) (hhi : hi = 0 ∨ hi < n)
    (hfinished : ∀ i, hi ≤ i → reals b.offDiag i = 0) :
    Ends E (fun b' => b'.Represents A ∧ ∀ i, reals b'.offDiag i = 0)
      (iterate small b budget hi) := by
  -- a pass spends the budget, and with the same budget the block only shrinks
  induction budget using Nat.strong_induction_on generalizing b hi with
  | _ budget ihbudget =>
    induction hi generalizing b with
    | zero =>
        rw [iterate]
        exact ⟨hb, fun i => hfinished i (Nat.zero_le i)⟩
    | succ last ih =>
        have hlast : last + 1 < n := hhi.resolve_left (Nat.succ_ne_zero last)
        rw [iterate]
        refine (ends_isNegligible hb hlast).bind fun negligible _ => ?_
        cases negligible with
        | true =>
            refine (ends_split hb hlast).bind fun b' hb' => ?_
            refine ih hb'.1 (Or.inr (Nat.lt_of_succ_lt hlast)) fun i hi => ?_
            rw [hb'.2]
            rcases hi.eq_or_lt with rfl | hi
            · rw [Function.update_self]
            · rw [Function.update_of_ne hi.ne', hfinished i hi]
        | false =>
            refine (ends_blockStart hb (Nat.lt_of_succ_lt hlast)).bind fun found hfound => ?_
            obtain ⟨hb', hlo, hseparate, hkept⟩ := hfound
            have hfinished' (i : ℕ) (hi : last + 1 ≤ i) : reals found.1.offDiag i = 0 := by
              rw [hkept i (Nat.le_of_succ_le hi), hfinished i hi]
            cases budget with
            | zero => exact hE (Nat.lt_of_le_of_lt (Nat.succ_le_succ (Nat.zero_le last)) hlast)
            | succ budget =>
                refine (ends_pass hb' hnm (Nat.lt_succ_of_le hlo) hlast small hseparate
                  hfinished').bind fun b'' hb'' => ?_
                exact ihbudget budget (Nat.lt_succ_self budget) hb''.1 (Or.inr hlast) hb''.2

/-! ### Order and signs -/

/-- What the iteration ends with: a form of the matrix with nothing beside the
diagonal. -/
structure Diagonalizes (b : Bidiagonal ρ) (A : Matrix (Fin m) (Fin n) ℝ) : Prop extends
    b.Represents A where
  diagonal (i : ℕ) : reals b.offDiag i = 0

/-- Negating a diagonal entry with its column of the left transformation. -/
theorem ends_makeNonNegative (hb : b.Diagonalizes A) (hi : i < n) :
    Ends E (·.Diagonalizes A) (b.makeNonNegative i) := by
  have hdiag : i < b.diag.size := hb.diag_size ▸ hi
  unfold makeNonNegative
  refine (ends_read hdiag).bind fun d hd => ?_
  by_cases hneg : d < 0
  · rw [if_pos hneg]
    refine (ends_write hdiag _).bind fun diag hdiag' => ?_
    rw [ExactReal.value_neg, hd] at hdiag'
    refine (hb.carries.negate i).bind fun u hu => ?_
    refine ⟨⟨hdiag'.1.trans hb.diag_size, hb.offDiag_size, ?_⟩, hb.diagonal⟩
    have hsign : Matrix.of (fun (r : Fin m) (l : Fin n) =>
        if (r : ℕ) = i then -bidiagonal (reals b.diag) (reals b.offDiag) r l
        else bidiagonal (reals b.diag) (reals b.offDiag) r l) =
          bidiagonal (reals diag) (reals b.offDiag) := by
      ext r l
      rw [Matrix.of_apply, bidiagonal_row, bidiagonal_row, hdiag'.2, hb.diagonal]
      by_cases hr : (r : ℕ) = i
      · rw [if_pos hr, hr, Function.update_self]
        ring
      · rw [if_neg hr, Function.update_of_ne hr]
    exact hsign ▸ hu
  · rw [if_neg hneg]
    exact hb

/-- Exchanging two numbers of a run. -/
theorem ends_exchange {xs : Array ρ} (hi : i < xs.size) (hj : j < xs.size) :
    Ends E (fun ys => ys.size = xs.size ∧ reals ys = reals xs ∘ Equiv.swap i j)
      (Storage.exchange xs i j) := by
  rw [Storage.exchange_of_lt hi hj]
  refine ⟨Array.size_swap, funext fun k => ?_⟩
  simp only [reals, Function.comp_apply, Array.getD_eq_getD_getElem?, swap_getElem?]

/-- Putting the largest entry that is left in its place. -/
theorem ends_selectLargest (hb : b.Diagonalizes A) (hnm : n ≤ m) (hi : i < n) :
    Ends E (·.Diagonalizes A) (b.selectLargest i) := by
  unfold selectLargest
  rw [hb.diag_size]
  refine (Ends.foldPositions (I := fun _ best => best < n) hi hi
    fun j best _ hj hbest => ?_).bind fun best hbest => ?_
  · refine (ends_read (hb.diag_size ▸ hbest)).bind fun x _ => ?_
    refine (ends_read (hb.diag_size ▸ hj)).bind fun y _ => ?_
    rw [Ends.pure_iff]
    split
    · exact hj
    · exact hbest
  by_cases hsame : best = i
  · rw [if_pos hsame]
    exact hb
  rw [if_neg hsame]
  refine (ends_exchange (hb.diag_size ▸ hi) (hb.diag_size ▸ hbest)).bind fun diag hdiag => ?_
  refine (hb.carries.swap_left ⟨i, hi.trans_le hnm⟩ ⟨best, hbest.trans_le hnm⟩).bind fun u hu => ?_
  refine (hu.swap_right ⟨i, hi⟩ ⟨best, hbest⟩).bind fun v hv => ?_
  refine ⟨⟨hdiag.1.trans hb.diag_size, hb.offDiag_size, ?_⟩, hb.diagonal⟩
  rw [bidiagonal_permuted (Equiv.swap i best) hb.diagonal
    (fun r => (Fin.val_injective.swap_apply _ _ r).symm)
    (fun l => (Fin.val_injective.swap_apply _ _ l).symm), ← hdiag.2] at hv
  exact hv

/-- Once the iteration has ended, the form is taken to an ordered diagonal one. -/
theorem ends_diagonalize_of_iterate (hnm : n ≤ m) {budget : ℕ}
    (h : Ends E (fun b' => b'.Represents A ∧ ∀ i, reals b'.offDiag i = 0)
      (iterate (RealScalar.epsilon * b.scale) b budget (b.diag.size - 1))) :
    Ends E (·.Diagonalizes A) (b.diagonalize budget) := by
  unfold diagonalize
  refine h.bind fun b' hb' => ?_
  have hb' : b'.Diagonalizes A := ⟨hb'.1, hb'.2⟩
  rw [hb'.diag_size]
  refine (Ends.foldlM_positions (I := fun _ b => Diagonalizes b A) (Nat.zero_le n) hb'
    fun i b _ hi hb => ends_makeNonNegative hb hi).bind fun b'' hb'' => ?_
  exact Ends.foldlM_positions (I := fun _ b => Diagonalizes b A) (Nat.zero_le n) hb''
    fun i b _ hi hb => ends_selectLargest hb hnm hi

end

end DenseFactor.SVD.Bidiagonal
