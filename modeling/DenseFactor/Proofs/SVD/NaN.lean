import Mathlib
import DenseFactor.Proofs.SVD.Values

/-!
# DenseFactor.Proofs.SVD.NaN

What the singular values tell of a **NaN in the matrix**.

Design points:

* A NaN is looked for in the bidiagonal form alone. The reduction reads into the form the
  entries on the diagonal of the upright matrix and beside it, so a NaN on this band is
  always found.
* A NaN does not leave its place: every pass leaves an entry alone or takes something away
  from it. And no vector with a NaN is reflected, because the comparison that would allow it
  fails.
* Off the band a NaN gets into the form by a reflection alone. The first column's brings it
  there from every place; where no reflection is made, nothing reads it.
-/

namespace DenseFactor

/-- What arithmetic makes of zeros. -/
class ZeroArithmetic (ρ : Type) [RealScalar ρ] : Prop where
  add_square : (0 : ρ) + 0 * 0 = 0
  abs_zero : RealScalar.abs (0 : ρ) = 0
  not_minPositive_lt : ¬ RealScalar.minPositive < (0 : ρ)
  negligible : (0 : ρ) ≤ RealScalar.epsilon * (0 + 0)

instance : ZeroArithmetic Float where
  add_square := by decide +kernel
  abs_zero := by decide +kernel
  not_minPositive_lt := by decide +kernel
  negligible := by decide +kernel

instance : ZeroArithmetic Float32 where
  add_square := by decide +kernel
  abs_zero := by decide +kernel
  not_minPositive_lt := by decide +kernel
  negligible := by decide +kernel

namespace BinaryScalar

variable {ρ : Type} [RealScalar ρ] {x y : ρ}

/-- Nothing is below a NaN. -/
theorem not_lt_of_isNaN [BinaryScalar ρ] (hy : RealScalar.isNaN y = true) : ¬ x < y := fun hlt =>
  Bool.false_ne_true ((lt_iff_place.1 hlt).1.2.symm.trans hy)

end BinaryScalar

open BinaryScalar

variable {ρ : Type} [RealScalar ρ]

/-- A sum is a NaN from the moment one is added to it. -/
theorem foldPositions_isNaN {f : ρ → ℕ → Except Failure ρ} {start stop k : ℕ} (init : ρ)
    (hk : start ≤ k ∧ k < stop) (hjoins : ∀ sum, Ends Always (RealScalar.isNaN · = true) (f sum k))
    (hstays : ∀ sum i, RealScalar.isNaN sum = true →
      Ends Always (RealScalar.isNaN · = true) (f sum i)) :
    Ends Always (RealScalar.isNaN · = true) (foldPositions start stop init f) := by
  refine (Ends.foldPositions (I := fun i sum => k < i → RealScalar.isNaN sum = true)
    (hk.1.trans hk.2.le) (fun hlt => absurd hk.1 (by omega)) ?_).imp fun sum hsum => hsum hk.2
  intro i sum _ _ hsum
  by_cases hik : i = k
  · subst hik
    exact (hjoins sum).imp fun _ hnan _ => hnan
  by_cases hlt : k < i
  · exact (hstays sum i (hsum hlt)).imp fun _ hnan _ => hnan
  · exact Ends.always.imp fun _ _ hlater => absurd hlater (by omega)

/-! ### Entries -/

/-- The entry is a NaN. -/
def DenseMatrix.HasNaN (m : DenseMatrix ρ) (i j : ℕ) : Prop :=
  ∃ x, m.entry i j = .ok x ∧ RealScalar.isNaN x = true

namespace DenseMatrix

/-- Only inside the shape an entry can be read. -/
theorem lt_of_entry_eq_ok {α : Type} {m : DenseMatrix α} {i j : ℕ} {x : α}
    (h : m.entry i j = .ok x) : i < m.nrows ∧ j < m.ncols := by
  by_contra hout
  simp [entry, checkEntry, hout, bind, Except.bind] at h

/-- A pass leaves a NaN at a place where it computes one. -/
theorem mapEntries_hasNaN {m : DenseMatrix ρ} {f : ℕ → ℕ → ρ → Except Failure ρ} {i j : ℕ}
    (hi : i < m.nrows) (hj : j < m.ncols)
    (hf : ∀ x, m.entry i j = .ok x → Ends Always (RealScalar.isNaN · = true) (f i j x)) :
    Ends Always (·.HasNaN i j) (m.mapEntries f) := by
  refine Ends.always.self.imp fun m' hm' => ?_
  obtain ⟨hrows, hcols, hwf, hentry⟩ := mapEntries_eq_ok_iff.1 hm'.1
  obtain ⟨y, hy⟩ := hwf.exists_entry (hrows.symm ▸ hi) (hcols.symm ▸ hj)
  refine ⟨y, hy, ?_⟩
  have hrun := (hentry i hi j hj).trans hy
  cases hx : m.entry i j with
  | error e => simp [hx, bind, Except.bind] at hrun
  | ok x =>
      rw [hx] at hrun
      exact (hf x hx).of_ok hrun

end DenseMatrix

/-! ### Reflections -/

section Spreading

variable [BinaryScalar ρ] {m : DenseMatrix ρ} {i j : ℕ}

/-- A reflection from the left takes something away from an entry or leaves it alone. -/
theorem Reflection.columns_hasNaN (h : m.HasNaN i j) (g : Reflection ρ) (start : ℕ) :
    Ends Always (·.HasNaN i j) (g.columns m start) := by
  obtain ⟨x, hx, hnan⟩ := h
  obtain ⟨hi, hj⟩ := DenseMatrix.lt_of_entry_eq_ok hx
  unfold Reflection.columns
  refine Ends.always.bind fun dots _ => DenseMatrix.mapEntries_hasNaN hi hj fun y hy => ?_
  obtain rfl := Except.ok.inj (hx.symm.trans hy)
  split_ifs
  · exact Ends.always.bind fun d _ => isNaN_of_operand isNaN_of_sub (.inl hnan)
  · refine Ends.always.bind fun d _ => Ends.always.bind fun t _ => ?_
    exact isNaN_of_operand isNaN_of_sub (.inl hnan)
  · exact hnan

/-- A reflection from the right takes something away from an entry or leaves it alone. -/
theorem Reflection.rows_hasNaN (h : m.HasNaN i j) (g : Reflection ρ) (start : ℕ) :
    Ends Always (·.HasNaN i j) (g.rows m start) := by
  obtain ⟨x, hx, hnan⟩ := h
  obtain ⟨hi, hj⟩ := DenseMatrix.lt_of_entry_eq_ok hx
  unfold Reflection.rows
  refine Ends.always.bind fun dots _ => DenseMatrix.mapEntries_hasNaN hi hj fun y hy => ?_
  obtain rfl := Except.ok.inj (hx.symm.trans hy)
  split_ifs
  · exact Ends.always.bind fun d _ => isNaN_of_operand isNaN_of_sub (.inl hnan)
  · refine Ends.always.bind fun d _ => Ends.always.bind fun t _ => ?_
    exact isNaN_of_operand isNaN_of_sub (.inl hnan)
  · exact hnan

/-- A reflection from the left brings a NaN to every place of its column that it reaches:
the sum that is taken away has the NaN in it. -/
theorem Reflection.columns_spreads (h : m.HasNaN i j) {g : Reflection ρ} {start : ℕ}
    (hstart : start ≤ j) (hi : g.head ≤ i ∧ i < g.stop) {r : ℕ} (hr : g.head ≤ r ∧ r < g.stop)
    (hrow : r < m.nrows) : Ends Always (·.HasNaN r j) (g.columns m start) := by
  obtain ⟨x, hx, hnan⟩ := h
  obtain ⟨-, hj⟩ := DenseMatrix.lt_of_entry_eq_ok hx
  have hsum : Ends Always (RealScalar.isNaN · = true)
      (m.entry g.head j >>= fun first =>
        foldPositions (g.head + 1) g.stop first fun sum i => do
          return sum + (← Storage.read g.tail i) * (← m.entry i j)) := by
    refine Ends.always.self.bind fun first hfirst => ?_
    have hstays (sum : ρ) (k : ℕ) (hsum : RealScalar.isNaN sum = true) :
        Ends Always (RealScalar.isNaN · = true)
          (do return sum + (← Storage.read g.tail k) * (← m.entry k j)) :=
      Ends.always.bind fun t _ => Ends.always.bind fun y _ =>
        isNaN_of_operand isNaN_of_add (.inl hsum)
    by_cases hhead : i = g.head
    · rw [← hhead] at hfirst
      obtain rfl := Except.ok.inj (hx.symm.trans hfirst.1)
      exact Ends.foldPositions (I := fun _ sum => RealScalar.isNaN sum = true)
        (Nat.succ_le_of_lt (hi.1.trans_lt hi.2)) hnan fun k sum _ _ hsum => hstays sum k hsum
    · refine foldPositions_isNaN first ⟨by omega, hi.2⟩ (fun sum => ?_) hstays
      refine Ends.always.bind fun t _ => ?_
      rw [hx]
      exact isNaN_of_operand isNaN_of_add (.inr (isNaN_of_operand isNaN_of_mul (.inr hnan)))
  unfold Reflection.columns
  refine (Ends.collect (P := fun a d => (a : ℕ) = j → RealScalar.isNaN d = true)
    fun a => ?_).bind fun dots hdots => ?_
  · by_cases haj : (a : ℕ) = j
    · rw [haj, if_pos hstart]
      have hdot := hsum.bind (f := fun sum => pure (sum * g.factor))
        (R := (RealScalar.isNaN · = true)) fun sum hnan =>
          isNaN_of_operand isNaN_of_mul (.inl hnan)
      rw [bind_assoc] at hdot
      exact hdot.imp fun d hd _ => hd
    · exact Ends.always.imp fun d _ ha => absurd ha haj
  · obtain ⟨d, hd⟩ := hdots
    obtain ⟨hread, hdnan⟩ := hd ⟨j, hj⟩
    have hdnan := hdnan rfl
    refine DenseMatrix.mapEntries_hasNaN hrow hj fun y _ => ?_
    by_cases hhead : r = g.head
    · rw [if_pos ⟨hstart, hhead⟩, hread]
      exact isNaN_of_operand isNaN_of_sub (.inr hdnan)
    · have hlater : start ≤ j ∧ g.head < r ∧ r < g.stop := ⟨hstart, by omega, hr.2⟩
      rw [if_neg fun hand => hhead hand.2, if_pos hlater, hread]
      refine Ends.ok_bind_iff.2 (Ends.always.bind fun t _ => ?_)
      exact isNaN_of_operand isNaN_of_sub
        (.inr (isNaN_of_operand isNaN_of_mul (.inl hdnan)))

/-- A vector with a NaN is not reflected. -/
theorem Reflection.ofVector?_eq_none {vector : ℕ → Except Failure ρ} {head stop k : ℕ} {x : ρ}
    (hk : head ≤ k ∧ k < stop) (hx : vector k = .ok x) (hnan : RealScalar.isNaN x = true) :
    Ends Always (· = none) (ofVector? vector head stop) := by
  unfold ofVector?
  have hsquares : Ends Always (RealScalar.isNaN · = true) (foldPositions head stop 0 fun sum i => do
      let x ← vector i
      return sum + x * x) := by
    refine foldPositions_isNaN 0 hk (fun sum => ?_) fun sum i hsum => ?_
    · rw [hx]
      exact isNaN_of_operand isNaN_of_add (.inr (isNaN_of_operand isNaN_of_mul (.inl hnan)))
    · exact Ends.always.bind fun y _ => isNaN_of_operand isNaN_of_add (.inl hsum)
  refine hsquares.bind fun squares hsquares => ?_
  rw [if_neg (not_lt_of_isNaN hsquares)]
  exact Ends.pure_iff.2 rfl

omit [BinaryScalar ρ] in
/-- A reflection reaches over the coordinates of its vector. -/
theorem Reflection.ofVector?_reach (vector : ℕ → Except Failure ρ) (head stop : ℕ) :
    Ends Always (fun g? => ∀ g ∈ g?, g.head = head ∧ g.stop = stop)
      (ofVector? vector head stop) := by
  unfold ofVector?
  refine Ends.always.bind fun squares _ => ?_
  split_ifs
  · refine Ends.always.bind fun first _ => Ends.always.bind fun tail _ => ?_
    refine Ends.pure_iff.2 fun g hg => ?_
    obtain rfl := Option.some.inj hg
    exact ⟨rfl, rfl⟩
  · exact Ends.pure_iff.2 fun g hg => absurd hg (Option.not_mem_none g)

end Spreading

/-! ### Reduction -/

namespace SVD

namespace Bidiagonal

variable [BinaryScalar ρ] {i j : ℕ}

/-- A column is pushed onto the diagonal with the NaN that is there. -/
theorem Reduction.reflectColumn_nan (s : Reduction ρ) (k : ℕ) :
    Ends Always (fun s' => (∀ i j, s.rest.HasNaN i j → s'.rest.HasNaN i j) ∧
      s'.form.offDiag = s.form.offDiag ∧ ∃ d, s'.form.diag = s.form.diag.push d ∧
        (s.rest.HasNaN k k → RealScalar.isNaN d = true)) (s.reflectColumn k) := by
  unfold Reduction.reflectColumn
  refine Ends.always.self.bind fun reflection? hreflection => ?_
  cases reflection? with
  | some g =>
      refine Ends.always.self.bind fun rest hrest => Ends.always.bind fun u _ => ?_
      refine ⟨fun i j h => (Reflection.columns_hasNaN h g (k + 1)).of_ok hrest.1, rfl, g.image, rfl,
        fun ⟨x, hx, hnan⟩ => ?_⟩
      have hnone : Ends Always (· = none)
          (Reflection.ofVector? (fun i => s.rest.entry i k) k s.rest.nrows) :=
        Reflection.ofVector?_eq_none ⟨le_rfl, (DenseMatrix.lt_of_entry_eq_ok hx).1⟩ hx hnan
      exact absurd (hnone.of_ok hreflection.1) (Option.some_ne_none g)
  | none =>
      refine Ends.always.bind fun skipped _ => Ends.always.self.bind fun d hd => ?_
      refine ⟨fun i j h => h, rfl, d, rfl, fun ⟨x, hx, hnan⟩ => ?_⟩
      obtain rfl := Except.ok.inj (hx.symm.trans hd.1)
      exact hnan

/-- The rest of a row is pushed beside the diagonal with the NaN that is there. -/
theorem Reduction.reflectRow_nan (s : Reduction ρ) (k : ℕ) :
    Ends Always (fun s' => (∀ i j, s.rest.HasNaN i j → s'.rest.HasNaN i j) ∧
      s'.form.diag = s.form.diag ∧ ∃ e, s'.form.offDiag = s.form.offDiag.push e ∧
        (s.rest.HasNaN k (k + 1) → RealScalar.isNaN e = true)) (s.reflectRow k) := by
  unfold Reduction.reflectRow
  have hskip (h : s.rest.HasNaN k (k + 1)) : Ends Always (· = none)
      (if k + 2 < s.rest.ncols then
        Reflection.ofVector? (fun j => s.rest.entry k j) (k + 1) s.rest.ncols
      else pure none) := by
    obtain ⟨x, hx, hnan⟩ := h
    split_ifs
    · exact Reflection.ofVector?_eq_none ⟨le_rfl, (DenseMatrix.lt_of_entry_eq_ok hx).2⟩ hx hnan
    · exact Ends.pure_iff.2 rfl
  refine Ends.ite_bind Ends.always.self fun reflection? hreflection => ?_
  cases reflection? with
  | some g =>
      refine Ends.always.self.bind fun rest hrest => Ends.always.bind fun v _ => ?_
      refine ⟨fun i j h => (Reflection.rows_hasNaN h g (k + 1)).of_ok hrest.1, rfl, g.image, rfl,
        fun h => ?_⟩
      exact absurd ((hskip h).of_ok hreflection.1) (Option.some_ne_none g)
  | none =>
      refine Ends.always.bind fun skipped _ => Ends.always.self.bind fun e he => ?_
      refine ⟨fun i j h => h, rfl, e, rfl, fun ⟨x, hx, hnan⟩ => ?_⟩
      obtain rfl := Except.ok.inj (hx.symm.trans he.1)
      exact hnan

/-- **One step.** No NaN goes away, and one in row `k` on the diagonal or beside it comes
into the form. -/
theorem Reduction.step_nan (s : Reduction ρ) (k : ℕ) :
    Ends Always (fun s' => s'.rest.ncols = s.rest.ncols ∧
      (∀ i j, s.rest.HasNaN i j → s'.rest.HasNaN i j) ∧
      (s.form.hasNaN = true ∨ s.rest.HasNaN k k ∨ s.rest.HasNaN k (k + 1) →
        s'.form.hasNaN = true)) (s.step k) := by
  unfold Reduction.step
  refine ((s.reflectColumn_shape k).and (s.reflectColumn_nan k)).bind fun s₁ hs₁ => ?_
  obtain ⟨⟨hncols, -⟩, hkeeps, hoffDiag, d, hdiag, hd⟩ := hs₁
  by_cases hlast : k + 1 < s₁.rest.ncols
  · rw [if_pos hlast]
    refine ((s₁.reflectRow_shape k).and (s₁.reflectRow_nan k)).imp fun s₂ hs₂ => ?_
    obtain ⟨⟨hncols', -⟩, hkeeps', hdiag', e, hoffDiag', he⟩ := hs₂
    refine ⟨hncols'.trans hncols, fun i j h => hkeeps' i j (hkeeps i j h), fun h => ?_⟩
    simp only [Bidiagonal.hasNaN, hdiag', hdiag, hoffDiag', hoffDiag, Array.any_push,
      Bool.or_eq_true] at h ⊢
    rcases h with (h | h) | h | h
    · exact .inl (.inl h)
    · exact .inr (.inl h)
    · exact .inl (.inr (hd h))
    · exact .inr (.inr (he (hkeeps k (k + 1) h)))
  · rw [if_neg hlast]
    refine ⟨hncols, hkeeps, fun h => ?_⟩
    simp only [Bidiagonal.hasNaN, hdiag, hoffDiag, Array.any_push, Bool.or_eq_true] at h ⊢
    rcases h with (h | h) | h | ⟨x, hx, -⟩
    · exact .inl (.inl h)
    · exact .inr h
    · exact .inl (.inr (hd h))
    · -- there is no entry beside the diagonal in the last row
      exact absurd (hncols ▸ (DenseMatrix.lt_of_entry_eq_ok hx).2) hlast

/-- **A run of steps.** A NaN on the diagonal or beside it comes into the form when its row's
turn comes. -/
theorem Reduction.run_nan {s : Reduction ρ} {start stop : ℕ} (hj : j = i ∨ j = i + 1)
    (hi : start ≤ i ∧ i < stop) (h : s.rest.HasNaN i j) :
    Ends Always (·.form.hasNaN = true) ((positions start stop).foldlM Reduction.step s) := by
  refine (Ends.foldlM_positions (I := fun k s => s.rest.HasNaN i j ∧
    (i < k → s.form.hasNaN = true)) (hi.1.trans hi.2.le) ⟨h, fun hlt => absurd hi.1 (by omega)⟩
    fun k s _ _ hs => ?_).imp fun s hs => hs.2 hi.2
  refine (s.step_nan k).imp fun s' hs' => ⟨hs'.2.1 i j hs.1, fun hlt => hs'.2.2 ?_⟩
  rcases (Nat.le_of_lt_succ hlt).eq_or_lt with rfl | hlt
  · rcases hj with rfl | rfl
    · exact .inr (.inl hs.1)
    · exact .inr (.inr hs.1)
  · exact .inl (hs.2 hlt)

/-- A NaN on the band is in the form. -/
theorem ofTall_hasNaN_of_band {a : DenseMatrix ρ} (hj : j = i ∨ j = i + 1) (h : a.HasNaN i j) :
    Ends Always (·.hasNaN = true) (ofTall a) := by
  have hlt : i < a.ncols := by
    obtain ⟨x, hx, -⟩ := h
    have := (DenseMatrix.lt_of_entry_eq_ok hx).2
    omega
  unfold ofTall
  refine Ends.always.bind fun u _ => Ends.always.bind fun v _ => ?_
  exact (Reduction.run_nan hj ⟨Nat.zero_le i, hlt⟩ h).bind fun s hs => Ends.pure_iff.2 hs

/-- Where the first column is reflected, every NaN is in the form: the reflection brings it
to the diagonal. -/
theorem ofTall_hasNaN_of_reflected {a : DenseMatrix ρ} {g : Reflection ρ}
    (htall : a.ncols ≤ a.nrows)
    (hg : Reflection.ofVector? (fun i => a.entry i 0) 0 a.nrows = .ok (some g))
    (h : a.HasNaN i j) : Ends Always (·.hasNaN = true) (ofTall a) := by
  obtain ⟨x, hx, hnan⟩ := h
  obtain ⟨hi, hj⟩ := DenseMatrix.lt_of_entry_eq_ok hx
  obtain ⟨hhead, hstop⟩ := (Reflection.ofVector?_reach _ _ _).of_ok hg g rfl
  -- the first column itself has no NaN
  have hpos : 1 ≤ j := by
    by_contra hj0
    obtain rfl : j = 0 := by omega
    have hnone : Ends Always (· = none)
        (Reflection.ofVector? (fun i => a.entry i 0) 0 a.nrows) :=
      Reflection.ofVector?_eq_none ⟨Nat.zero_le i, hi⟩ hx hnan
    exact absurd (hnone.of_ok hg) (Option.some_ne_none g)
  have hspread : Ends Always (·.HasNaN j j) (g.columns a (0 + 1)) :=
    Reflection.columns_spreads ⟨x, hx, hnan⟩ hpos ⟨hhead.le.trans i.zero_le, hstop.symm ▸ hi⟩
      ⟨hhead.le.trans j.zero_le, hstop.symm ▸ hj.trans_le htall⟩ (hj.trans_le htall)
  have hfirst (form : Bidiagonal ρ) :
      Ends Always (fun s' => s'.rest.HasNaN j j) (Reduction.step ⟨a, form⟩ 0) := by
    have hcolumn : Ends Always (fun s' => s'.rest.HasNaN j j)
        (Reduction.reflectColumn ⟨a, form⟩ 0) := by
      unfold Reduction.reflectColumn
      refine Ends.always.self.bind fun reflection? hreflection => ?_
      obtain rfl := Except.ok.inj (hg.symm.trans hreflection.1)
      exact hspread.bind fun rest hrest => Ends.always.bind fun u _ => hrest
    unfold Reduction.step
    refine hcolumn.bind fun s₁ hs₁ => ?_
    split_ifs
    · exact (s₁.reflectRow_nan 0).imp fun s₂ hs₂ => hs₂.1 j j hs₁
    · exact hs₁
  have hcons : positions 0 a.ncols = 0 :: positions 1 a.ncols := by
    obtain ⟨n, hn⟩ := Nat.exists_eq_add_of_lt (hpos.trans_lt hj)
    rw [hn]
    simp [positions, List.range'_succ]
  have hrun (form : Bidiagonal ρ) : Ends Always (·.form.hasNaN = true)
      ((positions 0 a.ncols).foldlM Reduction.step ⟨a, form⟩) := by
    rw [hcons, List.foldlM_cons]
    exact (hfirst form).bind fun s hs => Reduction.run_nan (.inl rfl) ⟨hpos, hj⟩ hs
  unfold ofTall
  refine Ends.always.bind fun u _ => Ends.always.bind fun v _ => ?_
  exact (hrun _).bind fun s hs => Ends.pure_iff.2 hs

end Bidiagonal

/-- A form of one entry is returned at once, up to its sign. -/
theorem Bidiagonal.diagonalize_of_single {b : Bidiagonal ρ} (hsize : b.diag.size = 1)
    (budget : ℕ) : b.diagonalize budget =
      (positions 0 1).foldlM makeNonNegative b >>= (positions 0 1).foldlM selectLargest := by
  unfold diagonalize
  rw [hsize, iterate_zero, pure_bind, hsize]

/-- A form of two entries with nothing but a negligible entry between them is split at once. -/
theorem Bidiagonal.diagonalize_of_pair {b : Bidiagonal ρ} (hsize : b.diag.size = 2)
    (hnegligible : b.isNegligible 0 = .ok true) (budget : ℕ) : b.diagonalize budget =
      b.split 0 >>= fun b' => (positions 0 b'.diag.size).foldlM makeNonNegative b' >>=
        (positions 0 b'.diag.size).foldlM selectLargest := by
  unfold diagonalize
  rw [hsize, iterate_of_negligible _ _ hnegligible]
  simp only [iterate_zero, bind_pure]

/-! ### Singular values -/

/-- Every singular value is a NaN. -/
def AllNaN (values : Array ρ) : Prop := ∀ x ∈ values, RealScalar.isNaN x = true

/-- The matrix that is reduced: the transpose of a wide matrix, any other as it is. -/
def upright (a : DenseMatrix ρ) : Except Failure (DenseMatrix ρ) :=
  if a.ncols ≤ a.nrows then pure a else a.transpose

/-- The entries of an `m x n` matrix that the reduction reads into its form if nothing is
reflected before. -/
def OnBand (m n i j : ℕ) : Prop :=
  if n ≤ m then j = i ∨ j = i + 1 else i = j ∨ i = j + 1

instance {m n i j : ℕ} : Decidable (OnBand m n i j) :=
  inferInstanceAs (Decidable (if n ≤ m then j = i ∨ j = i + 1 else i = j ∨ i = j + 1))

section Shown

variable [BinaryScalar ρ] {m n : ℕ}

theorem scaledDown_hasNaN {a : DenseMatrix ρ} {i j : ℕ} (h : a.HasNaN i j) (scale? : Option ρ) :
    (scaledDown a scale?).HasNaN i j := by
  cases scale? with
  | none => exact h
  | some scale =>
      obtain ⟨x, hx, hnan⟩ := h
      obtain ⟨hi, hj⟩ := DenseMatrix.lt_of_entry_eq_ok hx
      refine ⟨x / scale, ?_, isNaN_of_operand isNaN_of_div (.inl hnan)⟩
      have hentry : (scaledDown a (some scale)).entry i j =
          Storage.read (a.data.map (· / scale)) (i * a.ncols + j) :=
        DenseMatrix.entry_eq_storedAt hi hj
      rw [DenseMatrix.entry_eq_storedAt hi hj] at hx
      unfold DenseMatrix.storedAt Storage.read at hx
      rw [hentry, Storage.read, Array.getElem?_map]
      cases hget : a.data[i * a.ncols + j]? with
      | none => simp [hget] at hx
      | some y =>
          rw [hget] at hx
          obtain rfl := Except.ok.inj hx
          rfl

/-- The values of a decomposition are all NaN if its form has one. -/
theorem factorize_allNaN {a : DenseMatrix ρ}
    (h : Ends Always (fun w => Ends Always (·.hasNaN = true)
      (Bidiagonal.ofTall (scaledDown w (scale? w)))) (upright a)) :
    Ends Always (fun f => AllNaN f.values) (factorize a) := by
  have htall {w : DenseMatrix ρ} (hw : Ends Always (·.hasNaN = true)
      (Bidiagonal.ofTall (scaledDown w (scale? w)))) :
      Ends Always (fun f => AllNaN f.values) (ofTall w) := by
    unfold ofTall
    refine hw.bind fun b hb => ?_
    rw [if_pos hb]
    refine Ends.ok_bind_iff.2 (Ends.always.bind fun u _ => Ends.pure_iff.2 fun x hx => ?_)
    obtain ⟨d, -, rfl⟩ := Array.mem_map.1 hx
    exact isNaN_nan
  unfold factorize
  unfold upright at h
  split_ifs at h ⊢
  · exact htall h
  · exact h.bind fun w hw => (htall hw).bind fun f hf => hf

omit [BinaryScalar ρ] in
/-- A NaN is still there when the matrix is upright, and on the band of that if it was on
the band. -/
theorem upright_nan {a : DenseMatrix ρ} {A : Matrix (Fin m) (Fin n) ρ} (ha : a.Stores A)
    {i : Fin m} {j : Fin n} (hnan : RealScalar.isNaN (A i j) = true) :
    Ends Always (fun w => w.ncols ≤ w.nrows ∧ ∃ i' j', w.HasNaN i' j' ∧
      (OnBand m n i j → j' = i' ∨ j' = i' + 1)) (upright a) := by
  unfold upright
  rw [ha.nrows, ha.ncols]
  by_cases htall : n ≤ m
  · rw [if_pos htall]
    refine Ends.pure_iff.2 ⟨?_, i, j, ⟨_, ha.entry i j, hnan⟩, fun h => ?_⟩
    · rw [ha.nrows, ha.ncols]
      exact htall
    · rwa [OnBand, if_pos htall] at h
  · rw [if_neg htall]
    refine ha.transpose.imp fun w hw => ⟨?_, j, i, ⟨_, hw.entry j i, hnan⟩, fun h => ?_⟩
    · rw [hw.nrows, hw.ncols]
      exact (not_le.1 htall).le
    · rwa [OnBand, if_neg htall] at h

end Shown

/-! ### Where nothing is reflected -/

/-- A matrix with zeros on the diagonal and beside it, and zeros or NaNs everywhere else. -/
structure Blank {m n : ℕ} (A : Matrix (Fin m) (Fin n) ρ) : Prop where
  entry (i : Fin m) (j : Fin n) : A i j = 0 ∨ RealScalar.isNaN (A i j) = true
  band (i : Fin m) (j : Fin n) (h : (j : ℕ) = i ∨ (j : ℕ) = i + 1) : A i j = 0

/-- A form of zeros, with a given left transformation. -/
structure Vanishes (p q : ℕ) (u : DenseMatrix ρ) (b : Bidiagonal ρ) : Prop where
  diag : b.diag = Array.replicate p 0
  offDiag : b.offDiag = Array.replicate q 0
  u : b.u = u

section Hidden

variable [BinaryScalar ρ] [ZeroArithmetic ρ] {m n p q : ℕ} {A : Matrix (Fin m) (Fin n) ρ}
  {a u : DenseMatrix ρ}

/-- The largest modulus passes over a NaN, so nothing is divided. -/
theorem scale?_eq_none (ha : a.Stores A) (hA : Blank A) : scale? a = none := by
  have hmaximum {x : ρ} (hx : x = 0 ∨ RealScalar.isNaN x = true) :
      RealScalar.maximum 0 (RealScalar.abs x) = 0 := by
    rcases hx with rfl | hnan
    · rw [ZeroArithmetic.abs_zero, RealScalar.maximum, isNaN_zero]
      simp
    · have habs : RealScalar.isNaN (RealScalar.abs x) = true :=
        isNaN_of_operand (y := x) (fun h => ⟨isNaN_of_abs h, isNaN_of_abs h⟩) (.inl hnan)
      rw [RealScalar.maximum, isNaN_zero, habs]
      simp
  have hfold (xs : List ρ) (hxs : ∀ x ∈ xs, x = 0 ∨ RealScalar.isNaN x = true) :
      (xs.map RealScalar.abs).foldl RealScalar.maximum 0 = 0 := by
    induction xs with
    | nil => rfl
    | cons x xs ih =>
        rw [List.map_cons, List.foldl_cons, hmaximum (hxs x List.mem_cons_self)]
        exact ih fun y hy => hxs y (List.mem_cons_of_mem x hy)
  have hlargest : a.maxModulus = 0 := by
    refine hfold _ fun x hx => ?_
    obtain ⟨i, j, rfl⟩ := ha.exists_of_mem (Array.mem_toList_iff.1 hx)
    exact hA.entry i j
  have hpos : ¬ (0 : ρ) < 0 := fun h => lt_irrefl _ (lt_iff_place.1 h).2
  rw [scale?, hlargest]
  simp [hpos]

/-- A vector of zeros and NaNs is not reflected. -/
theorem ofVector?_of_blank {vector : ℕ → Except Failure ρ} {head stop : ℕ} (hle : head ≤ stop)
    (h : ∀ k, head ≤ k → k < stop → ∃ x, vector k = .ok x ∧ (x = 0 ∨ RealScalar.isNaN x = true)) :
    Ends Never (· = none) (Reflection.ofVector? vector head stop) := by
  unfold Reflection.ofVector?
  refine (Ends.foldPositions (I := fun _ sum => sum = 0 ∨ RealScalar.isNaN sum = true) hle
    (.inl rfl) fun k sum hk hk' hsum => ?_).bind fun squares hsquares => ?_
  · obtain ⟨x, hx, hblank⟩ := h k hk hk'
    rw [hx]
    refine Ends.ok_bind_iff.2 (Ends.pure_iff.2 ?_)
    rcases hsum with rfl | hsum
    · rcases hblank with rfl | hnan
      · exact .inl ZeroArithmetic.add_square
      · exact .inr (isNaN_of_operand isNaN_of_add
          (.inr (isNaN_of_operand isNaN_of_mul (.inl hnan))))
    · exact .inr (isNaN_of_operand isNaN_of_add (.inl hsum))
  · have hshort : ¬ RealScalar.minPositive < squares := by
      rcases hsquares with rfl | hnan
      · exact ZeroArithmetic.not_minPositive_lt
      · exact not_lt_of_isNaN hnan
    rw [if_neg hshort]
    exact Ends.pure_iff.2 rfl

namespace Bidiagonal

omit [BinaryScalar ρ] [ZeroArithmetic ρ] in
/-- What is skipped can be summed, whatever it is. -/
theorem absoluteSum_returns {vector : ℕ → Except Failure ρ} {start stop : ℕ}
    (h : ∀ k < stop, ∃ x, vector k = .ok x) :
    Ends Never (fun _ => True) (absoluteSum vector start stop) := by
  unfold absoluteSum
  rcases le_total start stop with hle | hle
  · refine Ends.foldPositions (I := fun _ _ => True) hle trivial fun k sum _ hk _ => ?_
    obtain ⟨x, hx⟩ := h k hk
    rw [hx]
    exact trivial
  · rw [foldPositions, positions, Nat.sub_eq_zero_of_le hle]
    exact Ends.pure_iff.2 trivial

/-- Nothing is reflected in a blank matrix, and its band is pushed into the form. -/
theorem Reduction.step_of_blank (ha : a.Stores A) (hA : Blank A) (htall : n ≤ m)
    {s : Reduction ρ} {k : ℕ} (hk : k < n)
    (hs : s.rest = a ∧ Vanishes k (min k (n - 1)) u s.form) :
    Ends Never (fun s' => s'.rest = a ∧ Vanishes (k + 1) (min (k + 1) (n - 1)) u s'.form)
      (s.step k) := by
  obtain ⟨rest, form⟩ := s
  obtain ⟨rfl, hform⟩ := hs
  have hcolumn (i : ℕ) (hi : i < rest.nrows) :
      ∃ x, rest.entry i k = .ok x ∧ (x = 0 ∨ RealScalar.isNaN x = true) :=
    ⟨_, ha.entry ⟨i, ha.nrows ▸ hi⟩ ⟨k, hk⟩, hA.entry _ _⟩
  have hrow (j : ℕ) (hj : j < rest.ncols) :
      ∃ x, rest.entry k j = .ok x ∧ (x = 0 ∨ RealScalar.isNaN x = true) :=
    ⟨_, ha.entry ⟨k, hk.trans_le htall⟩ ⟨j, ha.ncols ▸ hj⟩, hA.entry _ _⟩
  have hband (j : ℕ) (hj : j < n) (h : j = k ∨ j = k + 1) : rest.entry k j = .ok 0 := by
    have hentry := ha.entry ⟨k, hk.trans_le htall⟩ ⟨j, hj⟩
    rwa [hA.band _ _ h] at hentry
  have hpush : Ends Never (fun s' => s'.rest = rest ∧
      Vanishes (k + 1) (min k (n - 1)) u s'.form) (Reduction.reflectColumn ⟨rest, form⟩ k) := by
    unfold Reduction.reflectColumn
    refine (ofVector?_of_blank (ha.nrows ▸ hk.le.trans htall) fun i _ hi => hcolumn i hi).bind ?_
    intro _ hnone
    subst hnone
    refine (absoluteSum_returns fun i hi => (hcolumn i hi).imp fun _ h => h.1).bind fun _ _ => ?_
    simp only [hband k hk (.inl rfl)]
    refine Ends.ok_bind_iff.2 (Ends.pure_iff.2 ⟨rfl, ?_, hform.offDiag, hform.u⟩)
    rw [hform.diag, Array.replicate_succ]
  unfold Reduction.step
  refine hpush.bind fun s₁ hs₁ => ?_
  obtain ⟨rest₁, form₁⟩ := s₁
  obtain ⟨rfl, hform₁⟩ := hs₁
  by_cases hlast : k + 1 < rest₁.ncols
  · have hlast' : k + 1 < n := ha.ncols ▸ hlast
    rw [if_pos hlast]
    unfold Reduction.reflectRow
    have hnone : Ends Never (· = none) (if k + 2 < rest₁.ncols then
        Reflection.ofVector? (fun j => rest₁.entry k j) (k + 1) rest₁.ncols else pure none) := by
      split_ifs
      · exact ofVector?_of_blank hlast.le fun j _ hj => hrow j hj
      · exact Ends.pure_iff.2 rfl
    refine Ends.ite_bind hnone ?_
    intro _ hnone
    subst hnone
    refine (absoluteSum_returns fun j hj => (hrow j hj).imp fun _ h => h.1).bind fun _ _ => ?_
    simp only [hband (k + 1) hlast' (.inr rfl)]
    refine Ends.ok_bind_iff.2 (Ends.pure_iff.2 ⟨rfl, hform₁.diag, ?_, hform₁.u⟩)
    have hcount : min (k + 1) (n - 1) = min k (n - 1) + 1 := by omega
    rw [hform₁.offDiag, ← Array.replicate_succ, hcount]
  · have hlast' : ¬ k + 1 < n := ha.ncols ▸ hlast
    rw [if_neg hlast]
    refine Ends.pure_iff.2 ⟨rfl, hform₁.diag, ?_, hform₁.u⟩
    have hcount : min (k + 1) (n - 1) = min k (n - 1) := by omega
    rw [hform₁.offDiag, hcount]

/-- The form of a blank matrix vanishes, and its left transformation is the identity. -/
theorem ofTall_of_blank (ha : a.Stores A) (hA : Blank A) (htall : n ≤ m) :
    Ends Never (fun b => ∃ (u : DenseMatrix ρ) (U : Matrix (Fin m) (Fin m) ρ), u.Stores U ∧
      Vanishes n (n - 1) u b) (ofTall a) := by
  have hidentity (k : ℕ) : Ends Never (fun u : DenseMatrix ρ => ∃ U : Matrix (Fin k) (Fin k) ρ,
      u.Stores U) (DenseMatrix.identity k) := by
    unfold DenseMatrix.identity
    refine (Ends.tabulate_of_ok (M := Matrix.of fun i j => if (i : ℕ) = j then 1 else 0)
      fun i j => rfl).imp fun u hu => ⟨_, hu⟩
  unfold ofTall
  rw [ha.nrows, ha.ncols]
  refine (hidentity m).bind fun u hu => (hidentity n).bind fun v _ => ?_
  obtain ⟨U, hU⟩ := hu
  refine (Ends.foldlM_positions (I := fun k s => s.rest = a ∧
    Vanishes k (min k (n - 1)) u s.form) n.zero_le ⟨rfl, rfl, by simp, rfl⟩
    fun k s _ hk hs => Reduction.step_of_blank ha hA htall hk hs).bind fun s hs => ?_
  have hmin : min n (n - 1) = n - 1 := min_eq_right (Nat.sub_le n 1)
  exact Ends.pure_iff.2 ⟨u, U, hU, hmin ▸ hs.2⟩

omit [BinaryScalar ρ] in
/-- The iteration splits a vanishing form entry by entry, without a pass. -/
theorem iterate_of_vanishes {b : Bidiagonal ρ} (small : ρ) (budget : ℕ) {hi : ℕ} (hp : hi < p)
    (hq : hi ≤ q) (h : Vanishes p q u b) :
    Ends Never (Vanishes p q u) (iterate small b budget hi) := by
  induction hi generalizing b with
  | zero =>
      rw [iterate_zero]
      exact h
  | succ last ih =>
      have hbeside : Storage.read b.offDiag last = .ok 0 := by
        rw [h.offDiag, Storage.read_of_lt (by simpa using hq), Array.getElem_replicate]
      have hread {i : ℕ} (hi : i < p) : Storage.read b.diag i = .ok 0 := by
        rw [h.diag, Storage.read_of_lt (by simpa using hi), Array.getElem_replicate]
      have hnegligible : b.isNegligible last = .ok true := by
        unfold isNegligible
        rw [hbeside, hread (Nat.lt_of_succ_lt hp), hread hp]
        refine congrArg Except.ok (decide_eq_true ?_)
        rw [ZeroArithmetic.abs_zero]
        exact ZeroArithmetic.negligible
      have hsplit : Ends Never (Vanishes p q u) (b.split last) := by
        unfold split
        have hlt : last < b.offDiag.size := by
          rw [h.offDiag, Array.size_replicate]
          exact hq
        rw [hbeside, Storage.write_of_lt hlt]
        refine Ends.ok_bind_iff.2 (Ends.ok_bind_iff.2 (Ends.pure_iff.2 ⟨h.diag, ?_, h.u⟩))
        simp only [h.offDiag, Array.set_replicate_self]
      rw [iterate_of_negligible small budget hnegligible]
      exact hsplit.bind fun b' hb' => ih (Nat.lt_of_succ_lt hp) (Nat.le_of_succ_le hq) hb'

/-- A vanishing form is diagonal already, with its entries in order. -/
theorem diagonalize_of_vanishes {b : Bidiagonal ρ} (hp : 0 < p) (h : Vanishes p (p - 1) u b)
    (budget : ℕ) : Ends Never (Vanishes p (p - 1) u) (b.diagonalize budget) := by
  have hnot : ¬ (0 : ρ) < 0 := fun h => lt_irrefl _ (lt_iff_place.1 h).2
  have hsize {b : Bidiagonal ρ} (hb : Vanishes p (p - 1) u b) : b.diag.size = p := by
    rw [hb.diag, Array.size_replicate]
  have hread {b : Bidiagonal ρ} (hb : Vanishes p (p - 1) u b) {i : ℕ} (hi : i < p) :
      Storage.read b.diag i = .ok 0 := by
    rw [hb.diag, Storage.read_of_lt (by simpa using hi), Array.getElem_replicate]
  unfold diagonalize
  rw [hsize h]
  refine (iterate_of_vanishes _ budget (Nat.sub_lt hp Nat.one_pos) le_rfl h).bind fun b₁ hb₁ => ?_
  rw [hsize hb₁]
  refine (Ends.foldlM_positions (I := fun _ b => Vanishes p (p - 1) u b) p.zero_le hb₁
    fun i b _ hi hb => ?_).bind fun b₂ hb₂ => ?_
  · unfold makeNonNegative
    rw [hread hb hi]
    refine Ends.ok_bind_iff.2 ?_
    rw [if_neg hnot]
    exact hb
  refine Ends.foldlM_positions (I := fun _ b => Vanishes p (p - 1) u b) p.zero_le hb₂
    fun i b _ hi hb => ?_
  unfold selectLargest
  rw [hsize hb]
  refine (Ends.foldPositions (I := fun _ best => best = i) (Nat.succ_le_of_lt hi) rfl
    fun j best _ hj hbest => ?_).bind fun best hbest => ?_
  · rw [hbest, hread hb hi, hread hb hj]
    refine Ends.ok_bind_iff.2 (Ends.ok_bind_iff.2 (Ends.pure_iff.2 ?_))
    exact if_neg hnot
  · rw [if_pos hbest]
    exact hb

end Bidiagonal

/-- The singular values of a blank matrix are zeros. -/
theorem ofTall_of_blank (ha : a.Stores A) (hA : Blank A) (hn : 0 < n) (htall : n ≤ m) :
    Ends Never (fun f => f.values = Array.replicate n 0) (ofTall a) := by
  unfold ofTall
  rw [scale?_eq_none ha hA, ha.nrows, ha.ncols]
  refine (Bidiagonal.ofTall_of_blank ha hA htall).bind fun b ⟨u, U, hU, hb⟩ => ?_
  have hnumbers : ¬ Bidiagonal.hasNaN b = true := by
    have hzeros (k : ℕ) : (Array.replicate k (0 : ρ)).any RealScalar.isNaN = false := by
      rw [Array.any_replicate, isNaN_zero, ite_self]
    rw [Bidiagonal.hasNaN, hb.diag, hb.offDiag, hzeros, hzeros]
    exact Bool.false_ne_true
  rw [if_neg hnumbers]
  refine (Bidiagonal.diagonalize_of_vanishes hn hb _).bind fun form hform => ?_
  refine Ends.ok_bind_iff.2 ?_
  have hentry (i : Fin m) (j : Fin n) : form.u.entry i j = .ok (U i (Fin.castLE htall j)) := by
    rw [hform.u]
    exact hU.entry i (Fin.castLE htall j)
  refine (Ends.tabulate_of_ok (M := Matrix.of fun i j => U i (Fin.castLE htall j)) hentry).bind
    fun u' _ => Ends.pure_iff.2 ?_
  rw [hform.diag]
  rfl

/-- The singular values of a matrix that is blank when upright are zeros. -/
theorem of_blank (hm : 0 < m) (hn : 0 < n) (htall : n ≤ m → Blank A)
    (hwide : ¬ n ≤ m → Blank A.transpose) :
    Ends Never (fun s => s.values = Array.replicate (min m n) 0)
      (SVD.of (MatrixView.ofMatrix A)) := by
  unfold SVD.of ofTolerance?
  refine (MatrixView.ofMatrix_shows A).ofView.bind fun a ha => ?_
  have hfactors : Ends Never (fun f => f.values = Array.replicate (min m n) 0) (factorize a) := by
    unfold factorize
    rw [ha.nrows, ha.ncols]
    by_cases hle : n ≤ m
    · rw [if_pos hle, min_eq_right hle]
      exact ofTall_of_blank ha (htall hle) hn hle
    · have hle' : m ≤ n := (not_le.1 hle).le
      rw [if_neg hle, min_eq_left hle']
      refine ha.transpose.bind fun w hw => ?_
      exact (ofTall_of_blank hw (hwide hle) hm hle').bind fun f hf => Ends.pure_iff.2 hf
  exact hfactors.bind fun f hf => Ends.pure_iff.2 hf

/-- The matrix with a NaN at one place and zeros everywhere else. -/
def lone (i : Fin m) (j : Fin n) : Matrix (Fin m) (Fin n) ρ :=
  Matrix.of fun a b => if a = i ∧ b = j then RealScalar.nan else 0

omit [ZeroArithmetic ρ] in
theorem lone_blank {i : Fin m} {j : Fin n} (h : ¬ ((j : ℕ) = i ∨ (j : ℕ) = i + 1)) :
    Blank (lone i j : Matrix (Fin m) (Fin n) ρ) where
  entry a b := by
    by_cases hab : a = i ∧ b = j
    · exact .inr ((congrArg RealScalar.isNaN (if_pos hab)).trans isNaN_nan)
    · exact .inl (if_neg hab)
  band a b hband := by
    refine if_neg fun hab => h ?_
    rwa [hab.1, hab.2] at hband

/-- A NaN off the band, with zeros everywhere else, is hidden. -/
theorem of_lone {i : Fin m} {j : Fin n} (h : ¬ OnBand m n i j) :
    Ends Never (fun s => s.values = Array.replicate (min m n) 0)
      (SVD.of (MatrixView.ofMatrix (lone i j : Matrix (Fin m) (Fin n) ρ))) := by
  unfold OnBand at h
  refine of_blank (Nat.zero_lt_of_lt i.isLt) (Nat.zero_lt_of_lt j.isLt) (fun htall => ?_)
    fun hwide => ?_
  · rw [if_pos htall] at h
    exact lone_blank h
  · have htranspose : (lone i j : Matrix (Fin m) (Fin n) ρ).transpose = lone j i := by
      ext b c
      simp [lone, and_comm]
    rw [if_neg hwide] at h
    rw [htranspose]
    exact lone_blank h

end Hidden

/-! ### Matrices -/

/-- Whether a NaN at a place of a matrix shows in the singular values. -/
structure NaNVisibility (ρ : Type) [RealScalar ρ] {m n : ℕ} (i : Fin m) (j : Fin n) : Prop where
  /-- On the band it makes all singular values NaN. -/
  shown (hband : OnBand m n i j) (a : MatrixView ρ) (A : Matrix (Fin m) (Fin n) ρ)
    (ha : a.Shows A) (hnan : RealScalar.isNaN (A i j) = true) (s : SVD ρ)
    (hs : SVD.of a = .ok s) : AllNaN s.values
  /-- Everywhere else there is a matrix of its shape that hides it: the decomposition
  succeeds, and the singular values are zeros. -/
  hidden (hband : ¬ OnBand m n i j) :
    ∃ (a : MatrixView ρ) (A : Matrix (Fin m) (Fin n) ρ) (s : SVD ρ), a.Shows A ∧
      RealScalar.isNaN (A i j) = true ∧ SVD.of a = .ok s ∧
      s.values = Array.replicate (min m n) 0
  /-- It shows wherever it is, if the first column of the upright and scaled matrix is
  reflected. -/
  reflected (a : MatrixView ρ) (A : Matrix (Fin m) (Fin n) ρ) (ha : a.Shows A)
    (hnan : RealScalar.isNaN (A i j) = true) (dense w : DenseMatrix ρ) (g : Reflection ρ)
    (hdense : DenseMatrix.ofView a = .ok dense) (hw : upright dense = .ok w)
    (hg : Reflection.ofVector? (fun i => (scaledDown w (scale? w)).entry i 0) 0 w.nrows =
      .ok (some g))
    (s : SVD ρ) (hs : SVD.of a = .ok s) : AllNaN s.values

theorem nanVisibility_of_binary [BinaryScalar ρ] [ZeroArithmetic ρ] {m n : ℕ} (i : Fin m)
    (j : Fin n) : NaNVisibility ρ i j where
  shown hband a A ha hnan s hs := by
    obtain ⟨dense, f, hdense, hf, -, -, hvalues⟩ := of_eq_ok hs
    have hstores := (ha.ofView (E := Always)).of_ok hdense
    rw [hvalues]
    refine (factorize_allNaN ?_).of_ok hf
    refine (upright_nan hstores hnan).imp fun w ⟨_, i', j', hw, hband'⟩ => ?_
    exact Bidiagonal.ofTall_hasNaN_of_band (hband' hband) (scaledDown_hasNaN hw _)
  hidden hband := by
    obtain ⟨s, hs, hvalues⟩ := Ends.never_iff.1 (of_lone (ρ := ρ) hband)
    refine ⟨_, _, s, MatrixView.ofMatrix_shows _, ?_, hs, hvalues⟩
    exact (congrArg RealScalar.isNaN (if_pos ⟨rfl, rfl⟩)).trans isNaN_nan
  reflected a A ha hnan dense w g hdense hw hg s hs := by
    obtain ⟨dense', f, hdense', hf, -, -, hvalues⟩ := of_eq_ok hs
    obtain rfl := Except.ok.inj (hdense.symm.trans hdense')
    have hstores := (ha.ofView (E := Always)).of_ok hdense
    rw [hvalues]
    refine (factorize_allNaN ?_).of_ok hf
    obtain ⟨htall, i', j', hnan', -⟩ := (upright_nan hstores hnan).of_ok hw
    have hshape (scale? : Option ρ) : (scaledDown w scale?).ncols = w.ncols ∧
        (scaledDown w scale?).nrows = w.nrows := by
      cases scale? <;> exact ⟨rfl, rfl⟩
    rw [hw]
    refine Ends.ok_iff.2 (Bidiagonal.ofTall_hasNaN_of_reflected (g := g) ?_ ?_
      (scaledDown_hasNaN hnan' (scale? w)))
    · rw [(hshape _).1, (hshape _).2]
      exact htall
    · rw [(hshape _).2]
      exact hg

/-- **Where a NaN of a matrix shows.** In a matrix of binary64 or binary32 numbers of any
shape, a NaN on the diagonal or right of it (below it, if the matrix is wide) makes all
singular values NaN, and so does any NaN at all if the first column is reflected. At every
other place a NaN can be hidden: some matrix with a NaN there has zeros for its singular
values. -/
theorem nan_visibility {m n : ℕ} (i : Fin m) (j : Fin n) :
    NaNVisibility Float i j ∧ NaNVisibility Float32 i j :=
  ⟨nanVisibility_of_binary i j, nanVisibility_of_binary i j⟩

/-- A square of NaNs, a NaN that the reflection of the first column brings into the form,
and a row that hides the NaN at its end. -/
theorem nan_visibility_square_tall_and_row :
    let square : DenseMatrix Float := ⟨2, 2, Array.replicate 4 RealScalar.nan⟩
    let tall : DenseMatrix Float32 := ⟨3, 2, #[1, 0, 1, 0, 0, RealScalar.nan]⟩
    (∃ s : SVD Float, SVD.of square.view = .ok s ∧ AllNaN s.values) ∧
    (∃ s : SVD Float32, SVD.of tall.view = .ok s ∧ AllNaN s.values) ∧
    ∃ (row : MatrixView Float) (A : Matrix (Fin 1) (Fin 2) Float) (s : SVD Float), row.Shows A ∧
      RealScalar.isNaN (A 0 1) = true ∧ SVD.of row = .ok s ∧ s.values = #[0] := by
  intro square tall
  refine ⟨?_, ?_, (nan_visibility 0 1).1.hidden (by decide)⟩
  · have hwf : square.WellFormed := rfl
    obtain ⟨A, hA⟩ : ∃ A : Matrix (Fin 2) (Fin 2) Float, square.Stores A := hwf.exists_stores
    have hrun : Ends Never (fun _ => True) (SVD.of square.view) := by decide +kernel
    have hnan : Ends Never (RealScalar.isNaN · = true) (square.entry 0 0) := by decide +kernel
    obtain ⟨s, hs, -⟩ := Ends.never_iff.1 hrun
    exact ⟨s, hs, (nan_visibility 0 0).1.shown (by decide) _ A hA.view
      (hnan.of_ok (hA.entry 0 0)) s hs⟩
  · have hwf : tall.WellFormed := rfl
    obtain ⟨A, hA⟩ : ∃ A : Matrix (Fin 3) (Fin 2) Float32, tall.Stores A := hwf.exists_stores
    have hrun : Ends Never (fun _ => True) (SVD.of tall.view) := by decide +kernel
    have hnan : Ends Never (RealScalar.isNaN · = true) (tall.entry 2 1) := by decide +kernel
    have hreflected : Ends Never (fun dense => Ends Never (fun w => Ends Never
        (fun g? => g?.isSome = true) (Reflection.ofVector?
          (fun i => (scaledDown w (scale? w)).entry i 0) 0 w.nrows)) (upright dense))
        (DenseMatrix.ofView tall.view) := by
      decide +kernel
    obtain ⟨s, hs, -⟩ := Ends.never_iff.1 hrun
    obtain ⟨dense, hdense, hupright⟩ := Ends.never_iff.1 hreflected
    obtain ⟨w, hw, hvector⟩ := Ends.never_iff.1 hupright
    obtain ⟨g?, hg, hsome⟩ := Ends.never_iff.1 hvector
    obtain ⟨g, rfl⟩ := Option.isSome_iff_exists.1 hsome
    exact ⟨s, hs, (nan_visibility 2 1).2.reflected _ A hA.view (hnan.of_ok (hA.entry 2 1))
      dense w g hdense hw hg s hs⟩

/-- A NaN below the first entry of a column is hidden: the singular value is finite. -/
theorem column_hides_nan :
    let column : DenseMatrix Float := ⟨2, 1, #[1, RealScalar.nan]⟩
    Ends Never (RealScalar.isNaN · = true) (column.entry 1 0) ∧
      Ends Never (fun s => s.values.size = 1 ∧ s.values.all RealScalar.isFinite = true)
        (SVD.of column.view) := by
  intro column
  refine ⟨by decide +kernel, ?_⟩
  -- the iteration does not reduce, but a form of one entry is returned at once
  have hrun : Ends Never (fun dense => dense.ncols ≤ dense.nrows ∧
      Ends Never (fun b => (¬ b.hasNaN = true) ∧ b.diag.size = 1 ∧
        Ends Never (fun form => ((scaledUp form.diag (scale? dense)).size = 1 ∧
            (scaledUp form.diag (scale? dense)).all RealScalar.isFinite = true) ∧
            Ends Never (fun _ => True)
              (DenseMatrix.tabulate dense.nrows dense.ncols form.u.entry))
          ((positions 0 1).foldlM Bidiagonal.makeNonNegative b >>=
            (positions 0 1).foldlM Bidiagonal.selectLargest))
        (Bidiagonal.ofTall (scaledDown dense (scale? dense))))
      (DenseMatrix.ofView column.view) := by
    decide +kernel
  unfold SVD.of ofTolerance?
  refine hrun.bind fun dense ⟨htall, hreduction⟩ => ?_
  have hfactors : Ends Never (fun f => f.values.size = 1 ∧
      f.values.all RealScalar.isFinite = true) (factorize dense) := by
    unfold factorize SVD.ofTall
    rw [if_pos htall]
    refine hreduction.bind fun b ⟨hnan, hsize, hrest⟩ => ?_
    rw [if_neg hnan, Bidiagonal.diagonalize_of_single hsize]
    exact hrest.bind fun form ⟨hvalues, hu⟩ => hu.bind fun u _ => hvalues
  exact hfactors.bind fun f hf => hf

end SVD

end DenseFactor
