import Mathlib
import DenseFactor.SVD.Basic
import DenseFactor.Proofs.Order
import DenseFactor.Proofs.Scalar.Binary
import DenseFactor.Proofs.SVD.Factorization

/-!
# DenseFactor.Proofs.SVD.Values

The singular values of rounded arithmetic: **not negative and in descending order, or all
NaN**, whatever the matrix holds.

Design points:

* Nothing is assumed of the matrix, so nothing is known of a sum or a product on the way.
  What is known comes from comparisons that held: they have no NaN on either side.
* Every row is passed by a test for a negligible entry that held, and the test has both
  neighbours on the diagonal in it. `Finished hi` collects this for the rows after `hi`; a
  pass over the rows up to `hi` leaves them alone.
* Only what is returned matters, so failures are all allowed here and no position has to be
  in bounds.
-/

namespace DenseFactor

/-- A run that is as before from position `k` on. -/
def KeepsFrom {α : Type} (k : ℕ) (xs ys : Array α) : Prop :=
  ∀ i, k ≤ i → ys[i]? = xs[i]?

namespace KeepsFrom

variable {α : Type} {k l : ℕ} {xs ys : Array α}

theorem refl (k : ℕ) (xs : Array α) : KeepsFrom k xs xs := fun _ _ => rfl

theorem mono (h : KeepsFrom k xs ys) (hkl : k ≤ l) : KeepsFrom l xs ys :=
  fun i hi => h i (hkl.trans hi)

/-- Writing before position `k`. -/
theorem ends_write (h : KeepsFrom k xs ys) {i : ℕ} (hi : i < k) (x : α) :
    Ends Always (KeepsFrom k xs) (Storage.write ys i x) := by
  refine Storage.ends_write.imp fun zs hzs j hj => ?_
  rw [hzs.2.2 j (hi.trans_le hj).ne', h j hj]

end KeepsFrom

theorem DenseMatrix.mapEntries_ncols {α β : Type} (m : DenseMatrix α)
    (f : ℕ → ℕ → α → Except Failure β) : Ends Always (·.ncols = m.ncols) (m.mapEntries f) :=
  Ends.always.bind fun _ _ => rfl

namespace SVD.Bidiagonal

variable {ρ : Type} [RealScalar ρ] {b : Bidiagonal ρ} {lo hi : ℕ}

/-! ### Shape -/

theorem Reduction.reflectColumn_shape (s : Reduction ρ) (k : ℕ) :
    Ends Always (fun s' => s'.rest.ncols = s.rest.ncols ∧
      s'.form.diag.size = s.form.diag.size + 1 ∧ s'.form.offDiag.size = s.form.offDiag.size)
      (s.reflectColumn k) := by
  unfold Reduction.reflectColumn
  refine Ends.always.bind fun reflection? _ => ?_
  cases reflection? with
  | some h =>
      have hcolumns : Ends Always (·.ncols = s.rest.ncols) (h.columns s.rest (k + 1)) :=
        Ends.always.bind fun _ _ => DenseMatrix.mapEntries_ncols _ _
      refine hcolumns.bind fun rest hrest => Ends.always.bind fun u _ => ?_
      exact ⟨hrest, Array.size_push _, rfl⟩
  | none =>
      refine Ends.always.bind fun skipped _ => Ends.always.bind fun d _ => ?_
      exact ⟨rfl, Array.size_push _, rfl⟩

theorem Reduction.reflectRow_shape (s : Reduction ρ) (k : ℕ) :
    Ends Always (fun s' => s'.rest.ncols = s.rest.ncols ∧
      s'.form.diag.size = s.form.diag.size ∧ s'.form.offDiag.size = s.form.offDiag.size + 1)
      (s.reflectRow k) := by
  unfold Reduction.reflectRow
  refine Ends.ite_bind Ends.always fun reflection? _ => ?_
  cases reflection? with
  | some h =>
      have hrows : Ends Always (·.ncols = s.rest.ncols) (h.rows s.rest (k + 1)) :=
        Ends.always.bind fun _ _ => DenseMatrix.mapEntries_ncols _ _
      refine hrows.bind fun rest hrest => Ends.always.bind fun v _ => ?_
      exact ⟨hrest, rfl, Array.size_push _⟩
  | none =>
      refine Ends.always.bind fun skipped _ => Ends.always.bind fun e _ => ?_
      exact ⟨rfl, rfl, Array.size_push _⟩

/-- There is at least one more entry on the diagonal than beside it, if any. -/
theorem ofTall_shape (a : DenseMatrix ρ) :
    Ends Always (fun b => b.diag.size = a.ncols ∧ b.offDiag.size ≤ a.ncols - 1) (ofTall a) := by
  unfold ofTall
  refine Ends.always.bind fun u _ => Ends.always.bind fun v _ => ?_
  refine (Ends.foldlM_positions (I := fun k s => s.rest.ncols = a.ncols ∧
    s.form.diag.size = k ∧ s.form.offDiag.size ≤ k ∧ s.form.offDiag.size ≤ a.ncols - 1)
    (Nat.zero_le a.ncols) ⟨rfl, rfl, le_rfl, Nat.zero_le _⟩ fun k s _ hk hs => ?_).bind
    fun s hs => ⟨hs.2.1, hs.2.2.2⟩
  obtain ⟨hncols, hdiag, hoffDiag, hbound⟩ := hs
  unfold Reduction.step
  refine (s.reflectColumn_shape k).bind fun s₁ hs₁ => ?_
  by_cases hlast : k + 1 < s₁.rest.ncols
  · rw [if_pos hlast]
    refine (s₁.reflectRow_shape k).imp fun s₂ hs₂ => ?_
    refine ⟨?_, ?_, ?_, ?_⟩ <;> omega
  · rw [if_neg hlast]
    refine ⟨?_, ?_, ?_, ?_⟩ <;> omega

/-! ### What a pass leaves alone -/

/-- The rows after `hi` are as before, and so is the entry beside the diagonal in row
`hi`. -/
structure Keeps (hi : ℕ) (b b' : Bidiagonal ρ) : Prop where
  diag : KeepsFrom (hi + 1) b.diag b'.diag
  offDiag : KeepsFrom hi b.offDiag b'.offDiag

omit [RealScalar ρ] in
theorem Keeps.refl (hi : ℕ) (b : Bidiagonal ρ) : Keeps hi b b :=
  ⟨.refl _ _, .refl _ _⟩

/-- Splitting writes one zero. -/
theorem split_writes (b : Bidiagonal ρ) (i : ℕ) :
    Ends Always (fun b' => b'.diag = b.diag ∧ b'.offDiag[i]? = some 0 ∧
      ∀ j, j ≠ i → b'.offDiag[j]? = b.offDiag[j]?) (b.split i) := by
  unfold split
  refine Ends.always.bind fun beside _ => Storage.ends_write.bind fun offDiag hoffDiag => ?_
  exact ⟨rfl, hoffDiag.2⟩

omit [RealScalar ρ] in
theorem Keeps.mono {b b' : Bidiagonal ρ} (h : Keeps lo b b') (hhi : lo ≤ hi) : Keeps hi b b' :=
  ⟨h.diag.mono (Nat.succ_le_succ hhi), h.offDiag.mono hhi⟩

theorem blockStart_keeps (b : Bidiagonal ρ) (last : ℕ) :
    Ends Always (fun found => Keeps last b found.1 ∧ found.2 ≤ last) (b.blockStart last) := by
  induction last with
  | zero => exact ⟨.refl 0 b, le_rfl⟩
  | succ lo ih =>
      unfold blockStart
      refine Ends.always.bind fun negligible _ => ?_
      cases negligible with
      | true =>
          refine (b.split_writes lo).bind fun b' hb' => ⟨⟨?_, fun i hi => ?_⟩, le_rfl⟩
          · rw [hb'.1]
            exact .refl _ _
          · exact hb'.2.2 i (by omega)
      | false =>
          refine ih.imp fun found hfound => ?_
          exact ⟨hfound.1.mono (Nat.le_succ lo), hfound.2.trans (Nat.le_succ lo)⟩

theorem Chase.step_keeps {s : Chase ρ} (hs : Keeps hi b s.form) (row : ℕ) {j : ℕ} (hj : j ≤ hi) :
    Ends Always (fun s' => Keeps hi b s'.form) (s.step row hi j) := by
  unfold Chase.step
  refine Ends.always.bind fun d _ => ?_
  refine (hs.diag.ends_write (Nat.lt_succ_of_le hj) _).bind fun diag hdiag => ?_
  refine Ends.always.bind fun u _ => ?_
  by_cases hlt : j < hi
  · rw [if_pos hlt]
    refine Ends.always.bind fun e _ => ?_
    exact (hs.offDiag.ends_write hlt _).bind fun offDiag hoffDiag => ⟨hdiag, hoffDiag⟩
  · rw [if_neg hlt]
    exact ⟨hdiag, hs.offDiag⟩

theorem chase_keeps (b : Bidiagonal ρ) {row : ℕ} (hrow : row < hi) :
    Ends Always (Keeps hi b) (b.chase row hi) := by
  unfold chase
  refine Ends.always.bind fun d _ => Ends.always.bind fun moved _ => ?_
  refine ((KeepsFrom.refl (hi + 1) b.diag).ends_write (Nat.lt_succ_of_lt hrow) _).bind
    fun diag hdiag => ?_
  refine ((KeepsFrom.refl hi b.offDiag).ends_write hrow _).bind fun offDiag hoffDiag => ?_
  refine (Ends.foldlM_positions (I := fun _ s => Keeps hi b s.form) (Nat.succ_le_succ hrow.le)
    ⟨hdiag, hoffDiag⟩ fun j s _ hj hs => ?_).bind fun s hs => Ends.pure_iff.2 hs
  exact Chase.step_keeps hs row (Nat.le_of_lt_succ hj)

theorem Sweep.step_keeps {s : Sweep ρ} (hs : Keeps hi b s.form) (lo : ℕ) {k : ℕ} (hk : k < hi) :
    Ends Always (fun s' => Keeps hi b s'.form) (s.step lo hi k) := by
  unfold Sweep.step
  have hbefore (x : ρ) : Ends Always (KeepsFrom hi b.offDiag)
      (if lo < k then Storage.write s.form.offDiag (k - 1) x else pure s.form.offDiag) := by
    split
    · exact hs.offDiag.ends_write ((Nat.sub_le k 1).trans_lt hk) x
    · exact hs.offDiag
  refine Ends.ite_bind (hbefore _) fun offDiag hoffDiag => ?_
  refine Ends.always.bind fun d _ => Ends.always.bind fun e _ => Ends.always.bind fun next _ => ?_
  refine Ends.always.bind fun v _ => ?_
  refine (hs.diag.ends_write (Nat.lt_succ_of_lt hk) _).bind fun diag hdiag => ?_
  refine (hoffDiag.ends_write hk _).bind fun offDiag' hoffDiag' => ?_
  refine (hdiag.ends_write (Nat.succ_lt_succ hk) _).bind fun diag' hdiag' => ?_
  refine Ends.always.bind fun u _ => ?_
  by_cases hlt : k + 1 < hi
  · rw [if_pos hlt]
    refine Ends.always.bind fun beside _ => Ends.always.bind fun x _ => ?_
    exact (hoffDiag'.ends_write hlt _).bind fun offDiag'' hoffDiag'' => ⟨hdiag', hoffDiag''⟩
  · rw [if_neg hlt]
    exact ⟨hdiag', hoffDiag'⟩

theorem sweep_keeps (b : Bidiagonal ρ) (hlo : lo ≤ hi) :
    Ends Always (Keeps hi b) (b.sweep lo hi) := by
  unfold sweep
  refine Ends.always.bind fun entries _ => ?_
  refine (Ends.foldlM_positions (I := fun _ s => Keeps hi b s.form) hlo (Keeps.refl hi b)
    fun k s _ hk hs => ?_).bind fun s hs => Ends.pure_iff.2 hs
  exact Sweep.step_keeps hs lo hk

/-- A pass over a block changes nothing after it. -/
theorem pass_keeps (b : Bidiagonal ρ) (small : ρ) (hlo : lo ≤ hi) :
    Ends Always (Keeps hi b) (b.pass small lo hi) := by
  unfold pass
  refine (Ends.findM?_mem (Q := fun _ _ => True) fun _ _ => Ends.always).bind fun zero hzero => ?_
  cases zero with
  | some row => exact b.chase_keeps (mem_positions.1 (hzero row rfl).1).2
  | none => exact b.sweep_keeps hlo

/-! ### Deflation -/

/-- The rows after `hi` are done: their diagonal entries are numbers and nothing is left
beside the diagonal from row `hi` on. With `hi = 0` all rows are done. -/
structure Finished (hi : ℕ) (b : Bidiagonal ρ) : Prop where
  diag (i : ℕ) (h : hi < i ∨ hi = 0) (d : ρ) (hd : b.diag[i]? = some d) :
    RealScalar.isNaN d = false
  offDiag (i : ℕ) (h : hi ≤ i) (e : ρ) (he : b.offDiag[i]? = some e) : e = 0

/-- A pass over the rows before leaves finished rows finished. -/
theorem Finished.of_keeps {b' : Bidiagonal ρ} (h : Finished (hi + 1) b) (hb : Keeps (hi + 1) b b') :
    Finished (hi + 1) b' where
  diag i hi' d hd :=
    h.diag i hi' d (hb.diag i (hi'.resolve_right (Nat.succ_ne_zero hi)) ▸ hd)
  offDiag i hi' e he := h.offDiag i hi' e (hb.offDiag i hi' ▸ he)

/-- Deflation finishes a row. -/
theorem Finished.split {last : ℕ} (h : Finished (last + 1) b)
    (hnumbers : ∀ j d, j = last ∨ j = last + 1 → b.diag[j]? = some d → RealScalar.isNaN d = false) :
    Ends Always (Finished last) (b.split last) := by
  refine (b.split_writes last).imp fun b' hb' => ⟨fun i hi d hd => ?_, fun i hi e he => ?_⟩
  · rw [hb'.1] at hd
    rcases Nat.lt_or_ge (last + 1) i with hlt | hge
    · exact h.diag i (Or.inl hlt) d hd
    · exact hnumbers i d (by omega) hd
  · rcases hi.eq_or_lt with rfl | hlt
    · exact Option.some.inj (he.symm.trans hb'.2.1)
    · rw [hb'.2.2 i hlt.ne'] at he
      exact h.offDiag i hlt e he

theorem iterate_zero (small : ρ) (b : Bidiagonal ρ) (budget : ℕ) :
    iterate small b budget 0 = pure b := by
  rw [iterate]

/-- A negligible entry in the last row is split off without a pass. -/
theorem iterate_of_negligible (small : ρ) (budget : ℕ) {last : ℕ}
    (h : b.isNegligible last = .ok true) : iterate small b budget (last + 1) =
      b.split last >>= fun b' => iterate small b' budget last := by
  rw [iterate, h]
  rfl

variable [BinaryScalar ρ]

/-- A negligible entry has numbers on either side. -/
theorem isNegligible_spec (b : Bidiagonal ρ) (i : ℕ) :
    Ends Always (fun negligible => negligible = true → ∀ j d, j = i ∨ j = i + 1 →
      b.diag[j]? = some d → RealScalar.isNaN d = false) (b.isNegligible i) := by
  unfold isNegligible
  refine Ends.always.bind fun beside _ => ?_
  refine Storage.ends_read.bind fun before hbefore => ?_
  refine Storage.ends_read.bind fun after hafter => ?_
  rw [Ends.pure_iff]
  intro htest j d hj hd
  have hbound := (BinaryScalar.le_iff_place.1 (of_decide_eq_true htest)).1.2
  have hsum := BinaryScalar.isNaN_of_add (BinaryScalar.isNaN_of_mul hbound).2
  rcases hj with rfl | rfl
  · obtain rfl := Option.some.inj (hbefore.symm.trans hd)
    exact BinaryScalar.isNaN_of_abs hsum.1
  · obtain rfl := Option.some.inj (hafter.symm.trans hd)
    exact BinaryScalar.isNaN_of_abs hsum.2

/-- The iteration returns when all rows are done. -/
theorem iterate_finished (small : ρ) (budget : ℕ) (h : Finished hi b) :
    Ends Always (Finished 0) (iterate small b budget hi) := by
  -- a pass spends the budget, and with the same budget the block only shrinks
  induction budget using Nat.strong_induction_on generalizing b hi with
  | _ budget ihbudget =>
    induction hi generalizing b with
    | zero =>
        rw [iterate]
        exact h
    | succ last ih =>
        rw [iterate]
        refine (b.isNegligible_spec last).bind fun negligible hnumbers => ?_
        cases negligible with
        | true => exact (h.split (hnumbers rfl)).bind fun b' hb' => ih hb'
        | false =>
            refine (b.blockStart_keeps last).bind fun found hfound => ?_
            have hblock := h.of_keeps (hfound.1.mono (Nat.le_succ last))
            cases budget with
            | zero => exact trivial
            | succ budget =>
                refine (found.1.pass_keeps small (hfound.2.trans (Nat.le_succ last))).bind
                  fun b' hb' => ?_
                exact ihbudget budget (Nat.lt_succ_self budget) (hblock.of_keeps hb')

/-! ### Signs and order -/

omit [BinaryScalar ρ] in
/-- At most the sign of one diagonal entry changes. -/
theorem makeNonNegative_writes (b : Bidiagonal ρ) (i : ℕ) :
    Ends Always (fun b' => b'.offDiag = b.offDiag ∧ b'.diag.size = b.diag.size ∧
      (∀ j, j ≠ i → b'.diag[j]? = b.diag[j]?) ∧
      ∃ d, b.diag[i]? = some d ∧ b'.diag[i]? = some (if d < 0 then -d else d))
      (b.makeNonNegative i) := by
  unfold makeNonNegative
  refine Storage.ends_read.bind fun d hd => ?_
  by_cases hneg : d < 0
  · rw [if_pos hneg]
    refine Storage.ends_write.bind fun diag hdiag => Ends.always.bind fun u _ => ?_
    refine ⟨rfl, hdiag.1, hdiag.2.2, d, hd, ?_⟩
    rw [if_pos hneg, hdiag.2.1]
  · rw [if_neg hneg]
    refine ⟨rfl, rfl, fun _ _ => rfl, d, hd, ?_⟩
    rw [if_neg hneg, hd]

/-- The first `k` entries are not negative, and all are numbers. -/
structure Signed (k : ℕ) (xs : Array ρ) : Prop where
  number (i : ℕ) (x : ρ) (hx : xs[i]? = some x) : RealScalar.isNaN x = false
  nonneg (i : ℕ) (hi : i < k) (x : ρ) (hx : xs[i]? = some x) : 0 ≤ x

theorem Signed.step {k : ℕ} {xs ys : Array ρ} (h : Signed k xs)
    (hsame : ∀ j, j ≠ k → ys[j]? = xs[j]?) {d : ρ} (hd : xs[k]? = some d)
    (hd' : ys[k]? = some (if d < 0 then -d else d)) : Signed (k + 1) ys := by
  have hpos : 0 ≤ if d < 0 then -d else d := by
    by_cases hneg : d < 0
    · rw [if_pos hneg]
      exact BinaryScalar.zero_le_neg hneg
    · rw [if_neg hneg]
      exact BinaryScalar.le_of_not_lt (h.number k d hd) BinaryScalar.isNaN_zero hneg
  refine ⟨fun i x hx => ?_, fun i hi x hx => ?_⟩
  · by_cases hik : i = k
    · rw [hik, hd'] at hx
      exact Option.some.inj hx ▸ (BinaryScalar.le_iff_place.1 hpos).1.2
    · rw [hsame i hik] at hx
      exact h.number i x hx
  · by_cases hik : i = k
    · rw [hik, hd'] at hx
      exact Option.some.inj hx ▸ hpos
    · rw [hsame i hik] at hx
      exact h.nonneg i (by omega) x hx

/-- No entry is negative, and none of the first `k` is below a later one. -/
structure Settled (k : ℕ) (xs : Array ρ) : Prop where
  nonneg (i : ℕ) (x : ρ) (hx : xs[i]? = some x) : 0 ≤ x
  le (i j : ℕ) (hi : i < k) (hij : i < j) (x y : ρ) (hx : xs[i]? = some x)
    (hy : xs[j]? = some y) : y ≤ x

theorem Settled.isNaN {k : ℕ} {xs : Array ρ} (h : Settled k xs) {i : ℕ} {x : ρ}
    (hx : xs[i]? = some x) : RealScalar.isNaN x = false :=
  (BinaryScalar.le_iff_place.1 (h.nonneg i x hx)).1.2

omit [BinaryScalar ρ] in
/-- The largest of the entries from position `k` on comes to position `k`. -/
theorem Settled.step {k best : ℕ} {xs ys : Array ρ} (h : Settled k xs) (hk : k ≤ best)
    (hbest : ∀ i, k ≤ i → ∀ x y, xs[i]? = some x → xs[best]? = some y → x ≤ y)
    (hswap : ∀ i : ℕ, ys[i]? = xs[Equiv.swap k best i]?) : Settled (k + 1) ys := by
  -- the exchange stays among the positions from `k` on
  have hlater {i : ℕ} (hi : k ≤ i) : k ≤ Equiv.swap k best i := by
    rw [Equiv.swap_apply_def]
    split_ifs <;> omega
  have hbefore {i : ℕ} (hi : i < k) : Equiv.swap k best i = i :=
    Equiv.swap_apply_of_ne_of_ne (by omega) (by omega)
  refine ⟨fun i x hx => h.nonneg _ x (hswap i ▸ hx), fun i j hi hij x y hx hy => ?_⟩
  rw [hswap] at hx hy
  rcases (Nat.le_of_lt_succ hi).eq_or_lt with rfl | hlt
  · rw [Equiv.swap_apply_left] at hx
    exact hbest _ (hlater hij.le) y x hy hx
  · rw [hbefore hlt] at hx
    refine h.le i _ hlt ?_ x y hx hy
    rcases Nat.lt_or_ge j k with hj | hj
    · rw [hbefore hj]
      exact hij
    · exact hlt.trans_le (hlater hj)

/-- The search ends at a largest entry from position `k` on. -/
theorem ends_largest {k : ℕ} {xs : Array ρ} (h : Settled k xs) (hk : k < xs.size) :
    Ends Always (fun best => k ≤ best ∧
      ∀ i, k ≤ i → ∀ x y, xs[i]? = some x → xs[best]? = some y → x ≤ y)
      (foldPositions (k + 1) xs.size k fun best j => do
        return if (← Storage.read xs best) < (← Storage.read xs j) then j else best) := by
  have hself {i : ℕ} {x y : ρ} (hx : xs[i]? = some x) (hy : xs[i]? = some y) : x ≤ y := by
    obtain rfl := Option.some.inj (hx.symm.trans hy)
    exact BinaryScalar.le_refl (h.isNaN hx)
  refine (Ends.foldPositions (I := fun j best => k ≤ best ∧
    ∀ i, k ≤ i → i < j → ∀ x y, xs[i]? = some x → xs[best]? = some y → x ≤ y) hk
    ⟨le_rfl, fun i hi hi' x y hx hy => ?_⟩ fun j best hj _ hbest => ?_).imp
    fun best hbest => ⟨hbest.1, fun i hi x y hx => ?_⟩
  · obtain rfl : i = k := by omega
    exact hself hx hy
  · refine Storage.ends_read.bind fun a ha => Storage.ends_read.bind fun c hc => ?_
    rw [Ends.pure_iff]
    by_cases hlt : a < c
    · rw [if_pos hlt]
      refine ⟨by omega, fun i hi hi' x y hx hy => ?_⟩
      rcases (Nat.le_of_lt_succ hi').eq_or_lt with rfl | hi'
      · exact hself hx hy
      · obtain rfl := Option.some.inj (hc.symm.trans hy)
        exact BinaryScalar.le_trans (hbest.2 i hi hi' x a hx ha) (BinaryScalar.le_of_lt hlt)
    · rw [if_neg hlt]
      refine ⟨hbest.1, fun i hi hi' x y hx hy => ?_⟩
      rcases (Nat.le_of_lt_succ hi').eq_or_lt with rfl | hi'
      · obtain rfl := Option.some.inj (hc.symm.trans hx)
        obtain rfl := Option.some.inj (ha.symm.trans hy)
        exact BinaryScalar.le_of_not_lt (h.isNaN ha) (h.isNaN hc) hlt
      · exact hbest.2 i hi hi' x y hx hy
  · exact hbest.2 i hi (Array.getElem?_eq_some_iff.1 hx).1 x y hx

theorem selectLargest_settles {k : ℕ} (h : Settled k b.diag) (hk : k < b.diag.size) :
    Ends Always (fun b' => b'.offDiag = b.offDiag ∧ b'.diag.size = b.diag.size ∧
      Settled (k + 1) b'.diag) (b.selectLargest k) := by
  unfold selectLargest
  refine (ends_largest h hk).bind fun best hbest => ?_
  by_cases hsame : best = k
  · rw [if_pos hsame]
    refine ⟨rfl, rfl, h.step hbest.1 hbest.2 fun i => ?_⟩
    rw [hsame, Equiv.swap_self, Equiv.refl_apply]
  · rw [if_neg hsame]
    refine Storage.ends_exchange.bind fun diag hdiag => ?_
    refine Ends.always.bind fun u _ => Ends.always.bind fun v _ => ?_
    exact ⟨rfl, hdiag.1, h.step hbest.1 hbest.2 hdiag.2⟩

/-- A form that starts with numbers is diagonal in the end, with entries that are not
negative and in descending order. -/
theorem diagonalize_settled (h : Finished (b.diag.size - 1) b) (budget : ℕ) :
    Ends Always (fun b' => Settled b'.diag.size b'.diag ∧ ∀ e ∈ b'.offDiag, e = 0)
      (b.diagonalize budget) := by
  unfold diagonalize
  refine (iterate_finished _ budget h).bind fun b₁ hb₁ => ?_
  have hzero : ∀ e ∈ b₁.offDiag, e = 0 := fun e he => by
    obtain ⟨i, hi⟩ := Array.mem_iff_getElem?.1 he
    exact hb₁.offDiag i (Nat.zero_le i) e hi
  refine (Ends.foldlM_positions (I := fun k b' => b'.offDiag = b₁.offDiag ∧
    b'.diag.size = b₁.diag.size ∧ Signed k b'.diag) (Nat.zero_le _)
    ⟨rfl, rfl, fun i d hd => hb₁.diag i (Or.inr rfl) d hd,
      fun i hi => absurd hi (Nat.not_lt_zero i)⟩ fun k b' _ _ hb' => ?_).bind fun b₂ hb₂ => ?_
  · refine (b'.makeNonNegative_writes k).imp fun b'' hb'' => ?_
    obtain ⟨d, hd, hd'⟩ := hb''.2.2.2
    exact ⟨hb''.1.trans hb'.1, hb''.2.1.trans hb'.2.1, hb'.2.2.step hb''.2.2.1 hd hd'⟩
  have hsigned : Settled 0 b₂.diag := by
    refine ⟨fun i x hx => hb₂.2.2.nonneg i ?_ x hx, fun i j hi => absurd hi (Nat.not_lt_zero i)⟩
    rw [← hb₂.2.1]
    exact (Array.getElem?_eq_some_iff.1 hx).1
  refine (Ends.foldlM_positions (I := fun k b' => b'.offDiag = b₁.offDiag ∧
    b'.diag.size = b₁.diag.size ∧ Settled k b'.diag) (Nat.zero_le _) ⟨hb₂.1, hb₂.2.1, hsigned⟩
    fun k b' _ hk hb' => ?_).imp fun b₃ hb₃ => ?_
  · refine (selectLargest_settles hb'.2.2 (hb'.2.1.symm ▸ hk)).imp fun b'' hb'' => ?_
    exact ⟨hb''.1.trans hb'.1, hb''.2.1.trans hb'.2.1, hb''.2.2⟩
  · rw [hb₃.2.1, hb₃.1]
    exact ⟨hb₃.2.2, hzero⟩

end SVD.Bidiagonal

namespace SVD

variable {ρ : Type} [RealScalar ρ] [BinaryScalar ρ]

/-! ### Singular values -/

/-- Singular values as they should be: numbers, not negative, the largest first. -/
structure WellFormed (values : Array ρ) : Prop where
  number (x : ρ) (hx : x ∈ values) : RealScalar.isNaN x = false
  nonneg (x : ρ) (hx : x ∈ values) : 0 ≤ x
  descending : values.toList.Pairwise fun x y => y ≤ x

theorem WellFormed.of_settled {values : Array ρ} (h : Bidiagonal.Settled values.size values) :
    WellFormed values where
  number x hx := by
    obtain ⟨i, hi⟩ := Array.mem_iff_getElem?.1 hx
    exact h.isNaN hi
  nonneg x hx := by
    obtain ⟨i, hi⟩ := Array.mem_iff_getElem?.1 hx
    exact h.nonneg i x hi
  descending := by
    rw [List.pairwise_iff_getElem]
    intro i j hi hj hij
    exact h.le i j hi hij _ _ (Array.getElem?_eq_getElem hi) (Array.getElem?_eq_getElem hj)

/-- The scale is positive and finite, so scaling back keeps the order. -/
theorem WellFormed.scaledUp {values : Array ρ} (h : WellFormed values) (a : DenseMatrix ρ) :
    WellFormed (SVD.scaledUp values (scale? a)) := by
  unfold scale?
  by_cases hscale : (decide (0 < a.maxModulus) && RealScalar.isFinite a.maxModulus) = true
  · rw [if_pos hscale]
    rw [Bool.and_eq_true, decide_eq_true_eq] at hscale
    have hmul {x y : ρ} (hx : x ∈ values) (hxy : x ≤ y) :
        0 ≤ x * a.maxModulus ∧ x * a.maxModulus ≤ y * a.maxModulus :=
      BinaryScalar.le_mul_of_le hscale.1 hscale.2 (h.nonneg x hx) hxy
    have hself {x : ρ} (hx : x ∈ values) : 0 ≤ x * a.maxModulus :=
      (hmul hx (BinaryScalar.le_refl (h.number x hx))).1
    refine ⟨fun y hy => ?_, fun y hy => ?_, ?_⟩
    · obtain ⟨x, hx, rfl⟩ := Array.mem_map.1 hy
      exact (BinaryScalar.le_iff_place.1 (hself hx)).1.2
    · obtain ⟨x, hx, rfl⟩ := Array.mem_map.1 hy
      exact hself hx
    · rw [SVD.scaledUp, Array.toList_map, List.pairwise_map]
      refine h.descending.imp_of_mem fun _ hy hyx => ?_
      exact (hmul (Array.mem_toList_iff.1 hy) hyx).2
  · rw [if_neg hscale]
    exact h

omit [BinaryScalar ρ] in
/-- Before the iteration the last row is done, if its entry is the only one. -/
theorem Bidiagonal.finished_of_hasNaN {b : Bidiagonal ρ}
    (hshape : b.offDiag.size ≤ b.diag.size - 1) (hnan : ¬ b.hasNaN = true) :
    Finished (b.diag.size - 1) b where
  diag i hi d hd := by
    rw [Bidiagonal.hasNaN, Bool.or_eq_true, not_or, Array.any_eq_true'] at hnan
    by_contra hd'
    exact hnan.1 ⟨d, Array.mem_of_getElem? hd, Bool.eq_true_of_not_eq_false hd'⟩
  offDiag i hi e he := by
    rw [Array.getElem?_eq_none (hshape.trans hi)] at he
    exact absurd he (Option.some_ne_none e).symm

/-- Either all singular values are NaN, or they are well formed and the form they were read
from has nothing but zeros beside the diagonal. -/
def Factors.Sound (f : Factors ρ) : Prop :=
  (∀ x ∈ f.values, RealScalar.isNaN x = true) ∨
    WellFormed f.values ∧ ∀ e ∈ f.form.offDiag, e = 0

theorem ofTall_sound (a : DenseMatrix ρ) : Ends Always Factors.Sound (SVD.ofTall a) := by
  unfold SVD.ofTall
  refine (Bidiagonal.ofTall_shape _).bind fun b hb => ?_
  by_cases hnan : b.hasNaN = true
  · rw [if_pos hnan]
    refine Ends.ok_bind_iff.2 (Ends.always.bind fun u _ => Or.inl fun x hx => ?_)
    obtain ⟨d, -, rfl⟩ := Array.mem_map.1 hx
    exact BinaryScalar.isNaN_nan
  · rw [if_neg hnan]
    have hstart := Bidiagonal.finished_of_hasNaN (hb.1 ▸ hb.2) hnan
    refine (Bidiagonal.diagonalize_settled hstart _).bind fun form hform => ?_
    refine Ends.ok_bind_iff.2 (Ends.always.bind fun u _ => Or.inr ⟨?_, hform.2⟩)
    exact (WellFormed.of_settled hform.1).scaledUp a

theorem factorize_sound (a : DenseMatrix ρ) : Ends Always Factors.Sound (factorize a) := by
  unfold factorize
  by_cases htall : a.ncols ≤ a.nrows
  · rw [if_pos htall]
    exact ofTall_sound a
  · rw [if_neg htall]
    exact Ends.always.bind fun a' _ => (ofTall_sound a').bind fun f hf => hf

/-- The values of a decomposition are those of the factors that were computed. -/
theorem exists_sound {a : MatrixView ρ} {s : SVD ρ} (hs : SVD.of a = .ok s) :
    ∃ (dense : DenseMatrix ρ) (f : Factors ρ), DenseMatrix.ofView a = .ok dense ∧
      factorize dense = .ok f ∧ s.values = f.values ∧ f.Sound := by
  obtain ⟨dense, f, hdense, hf, -, -, hvalues⟩ := of_eq_ok hs
  exact ⟨dense, f, hdense, hf, hvalues, (factorize_sound dense).of_ok hf⟩

/-- **Singular values are well formed or all NaN.** Whatever a matrix of binary64 or binary32
numbers holds, the singular values that are returned are either all NaN, or numbers that are
not negative and in descending order; in this case the iteration left nothing beside the
diagonal. -/
theorem values_wellFormed_or_nan :
    (∀ (a : MatrixView Float) (s : SVD Float), SVD.of a = .ok s →
      ∃ (dense : DenseMatrix Float) (f : Factors Float), DenseMatrix.ofView a = .ok dense ∧
        factorize dense = .ok f ∧ s.values = f.values ∧ f.Sound) ∧
    (∀ (a : MatrixView Float32) (s : SVD Float32), SVD.of a = .ok s →
      ∃ (dense : DenseMatrix Float32) (f : Factors Float32), DenseMatrix.ofView a = .ok dense ∧
        factorize dense = .ok f ∧ s.values = f.values ∧ f.Sound) :=
  ⟨fun _ _ => exists_sound, fun _ _ => exists_sound⟩

/-- A diagonal matrix whose entries have to be exchanged, and a row that starts with a NaN. -/
theorem values_wellFormed_or_nan_square_and_row :
    let square : DenseMatrix Float := ⟨2, 2, #[3, 0, 0, 4]⟩
    let row : DenseMatrix Float32 := ⟨1, 2, #[RealScalar.nan, 1]⟩
    (∃ (s : SVD Float) (f : Factors Float), SVD.of square.view = .ok s ∧
      s.values = f.values ∧ f.Sound) ∧
    (∃ (s : SVD Float32) (f : Factors Float32), SVD.of row.view = .ok s ∧
      s.values = f.values ∧ f.Sound) := by
  intro square row
  have hsquare : Ends Never (fun _ => True) (SVD.of square.view) := by
    -- the iteration does not reduce, but it splits the form without a pass
    have hrun : Ends Never (fun dense => dense.ncols ≤ dense.nrows ∧
        Ends Never (fun b => (¬ b.hasNaN = true) ∧ b.diag.size = 2 ∧
          Ends Never (· = true) (b.isNegligible 0) ∧
          Ends Never (fun b' => Ends Never (fun b'' => Ends Never (fun form =>
              Ends Never (fun _ => True)
                (DenseMatrix.tabulate dense.nrows dense.ncols form.u.entry))
              ((positions 0 b'.diag.size).foldlM Bidiagonal.selectLargest b''))
              ((positions 0 b'.diag.size).foldlM Bidiagonal.makeNonNegative b'))
            (b.split 0))
          (Bidiagonal.ofTall (scaledDown dense (scale? dense))))
        (DenseMatrix.ofView square.view) := by
      decide +kernel
    unfold SVD.of ofTolerance?
    refine hrun.bind fun dense ⟨htall, hreduction⟩ => ?_
    have hfactors : Ends Never (fun _ => True) (factorize dense) := by
      unfold factorize SVD.ofTall
      rw [if_pos htall]
      refine hreduction.bind fun b ⟨hnan, hsize, hnegligible, hrest⟩ => ?_
      obtain ⟨negligible, hnegligible, rfl⟩ := Ends.never_iff.1 hnegligible
      have hdiagonal : Ends Never (fun form => Ends Never (fun _ => True)
          (DenseMatrix.tabulate dense.nrows dense.ncols form.u.entry))
          (b.diagonalize (30 * max dense.nrows dense.ncols)) := by
        unfold Bidiagonal.diagonalize
        rw [hsize, Bidiagonal.iterate_of_negligible _ _ hnegligible]
        simp only [Bidiagonal.iterate_zero, bind_pure]
        exact hrest.bind fun b' hb' => hb'.bind fun b'' hb'' => hb''
      rw [if_neg hnan]
      exact hdiagonal.bind fun form hu => hu.bind fun u _ => trivial
    exact hfactors.bind fun f _ => trivial
  have hrow : Ends Never (fun _ => True) (SVD.of row.view) := by decide +kernel
  obtain ⟨s, hs, -⟩ := Ends.never_iff.1 hsquare
  obtain ⟨s', hs', -⟩ := Ends.never_iff.1 hrow
  obtain ⟨-, f, -, -, hvalues, hf⟩ := values_wellFormed_or_nan.1 _ s hs
  obtain ⟨-, f', -, -, hvalues', hf'⟩ := values_wellFormed_or_nan.2 _ s' hs'
  exact ⟨⟨s, f, hs, hvalues, hf⟩, ⟨s', f', hs', hvalues', hf'⟩⟩

end SVD

end DenseFactor
