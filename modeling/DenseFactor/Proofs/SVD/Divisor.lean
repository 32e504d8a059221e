import Mathlib
import DenseFactor.Proofs.Scalar.Division
import DenseFactor.Proofs.Scalar.Real
import DenseFactor.Proofs.SVD.NaN
import DenseFactor.Proofs.SVD.Shape
import DenseFactor.Proofs.SVD.Shift

/-!
# DenseFactor.Proofs.SVD.Divisor

Over exact real elements the singular value decomposition **divides by no zero**.

Design points:

* A rotation divides by the larger of its coordinates and by a length that is at least one, a
  reflection by numbers of the sign of its head. Neither needs to know where it is used.
* What the shift divides by depends on three tests of the same pass: the last entry beside the
  diagonal is not negligible, the search for the start of the block leaves it alone, and no
  diagonal entry of the block counts as zero. `ends_isNegligible_apart`, `blockStart_keeps` and
  `ends_firstSmall` say what each of them leaves behind.
* `State.Next` is the iteration one deflation or one pass at a time, so that a statement can
  be made about every pass of a run.
-/

namespace DenseFactor

open ExactScalar (value)

variable {ρ : Type} [RealScalar ρ] [ExactReal ρ] {m n : ℕ} {div : ρ → ρ → ρ}

/-- The division is that of the type wherever the divisor is not zero. -/
def RealScalar.AgreesOffZero (div : ρ → ρ → ρ) : Prop := ∀ x y, value y ≠ 0 → div x y = x / y

open RealScalar (AgreesOffZero)

/-! ### Rotations and reflections -/

/-- A rotation divides by the larger coordinate of its pair and by a length. -/
theorem Rotation.ofPair_withDiv (hdiv : AgreesOffZero div) (a b : ρ) :
    @ofPair ρ (RealScalar.withDiv div) a b = ofPair a b := by
  show (if b == 0 then (⟨1, 0⟩ : Rotation ρ)
    else if RealScalar.abs a < RealScalar.abs b then
      ⟨div 1 (RealScalar.sqrt (1 + div a b * div a b)) * div a b,
        div 1 (RealScalar.sqrt (1 + div a b * div a b))⟩
    else
      ⟨div 1 (RealScalar.sqrt (1 + div b a * div b a)),
        div 1 (RealScalar.sqrt (1 + div b a * div b a)) * div b a⟩) = ofPair a b
  unfold ofPair
  by_cases hb : (b == 0) = true
  · rw [if_pos hb, if_pos hb]
  obtain ⟨hb', ha⟩ := value_ne_zero_of_larger (a := a) hb
  rw [if_neg hb, if_neg hb]
  by_cases hab : RealScalar.abs a < RealScalar.abs b
  · rw [if_pos hab, if_pos hab, hdiv a b hb', hdiv _ _ (value_sqrt_one_add _).2]
  · rw [if_neg hab, if_neg hab, hdiv b a (ha hab), hdiv _ _ (value_sqrt_one_add _).2]

namespace Reflection

/-- The image of the reflected vector is not zero, and its head does not cancel it. -/
theorem ends_ofVector?_divisors (hmin : 0 ≤ value (RealScalar.minPositive : ρ))
    (vector : ℕ → Except Failure ρ) (head stop : ℕ) :
    Ends Always (fun h? => ∀ h ∈ h?, ∃ first σ : ρ, vector head = .ok first ∧ h.image = -σ ∧
        h.factor = (first + σ) / σ ∧ value σ ≠ 0 ∧ value (first + σ) ≠ 0)
      (ofVector? vector head stop) := by
  unfold ofVector?
  refine Ends.always.bind fun squares _ => ?_
  by_cases hlong : RealScalar.minPositive < squares
  · have hpos : 0 < value squares := hmin.trans_lt ((ExactReal.lt_iff _ _).1 hlong)
    rw [if_pos hlong]
    refine Ends.always.self.bind fun first hfirst => Ends.always.bind fun tail _ => ?_
    rw [Ends.pure_iff]
    intro h hh
    obtain rfl := Option.some.inj hh
    obtain ⟨-, hsigned, hhead⟩ := value_signed first hpos
    rw [← ExactScalar.value_add] at hhead
    exact ⟨first, _, hfirst.1, rfl, rfl, hsigned, hhead⟩
  · rw [if_neg hlong]
    exact fun h hh => absurd hh (Option.not_mem_none h)

/-- A reflection divides by its new head and by its length. -/
theorem ofVector?_withDiv (hmin : 0 ≤ value (RealScalar.minPositive : ρ))
    (hdiv : AgreesOffZero div) (vector : ℕ → Except Failure ρ) (head stop : ℕ) :
    @ofVector? ρ (RealScalar.withDiv div) vector head stop = ofVector? vector head stop := by
  unfold ofVector?
  refine bind_congr fun squares => ?_
  by_cases hlong : RealScalar.minPositive < squares
  · have hpos : 0 < value squares := hmin.trans_lt ((ExactReal.lt_iff _ _).1 hlong)
    rw [if_pos hlong]
    refine (if_pos hlong).trans (bind_congr fun first => ?_)
    obtain ⟨-, hsigned, hhead⟩ := value_signed first hpos
    rw [← ExactScalar.value_add] at hhead
    set signed := if first < 0 then -RealScalar.sqrt squares else RealScalar.sqrt squares
    show (do
        let tail ← Storage.collect stop fun i =>
          if head < i then do return div (← vector i) (first + signed) else .ok 0
        return some (⟨head, stop, tail, div (first + signed) signed, -signed⟩ : Reflection ρ)) = do
      let tail ← Storage.collect stop fun i =>
        if head < i then do return (← vector i) / (first + signed) else .ok 0
      return some ⟨head, stop, tail, (first + signed) / signed, -signed⟩
    simp only [hdiv _ _ hhead, hdiv _ _ hsigned]
  · rw [if_neg hlong]
    exact if_neg hlong

end Reflection

namespace SVD.Bidiagonal

/-! ### The reduction -/

/-- The reduction divides in its reflections only. -/
theorem ofTall_withDiv (hmin : 0 ≤ value (RealScalar.minPositive : ρ))
    (hdiv : AgreesOffZero div) (a : DenseMatrix ρ) :
    @ofTall ρ (RealScalar.withDiv div) a = ofTall a := by
  have hcolumn (s : Reduction ρ) (k : ℕ) :
      @Reduction.reflectColumn ρ (RealScalar.withDiv div) s k = s.reflectColumn k := by
    unfold Reduction.reflectColumn
    simp only [Reflection.ofVector?_withDiv hmin hdiv]
    rfl
  have hrow (s : Reduction ρ) (k : ℕ) :
      @Reduction.reflectRow ρ (RealScalar.withDiv div) s k = s.reflectRow k := by
    unfold Reduction.reflectRow
    simp only [Reflection.ofVector?_withDiv hmin hdiv]
    rfl
  have hstep (s : Reduction ρ) (k : ℕ) :
      @Reduction.step ρ (RealScalar.withDiv div) s k = s.step k := by
    unfold Reduction.step
    simp only [hcolumn, hrow]
  unfold ofTall
  refine bind_congr fun u => bind_congr fun v => ?_
  exact congrArg (fun s : Except Failure (Reduction ρ) => s >>= fun s => pure s.form)
    (foldlM_congr (fun s k _ => hstep s k) _)

/-! ### The shift -/

namespace Corner

theorem dividedBy_withDiv (hdiv : AgreesOffZero div) (c : Corner ρ) {size : ρ}
    (hsize : value size ≠ 0) :
    @dividedBy ρ (RealScalar.withDiv div) c size = c.dividedBy size := by
  show (⟨div c.last size, div c.previous size, div c.besideLast size, div c.besidePrevious size,
    div c.first size, div c.besideFirst size⟩ : Corner ρ) = c.dividedBy size
  simp only [hdiv _ _ hsize]
  rfl

theorem shift_withDiv (hdiv : AgreesOffZero div) {c : Corner ρ} (hc : value c.divisor ≠ 0) :
    @shift ρ (RealScalar.withDiv div) c = c.shift := by
  have htwo : value (1 + 1 : ρ) ≠ 0 := by
    rw [ExactScalar.value_add, ExactScalar.value_one']
    norm_num
  show c.last * c.last + c.besideLast * c.besideLast -
    div (c.previous * c.besideLast * (c.previous * c.besideLast))
      (shiftDivisor (div (c.previous * c.previous + c.besidePrevious * c.besidePrevious -
        (c.last * c.last + c.besideLast * c.besideLast)) (1 + 1)) (c.previous * c.besideLast)) =
    c.shift
  rw [hdiv _ _ htwo]
  exact congrArg _ (hdiv _ _ hc)

end Corner

/-! ### What the tests of a pass leave behind -/

variable {b : Bidiagonal ρ} {lo hi : ℕ}

/-- An entry that is not negligible is not zero. -/
theorem ends_isNegligible_apart (hε : 0 ≤ value (RealScalar.epsilon : ρ)) (b : Bidiagonal ρ)
    (i : ℕ) :
    Ends Always (fun negligible => negligible = false → ∃ e, b.offDiag[i]? = some e ∧ value e ≠ 0)
      (b.isNegligible i) := by
  unfold isNegligible
  refine Storage.ends_read.bind fun beside hbeside => ?_
  refine Ends.always.bind fun before _ => Ends.always.bind fun after _ => ?_
  rw [Ends.pure_iff]
  refine fun hapart => ⟨beside, hbeside, fun hzero => of_decide_eq_false hapart ?_⟩
  rw [ExactReal.le_iff, ExactReal.value_abs, hzero, abs_zero, ExactScalar.value_mul,
    ExactScalar.value_add, ExactReal.value_abs, ExactReal.value_abs]
  exact mul_nonneg hε (add_nonneg (abs_nonneg _) (abs_nonneg _))

/-- The first row of a block, before its last, whose diagonal entry counts as zero. -/
def firstSmall (b : Bidiagonal ρ) (small : ρ) (lo hi : ℕ) : Except Failure (Option ℕ) :=
  (positions lo hi).findM? fun i => do
    return decide (RealScalar.abs (← Storage.read b.diag i) ≤ small)

/-- Where no diagonal entry counts as zero, none is. -/
theorem ends_firstSmall {small : ρ} (hsmall : 0 ≤ value small) (b : Bidiagonal ρ) (lo hi : ℕ) :
    Ends Always (fun found => found = none → ∀ i, lo ≤ i → i < hi →
      ∃ d, b.diag[i]? = some d ∧ value d ≠ 0) (b.firstSmall small lo hi) := by
  refine (Ends.findM?_first (positions_sorted lo hi) (Q := fun i counts => counts = false →
    ∃ d, b.diag[i]? = some d ∧ value d ≠ 0) fun i _ => ?_).imp
    fun found hfound hnone i hlo hhi => hfound.1 hnone i (mem_positions.2 ⟨hlo, hhi⟩) rfl
  refine Storage.ends_read.bind fun d hd => ?_
  rw [Ends.pure_iff]
  refine fun hlarge => ⟨d, hd, fun hzero => of_decide_eq_false hlarge ?_⟩
  rw [ExactReal.le_iff, ExactReal.value_abs, hzero, abs_zero]
  exact hsmall

omit [ExactReal ρ] in
/-- The two entries of a corner that the divisors depend on. -/
theorem ends_corner_last (b : Bidiagonal ρ) (lo hi : ℕ) :
    Ends Always (fun c => b.diag[hi - 1]? = some c.previous ∧
      b.offDiag[hi - 1]? = some c.besideLast) (b.corner lo hi) := by
  unfold corner
  refine Ends.always.bind fun last _ => Storage.ends_read.bind fun previous hprevious => ?_
  refine Storage.ends_read.bind fun besideLast hbesideLast => ?_
  refine Ends.ite_bind Ends.always fun besidePrevious _ => ?_
  refine Ends.always.bind fun first _ => Ends.always.bind fun besideFirst _ => ?_
  exact ⟨hprevious, hbesideLast⟩

/-- The last two entries of a block are not zero, if the one beside the diagonal is not
negligible and no entry on it counts as zero. -/
theorem ends_corner_dividesOffZero (hlo : lo < hi)
    (hbeside : ∃ e, b.offDiag[hi - 1]? = some e ∧ value e ≠ 0)
    (hdiag : ∀ i, lo ≤ i → i < hi → ∃ d, b.diag[i]? = some d ∧ value d ≠ 0) :
    Ends Always Corner.DividesOffZero (b.corner lo hi) := by
  obtain ⟨e, he, hne⟩ := hbeside
  obtain ⟨d, hd, hnd⟩ := hdiag (hi - 1) (Nat.le_sub_one_of_lt hlo) (by omega)
  refine (ends_corner_last b lo hi).imp fun c hc => ?_
  rw [hd, he, Option.some.injEq, Option.some.injEq] at hc
  exact Corner.dividesOffZero (hc.2 ▸ hne) (hc.1 ▸ hnd)

/-! ### Passes -/

theorem chase_withDiv (hdiv : AgreesOffZero div) (b : Bidiagonal ρ) (row hi : ℕ) :
    @chase ρ (RealScalar.withDiv div) b row hi = b.chase row hi := by
  have hstep (s : Chase ρ) (j : ℕ) :
      @Chase.step ρ (RealScalar.withDiv div) row hi s j = s.step row hi j := by
    unfold Chase.step
    simp only [Rotation.ofPair_withDiv hdiv]
    rfl
  unfold chase
  refine bind_congr fun d => bind_congr fun moved => ?_
  refine bind_congr fun diag => bind_congr fun offDiag => ?_
  exact congrArg (fun s : Except Failure (Chase ρ) => s >>= fun s => pure s.form)
    (foldlM_congr (fun s j _ => hstep s j) _)

/-- A sweep divides by the size of its corner and by the divisor of the shift. -/
theorem sweep_withDiv (hdiv : AgreesOffZero div)
    (hcorner : Ends Always Corner.DividesOffZero (b.corner lo hi)) :
    @sweep ρ (RealScalar.withDiv div) b lo hi = b.sweep lo hi := by
  have hstep (s : Sweep ρ) (k : ℕ) :
      @Sweep.step ρ (RealScalar.withDiv div) lo hi s k = s.step lo hi k := by
    unfold Sweep.step
    simp only [Rotation.ofPair_withDiv hdiv]
    rfl
  unfold sweep
  refine Ends.bind_congr hcorner fun entries hentries => ?_
  have hdivided := Corner.dividedBy_withDiv hdiv entries hentries.size_pos.ne'
  have hshift := Corner.shift_withDiv hdiv hentries.divisor_ne_zero
  refine congrArg (fun s : Except Failure (Sweep ρ) => s >>= fun s => pure s.form)
    ((foldlM_congr (fun s k _ => hstep s k) _).trans ?_)
  show (positions lo hi).foldlM (Sweep.step lo hi)
    { form := b
      x := (@Corner.dividedBy ρ (RealScalar.withDiv div) entries entries.size).first *
        (@Corner.dividedBy ρ (RealScalar.withDiv div) entries entries.size).first -
          @Corner.shift ρ (RealScalar.withDiv div)
            (@Corner.dividedBy ρ (RealScalar.withDiv div) entries entries.size)
      z := (@Corner.dividedBy ρ (RealScalar.withDiv div) entries entries.size).first *
        (@Corner.dividedBy ρ (RealScalar.withDiv div) entries entries.size).besideFirst } = _
  rw [hdivided, hshift]

/-- A pass sweeps only if no diagonal entry counts as zero. -/
theorem pass_withDiv (hdiv : AgreesOffZero div) {small : ρ} (hsmall : 0 ≤ value small)
    (hlo : lo < hi) (hbeside : ∃ e, b.offDiag[hi - 1]? = some e ∧ value e ≠ 0) :
    @pass ρ (RealScalar.withDiv div) b small lo hi = b.pass small lo hi := by
  refine Ends.bind_congr (x := b.firstSmall small lo hi) (ends_firstSmall hsmall b lo hi)
    fun found hfound => ?_
  cases found with
  | some row => exact chase_withDiv hdiv b row hi
  | none => exact sweep_withDiv hdiv (ends_corner_dividesOffZero hlo hbeside (hfound rfl))

/-! ### Iteration -/

omit [ExactReal ρ] in
theorem blockStart_withDiv (div : ρ → ρ → ρ) (b : Bidiagonal ρ) (last : ℕ) :
    @blockStart ρ (RealScalar.withDiv div) b last = b.blockStart last := by
  induction last with
  | zero => rfl
  | succ lo ih =>
      unfold blockStart
      rw [ih]
      rfl

/-- The block of a pass, and the entry that is not negligible at its end. -/
theorem ends_blockStart_apart {last : ℕ} (hbeside : ∃ e, b.offDiag[last]? = some e ∧ value e ≠ 0) :
    Ends Always (fun found => found.2 < last + 1 ∧
      ∃ e, found.1.offDiag[last + 1 - 1]? = some e ∧ value e ≠ 0) (b.blockStart last) := by
  refine (b.blockStart_keeps last).imp fun found hfound => ⟨Nat.lt_succ_of_le hfound.2, ?_⟩
  rw [Nat.add_sub_cancel, hfound.1.offDiag last le_rfl]
  exact hbeside

/-- The iteration divides by no zero, however many passes it makes. -/
theorem iterate_withDiv (hε : 0 ≤ value (RealScalar.epsilon : ρ)) (hdiv : AgreesOffZero div)
    {small : ρ} (hsmall : 0 ≤ value small) (b : Bidiagonal ρ) (budget hi : ℕ) :
    @iterate ρ (RealScalar.withDiv div) small b budget hi = iterate small b budget hi := by
  -- a pass spends the budget, and with the same budget the block only shrinks
  induction budget using Nat.strong_induction_on generalizing b hi with
  | _ budget ihbudget =>
    induction hi generalizing b with
    | zero =>
        rw [@iterate.eq_def ρ (RealScalar.withDiv div), iterate]
    | succ last ih =>
        rw [@iterate.eq_def ρ (RealScalar.withDiv div), iterate]
        refine Ends.bind_congr (ends_isNegligible_apart hε b last) fun negligible hapart => ?_
        cases negligible with
        | true => exact bind_congr fun b' : Bidiagonal ρ => ih b'
        | false =>
            show (@blockStart ρ (RealScalar.withDiv div) b last >>= _) = (b.blockStart last >>= _)
            rw [blockStart_withDiv]
            refine Ends.bind_congr (ends_blockStart_apart (hapart rfl)) fun found hfound => ?_
            cases budget with
            | zero => rfl
            | succ budget =>
                show (@pass ρ (RealScalar.withDiv div) found.1 small found.2 (last + 1) >>= _) =
                  (found.1.pass small found.2 (last + 1) >>= _)
                rw [pass_withDiv hdiv hsmall hfound.1 hfound.2]
                exact bind_congr fun b' => ihbudget budget (Nat.lt_succ_self budget) b' (last + 1)

theorem diagonalize_withDiv (hε : 0 ≤ value (RealScalar.epsilon : ρ)) (hdiv : AgreesOffZero div)
    (b : Bidiagonal ρ) (budget : ℕ) :
    @diagonalize ρ (RealScalar.withDiv div) b budget = b.diagonalize budget := by
  have hiterate := iterate_withDiv hε hdiv (small_nonneg hε b) b budget (b.diag.size - 1)
  exact congrArg (fun b : Except Failure (Bidiagonal ρ) => do
    let b ← b
    let rows := positions 0 b.diag.size
    let b ← rows.foldlM makeNonNegative b
    rows.foldlM selectLargest b) hiterate

/-! ### Runs -/

omit [ExactReal ρ] in
/-- A pass over a block in which no diagonal entry counts as zero is a sweep. -/
theorem pass_eq_sweep {small : ρ} (h : b.firstSmall small lo hi = .ok none) :
    b.pass small lo hi = b.sweep lo hi := by
  unfold firstSmall at h
  unfold pass
  rw [h]
  rfl

/-- A state of the iteration: rows `0` to `hi` of the form are left, with a budget of passes. -/
structure State (ρ : Type) where
  form : Bidiagonal ρ
  budget : ℕ
  hi : ℕ

/-- The state the iteration begins with. -/
def State.initial (b : Bidiagonal ρ) (budget : ℕ) : State ρ := ⟨b, budget, b.diag.size - 1⟩

/-- What is left to do from a state. -/
def State.run (small : ρ) (s : State ρ) : Except Failure (Bidiagonal ρ) :=
  iterate small s.form s.budget s.hi

/-- The form that the next pass is made on, and the first row of its block. -/
inductive State.Enters : State ρ → Bidiagonal ρ → ℕ → Prop
  | block {form b : Bidiagonal ρ} {budget last lo : ℕ} (apart : form.isNegligible last = .ok false)
      (start : form.blockStart last = .ok (b, lo)) : Enters ⟨form, budget + 1, last + 1⟩ b lo

/-- The last row is split off, or a pass is made. -/
inductive State.Next (small : ρ) : State ρ → State ρ → Prop
  | deflate {form b : Bidiagonal ρ} {budget last : ℕ} (apart : form.isNegligible last = .ok true)
      (split : form.split last = .ok b) : Next small ⟨form, budget, last + 1⟩ ⟨b, budget, last⟩
  | pass {form b b' : Bidiagonal ρ} {budget hi lo : ℕ} (enters : Enters ⟨form, budget + 1, hi⟩ b lo)
      (made : b.pass small lo hi = .ok b') : Next small ⟨form, budget + 1, hi⟩ ⟨b', budget, hi⟩

namespace State

variable {small : ρ} {s t : State ρ}

omit [ExactReal ρ] in
/-- The states are those of the run. -/
theorem Next.run_eq (h : s.Next small t) : s.run small = t.run small := by
  cases h with
  | @deflate form b budget last apart split =>
      show iterate small form budget (last + 1) = iterate small b budget last
      rw [iterate, apart]
      show (form.split last >>= fun b => iterate small b budget last) = _
      rw [split]
      rfl
  | @pass form b b' budget hi lo enters made =>
      cases enters with
      | @block _ _ _ last _ apart start =>
          show iterate small form (budget + 1) (last + 1) = iterate small b' budget (last + 1)
          rw [iterate, apart]
          show (form.blockStart last >>= fun found =>
            found.1.pass small found.2 (last + 1) >>= fun b =>
              iterate small b budget (last + 1)) = _
          rw [start]
          show (b.pass small lo (last + 1) >>= fun b => iterate small b budget (last + 1)) = _
          rw [made]
          rfl

/-- The form has its shape, and the last row is one of it. -/
def HasShape (s : State ρ) (m n : ℕ) : Prop := s.form.HasShape m n ∧ (s.hi = 0 ∨ s.hi < n)

omit [ExactReal ρ] in
/-- The next pass is made on a form of the same shape. -/
theorem Enters.hasShape (h : s.Enters b lo) (hs : s.HasShape m n) :
    b.HasShape m n ∧ lo < s.hi ∧ s.hi < n := by
  cases h with
  | block apart start =>
      have hlast := hs.2.resolve_left (Nat.succ_ne_zero _)
      obtain ⟨hb, hlo⟩ := (hs.1.blockStart (E := Always) (Nat.lt_of_succ_lt hlast)).of_ok start
      exact ⟨hb, Nat.lt_succ_of_le hlo, hlast⟩

omit [ExactReal ρ] in
theorem Next.hasShape (htall : n ≤ m) (h : s.Next small t) (hs : s.HasShape m n) :
    t.HasShape m n := by
  cases h with
  | deflate apart split =>
      have hlast := hs.2.resolve_left (Nat.succ_ne_zero _)
      exact ⟨(hs.1.split (E := Always) hlast).of_ok split, Or.inr (Nat.lt_of_succ_lt hlast)⟩
  | pass enters made =>
      obtain ⟨hb, hlo, hhi⟩ := enters.hasShape hs
      exact ⟨(hb.pass (E := Always) htall small hlo hhi).of_ok made, hs.2⟩

omit [ExactReal ρ] in
/-- Every state that is reached is one of the run, and has the shape of the form that the
iteration began with. -/
theorem reached (htall : n ≤ m) (hb : b.HasShape m n) {budget : ℕ}
    (hs : Relation.ReflTransGen (Next small) (initial b budget) s) :
    s.run small = (initial b budget).run small ∧ s.HasShape m n := by
  induction hs with
  | refl =>
      refine ⟨rfl, hb, ?_⟩
      show b.diag.size - 1 = 0 ∨ b.diag.size - 1 < n
      rw [hb.diag]
      omega
  | tail _ hnext ih => exact ⟨hnext.run_eq.symm.trans ih.1, hnext.hasShape htall ih.2⟩

/-- A pass that sweeps divides by no zero. -/
theorem Enters.dividesOffZero (hε : 0 ≤ value (RealScalar.epsilon : ρ)) (hsmall : 0 ≤ value small)
    (h : s.Enters b lo) (hs : s.HasShape m n) (hsweep : b.firstSmall small lo s.hi = .ok none) :
    ∃ c, b.corner lo s.hi = .ok c ∧ c.DividesOffZero := by
  obtain ⟨hb, hlo, hhi⟩ := h.hasShape hs
  have hdiag := (ends_firstSmall hsmall b lo s.hi).of_ok hsweep rfl
  have hcorner : Ends Always Corner.DividesOffZero (b.corner lo s.hi) := by
    cases h with
    | block apart start =>
        have hapart := (ends_isNegligible_apart hε _ _).of_ok apart rfl
        exact ends_corner_dividesOffZero hlo ((ends_blockStart_apart hapart).of_ok start).2 hdiag
  exact Ends.never_iff.1 (hcorner.failing (hb.failsOnly_corner hlo hhi))

end State

end SVD.Bidiagonal

/-! ### Decompositions -/

namespace SVD

open Bidiagonal (State)

/-- A matrix is divided by its largest entry only if that is positive. -/
theorem scaledDown_withDiv (hdiv : AgreesOffZero div) (a : DenseMatrix ρ) :
    @scaledDown ρ (RealScalar.withDiv div) a (scale? a) = scaledDown a (scale? a) := by
  unfold scale?
  by_cases hscale : (decide (0 < a.maxModulus) && RealScalar.isFinite a.maxModulus) = true
  · have hpos : value a.maxModulus ≠ 0 := by
      have hlt := of_decide_eq_true (Bool.and_eq_true_iff.1 hscale).1
      rw [ExactReal.lt_iff, ExactScalar.value_zero'] at hlt
      exact hlt.ne'
    simp only [if_pos hscale]
    show ({ a with data := a.data.map (div · a.maxModulus) } : DenseMatrix ρ) = _
    simp only [hdiv _ _ hpos]
    rfl
  · simp only [if_neg hscale]
    rfl

theorem factorize_withDiv (hε : 0 ≤ value (RealScalar.epsilon : ρ))
    (hmin : 0 ≤ value (RealScalar.minPositive : ρ)) (hdiv : AgreesOffZero div)
    (a : DenseMatrix ρ) : @factorize ρ (RealScalar.withDiv div) a = factorize a := by
  have htall (a : DenseMatrix ρ) : @ofTall ρ (RealScalar.withDiv div) a = ofTall a := by
    show (@Bidiagonal.ofTall ρ (RealScalar.withDiv div)
      (@scaledDown ρ (RealScalar.withDiv div) a (scale? a)) >>= _) = _
    rw [scaledDown_withDiv hdiv, Bidiagonal.ofTall_withDiv hmin hdiv]
    refine bind_congr fun b => ?_
    by_cases hnan : b.hasNaN = true
    · rw [if_pos hnan]
      exact if_pos hnan
    · rw [if_neg hnan]
      refine (if_neg hnan).trans ?_
      rw [Bidiagonal.diagonalize_withDiv hε hdiv]
      rfl
  unfold factorize
  rw [htall]
  simp only [htall]

omit [RealScalar ρ] [ExactReal ρ] in
/-- The upright matrix has no fewer rows than columns. -/
theorem ends_upright_shape {E : Failure → Prop} {a : DenseMatrix ρ} (ha : a.HasShape m n) :
    Ends E (·.HasShape (max m n) (min m n)) (upright a) := by
  unfold upright
  rw [ha.nrows, ha.ncols]
  by_cases hnm : n ≤ m
  · rw [if_pos hnm, max_eq_left hnm, min_eq_right hnm]
    exact ha
  · have hmn : m ≤ n := (not_le.1 hnm).le
    rw [if_neg hnm, max_eq_right hmn, min_eq_left hmn]
    exact ha.transpose

section Main

variable {A : Matrix (Fin m) (Fin n) ρ} {a : MatrixView ρ}

/-- **The decomposition divides by no zero.** With any other division that agrees on the divisors
that are not zero, every rotation and the whole decomposition are the same. In particular a
reflection that is made has a length `σ` and a head `first + σ` that are not zero. And whatever
matrix the iteration starts with, at every pass of its run that sweeps a block the size of the
corner is positive, and the divisor of the shift, half the difference `d` of the trailing block
moved away from zero by `√(d² + t₁₂²)`, is not zero. -/
theorem divides_off_zero (ha : a.Shows A) (hε : 0 ≤ value (RealScalar.epsilon : ρ))
    (hmin : 0 ≤ value (RealScalar.minPositive : ρ)) :
    (∀ div : ρ → ρ → ρ, AgreesOffZero div →
      (∀ x y : ρ, @Rotation.ofPair ρ (RealScalar.withDiv div) x y = Rotation.ofPair x y) ∧
      @SVD.of ρ (RealScalar.withDiv div) a = SVD.of a) ∧
    (∀ (vector : ℕ → Except Failure ρ) (head stop : ℕ) (h : Reflection ρ),
      Reflection.ofVector? vector head stop = .ok (some h) →
      ∃ first σ : ρ, vector head = .ok first ∧ h.image = -σ ∧ h.factor = (first + σ) / σ ∧
        value σ ≠ 0 ∧ value (first + σ) ≠ 0) ∧
    ∃ (dense w : DenseMatrix ρ) (form : Bidiagonal ρ),
      DenseMatrix.ofView a = .ok dense ∧ upright dense = .ok w ∧
      Bidiagonal.ofTall (scaledDown w (scale? w)) = .ok form ∧
      let small := RealScalar.epsilon * form.scale
      let initial := State.initial form (30 * max w.nrows w.ncols)
      ∀ s, Relation.ReflTransGen (State.Next small) initial s → s.run small = initial.run small ∧
        ∀ b lo, s.Enters b lo → b.firstSmall small lo s.hi = .ok none →
          b.pass small lo s.hi = b.sweep lo s.hi ∧
          ∃ c, b.corner lo s.hi = .ok c ∧ 0 < value c.size ∧
            value (c.dividedBy c.size).divisor ≠ 0 := by
  refine ⟨fun div hdiv => ⟨Rotation.ofPair_withDiv hdiv, ?_⟩, fun vector head stop h hh => ?_, ?_⟩
  · refine bind_congr fun dense => ?_
    rw [factorize_withDiv hε hmin hdiv]
    rfl
  · exact (Reflection.ends_ofVector?_divisors hmin vector head stop).of_ok hh h rfl
  obtain ⟨dense, hdense, hstores⟩ := Ends.never_iff.1 ha.ofView
  obtain ⟨w, hw, hshape⟩ := Ends.never_iff.1 (ends_upright_shape hstores.hasShape)
  have htall : min m n ≤ max m n := min_le_max
  obtain ⟨form, hform, hformShape⟩ := Ends.never_iff.1
    (Bidiagonal.ends_ofTall_shape (hasShape_scaledDown hshape (scale? w)) htall)
  refine ⟨dense, w, form, hdense, hw, hform, fun s hs => ?_⟩
  obtain ⟨hrun, hsShape⟩ := State.reached htall hformShape hs
  refine ⟨hrun, fun b lo henters hsweep => ⟨Bidiagonal.pass_eq_sweep hsweep, ?_⟩⟩
  obtain ⟨c, hc, hsize, hdivisor⟩ :=
    henters.dividesOffZero hε (Bidiagonal.small_nonneg hε form) hsShape hsweep
  exact ⟨c, hc, hsize, hdivisor⟩

/-- A triangular matrix of two rows whose vectors are too short to be reflected. The iteration
begins with a sweep. -/
theorem divides_off_zero_two :
    letI := exactReal 0 8
    letI := exactReal.exact 0 8
    let m : DenseMatrix ℝ := ⟨2, 2, #[1, 1, 0, 1]⟩
    (@SVD.of ℝ (RealScalar.withDiv fun x y => if y = 0 then 5 else x / y) m.view =
      SVD.of m.view) ∧
    (∃ (h : Reflection ℝ) (σ : ℝ), Reflection.ofVector? (fun _ => .ok 3) 0 1 = .ok (some h) ∧
      h.factor = (3 + σ) / σ ∧ σ ≠ 0 ∧ 3 + σ ≠ 0) ∧
    ∃ (form : Bidiagonal ℝ) (c : Bidiagonal.Corner ℝ), Bidiagonal.ofTall m = .ok form ∧
      (State.initial form 60).Enters form 0 ∧ form.pass 0 0 1 = form.sweep 0 1 ∧
      form.corner 0 1 = .ok c ∧ 0 < c.size ∧ (c.dividedBy c.size).divisor ≠ 0 := by
  let real := exactReal 0 8
  let := exactReal.exact 0 8
  intro m
  have hm : m.Stores (!![1, 1; 0, 1] : Matrix (Fin 2) (Fin 2) ℝ) := by
    refine ⟨rfl, rfl, rfl, fun i j => ?_⟩
    fin_cases i <;> fin_cases j <;> rfl
  have hmin : (0 : ℝ) ≤ 8 := by norm_num
  obtain ⟨hdiv, hreflection, dense, w, form, hdense, hw, hform, hrun⟩ :=
    divides_off_zero hm.view le_rfl hmin
  obtain rfl : m = dense :=
    Except.ok.inj ((DenseMatrix.WellFormed.ofView_view hm.wellFormed).symm.trans hdense)
  obtain rfl : m = w := Except.ok.inj hw
  have hlargest : (m.maxModulus : ℝ) = 1 := by
    simp [DenseMatrix.maxModulus, DenseMatrix.moduli, EuclideanScalar.modulus, RealScalar.largest,
      RealScalar.maximum, RealScalar.isNaN, RealScalar.abs, m, real]
  have hscaled : scaledDown m (scale? m) = m := by
    simp [scale?, scaledDown, hlargest, RealScalar.isFinite, real, m]
  rw [hscaled] at hform
  have hreduced : Ends Never (fun b => b.diag = #[1, 1] ∧ b.offDiag = #[(1 : ℝ)])
      (Bidiagonal.ofTall m) := by
    obtain ⟨u, hu, -⟩ := Ends.never_iff.1 (DenseMatrix.ends_identity (K := ℝ) (α := ℝ) 2)
    simp [Bidiagonal.ofTall, Bidiagonal.Reduction.step, Bidiagonal.Reduction.reflectColumn,
      Bidiagonal.Reduction.reflectRow, Bidiagonal.absoluteSum, Reflection.ofVector?, positions,
      foldPositions, List.range', DenseMatrix.entry_eq_storedAt, DenseMatrix.storedAt, Storage.read,
      RealScalar.minPositive, hu, m, real]
  obtain ⟨hdiag, hoffDiag⟩ := hreduced.of_ok hform
  have hhi : form.diag.size - 1 = 1 := congrArg (fun d : Array ℝ => d.size - 1) hdiag
  have henters : (State.initial form 60).Enters form 0 := by
    have hapart : form.isNegligible 0 = .ok false := by
      norm_num [Bidiagonal.isNegligible, Storage.read, RealScalar.abs, RealScalar.epsilon, bind,
        Except.bind, pure, Except.pure, hdiag, hoffDiag, real]
    unfold State.initial
    rw [hhi]
    exact .block hapart rfl
  have hsmall : (RealScalar.epsilon * form.scale : ℝ) = 0 := zero_mul _
  have hlarge : form.firstSmall (RealScalar.epsilon * form.scale) 0 (form.diag.size - 1) =
      .ok none := by
    rw [hsmall, hhi]
    simp [Bidiagonal.firstSmall, positions, Storage.read, RealScalar.abs, bind, Except.bind, pure,
      Except.pure, hdiag, real]
  obtain ⟨hsweep, c, hc, hsize, hdivisor⟩ := (hrun _ .refl).2 form 0 henters hlarge
  have hsweep : form.pass (RealScalar.epsilon * form.scale) 0 (form.diag.size - 1) =
      form.sweep 0 (form.diag.size - 1) := hsweep
  have hc : form.corner 0 (form.diag.size - 1) = .ok c := hc
  rw [hhi] at hsweep hc
  rw [hsmall] at hsweep
  obtain ⟨h, hh⟩ : ∃ h : Reflection ℝ,
      Reflection.ofVector? (fun _ => .ok 3) 0 1 = .ok (some h) := by
    have hlong : (8 : ℝ) < 3 * 3 := by norm_num
    simp [Reflection.ofVector?, foldPositions, positions, Storage.collect, RealScalar.minPositive,
      hlong, Array.mapM_eq_mapM_toList, List.range_succ, bind, Except.bind, pure, Except.pure,
      Functor.map, Except.map, real]
  obtain ⟨first, σ, hfirst, -, hfactor, hσ, hhead⟩ := hreflection _ 0 1 h hh
  obtain rfl : 3 = first := Except.ok.inj hfirst
  exact ⟨(hdiv _ fun x y hy => if_neg hy).2, ⟨h, σ, hh, hfactor, hσ, hhead⟩, form, c, hform,
    henters, hsweep, hc, hsize, hdivisor⟩

end Main

end SVD

end DenseFactor
