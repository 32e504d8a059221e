import Mathlib
import DenseFactor.Proofs.Scalar.Quotient
import DenseFactor.Proofs.SVD.NaN
import DenseFactor.Proofs.SVD.Shape

/-!
# DenseFactor.Proofs.SVD.Condition

The **condition numbers** of rounded arithmetic, as far as they say anything.

Design points:

* Either number is one division, of the first and the last singular value. So all there is to
  know comes from what singular values are: numbers that are not negative and in descending
  order, or all NaN (`Factors.Sound`).
* Two zeros have no quotient, and two infinities have none either. The first happens for every
  matrix of zeros, the second where the singular values overflow.
* A zero keeps its sign through the iteration: the sign of an entry is changed if it is below
  zero, and a negative zero is not. The larger singular values over it are negative infinity.
* Apart from these the numbers are what they should be (`Quotients.meaningful_iff`).
-/

namespace DenseFactor.SVD

open BinaryScalar
open Float.Model Float.Model.UnpackedFloat

variable {ρ : Type}

/-! ### The extreme singular values -/

/-- The first and the last of a run of singular values. -/
structure Extremes (values : Array ρ) (largest smallest : ρ) : Prop where
  head : values.toList.head? = some largest
  last : values.toList.getLast? = some smallest

theorem exists_extremes {values : Array ρ} (h : 0 < values.size) :
    ∃ largest smallest, Extremes values largest smallest := by
  have hne : values.toList ≠ [] := by
    rw [← List.length_pos_iff_ne_nil, Array.length_toList]
    exact h
  exact ⟨_, _, List.head?_eq_some_head hne, List.getLast?_eq_some_getLast hne⟩

namespace Extremes

variable {values : Array ρ} {largest smallest : ρ}

theorem largest_mem (h : Extremes values largest smallest) : largest ∈ values :=
  Array.mem_toList_iff.1 (List.mem_of_head? h.head)

theorem smallest_mem (h : Extremes values largest smallest) : smallest ∈ values :=
  Array.mem_toList_iff.1 (List.mem_of_getLast? h.last)

variable [RealScalar ρ]

/-- The singular values descend from the first to the last. -/
theorem le [BinaryScalar ρ] (h : Extremes values largest smallest) (hvalues : WellFormed values) :
    smallest ≤ largest := by
  have hself := le_refl (hvalues.number _ h.largest_mem)
  have hdescending := hvalues.descending
  obtain ⟨hhead, hlast⟩ := h
  cases hlist : values.toList with
  | nil => simp [hlist] at hhead
  | cons first rest =>
      rw [hlist] at hhead hlast hdescending
      obtain rfl : first = largest := by simpa using hhead
      rcases List.mem_cons.1 (List.mem_of_getLast? hlast) with rfl | hrest
      · exact hself
      · exact List.rel_of_pairwise_cons hdescending hrest

theorem conditionNumber {s : SVD ρ} (h : Extremes s.values largest smallest) :
    s.conditionNumber = largest / smallest := by
  rw [SVD.conditionNumber, extremes, h.head, h.last]

theorem inverseConditionNumber {s : SVD ρ} (h : Extremes s.values largest smallest) :
    s.inverseConditionNumber = smallest / largest := by
  rw [SVD.inverseConditionNumber, extremes, h.head, h.last]

end Extremes

/-! ### Their quotients -/

variable [RealScalar ρ] [BinaryScalar ρ]

/-- A condition number and its inverse say what they should: the one is no less than one, and
infinity if the smallest singular value is a zero, and the other is between zero and one. -/
structure Meaningful (smallest number inverse : ρ) : Prop where
  one_le : 1 ≤ number
  infinite (h : Scalar.isZero smallest = true) : unpacked number = .infinity .positive
  inverse_nonneg : 0 ≤ inverse
  inverse_le : inverse ≤ 1

/-- What the quotients of the largest and the smallest singular value are. -/
structure Quotients (largest smallest number inverse : ρ) : Prop where
  /-- Two zeros have no quotient, and neither have two infinities. -/
  isNaN_iff : RealScalar.isNaN number = true ↔
    Scalar.isZero largest = true ∨ unpacked smallest = .infinity .positive
  inverse_isNaN_iff : RealScalar.isNaN inverse = true ↔
    Scalar.isZero largest = true ∨ unpacked smallest = .infinity .positive
  /-- Over a zero stands an infinity of its sign. -/
  over_zero (s : Sign) (hlargest : Scalar.isZero largest = false)
    (hsmallest : unpacked smallest = .zero s) : unpacked number = .infinity s
  one_le (hsmallest : 0 < smallest) (hfinite : RealScalar.isFinite smallest = true) : 1 ≤ number
  inverse_mem (hnumber : RealScalar.isNaN inverse = false) : 0 ≤ inverse ∧ inverse ≤ 1

section Quotients

variable {largest smallest number inverse : ρ}

theorem Quotients.of_zeros (hlargest : Scalar.isZero largest = true)
    (hsmallest : Scalar.isZero smallest = true) :
    Quotients largest smallest (largest / smallest) (smallest / largest) where
  isNaN_iff := iff_of_true (isNaN_div_isZero hlargest hsmallest) (.inl hlargest)
  inverse_isNaN_iff := iff_of_true (isNaN_div_isZero hsmallest hlargest) (.inl hlargest)
  over_zero _ h := absurd (h.symm.trans hlargest) Bool.false_ne_true
  one_le h := absurd hsmallest (not_isZero_of_pos h)
  inverse_mem h := absurd (h.symm.trans (isNaN_div_isZero hsmallest hlargest)) Bool.false_ne_true

theorem Quotients.of_infinities (hlargest : unpacked largest = .infinity .positive)
    (hsmallest : unpacked smallest = .infinity .positive) :
    Quotients largest smallest (largest / smallest) (smallest / largest) where
  isNaN_iff := iff_of_true (isNaN_div_infinity hlargest hsmallest) (.inr hsmallest)
  inverse_isNaN_iff := iff_of_true (isNaN_div_infinity hsmallest hlargest) (.inr hsmallest)
  over_zero s _ h := by rw [h] at hsmallest; cases hsmallest
  one_le _ h := by
    rw [isFinite_eq, hsmallest] at h
    exact absurd h Bool.false_ne_true
  inverse_mem h :=
    absurd (h.symm.trans (isNaN_div_infinity hsmallest hlargest)) Bool.false_ne_true

/-- With the largest singular value positive and the smallest finite, both quotients are
numbers. -/
theorem Quotients.of_pos (hlargest : 0 < largest) (hsmallest : 0 ≤ smallest)
    (hfinite : RealScalar.isFinite smallest = true) (hle : smallest ≤ largest) :
    Quotients largest smallest (largest / smallest) (smallest / largest) := by
  have hinverse := div_le_one hsmallest hfinite hle hlargest
  have hneither : ¬ (Scalar.isZero largest = true ∨ unpacked smallest = .infinity .positive) := by
    rintro (hzero | htop)
    · exact not_isZero_of_pos hlargest hzero
    · rw [isFinite_eq, htop] at hfinite
      exact Bool.false_ne_true hfinite
  have hnumber : RealScalar.isNaN (largest / smallest) = false := by
    rcases nonneg_cases hsmallest with ⟨s, hzero⟩ | ⟨hpos, -⟩ | htop
    · rw [isNaN_eq, unpacked_div_zero hlargest hzero]
      rfl
    · exact (le_iff_place.1 (one_le_div hpos hfinite hle)).1.2
    · exact absurd (.inr htop) hneither
  refine ⟨iff_of_false ?_ hneither, iff_of_false ?_ hneither,
    fun s _ h => unpacked_div_zero hlargest h, fun hpos _ => one_le_div hpos hfinite hle,
    fun _ => hinverse⟩
  · rw [hnumber]
    exact Bool.false_ne_true
  · rw [(le_iff_place.1 hinverse.1).1.2]
    exact Bool.false_ne_true

/-- These are all cases. -/
theorem Quotients.of_le (hsmallest : 0 ≤ smallest) (hle : smallest ≤ largest) :
    Quotients largest smallest (largest / smallest) (smallest / largest) := by
  rcases nonneg_cases hsmallest with ⟨s, hzero⟩ | ⟨hpos, hfinite⟩ | htop
  · have hzero' : Scalar.isZero smallest = true := isZero_iff.2 ⟨s, hzero⟩
    have hfinite := isFinite_of_isZero hzero'
    rcases nonneg_cases (le_trans hsmallest hle) with ⟨t, hlargest⟩ | ⟨hlargest, -⟩ | hlargest
    · exact .of_zeros (isZero_iff.2 ⟨t, hlargest⟩) hzero'
    · exact .of_pos hlargest hsmallest hfinite hle
    · exact .of_pos (pos_of_infinity hlargest) hsmallest hfinite hle
  · exact .of_pos (lt_of_lt_of_le hpos hle) hsmallest hfinite hle
  · exact .of_infinities (infinity_of_le htop hle) htop

/-- Both numbers say what they should exactly if the singular values are not all zeros, not all
infinite, and do not end with a negative zero. -/
theorem Quotients.meaningful_iff (h : Quotients largest smallest number inverse)
    (hsmallest : 0 ≤ smallest) : Meaningful smallest number inverse ↔
      Scalar.isZero largest = false ∧ unpacked smallest ≠ .infinity .positive ∧
        unpacked smallest ≠ .zero .negative := by
  constructor
  · intro hmeaningful
    have hnumber := (le_iff_place.1 hmeaningful.one_le).1.2
    have hneither := h.isNaN_iff.not.1 (Bool.eq_false_iff.1 hnumber)
    have hlargest := Bool.eq_false_of_not_eq_true fun hzero => hneither (.inl hzero)
    refine ⟨hlargest, fun htop => hneither (.inr htop), fun hzero => ?_⟩
    have hinfinite := hmeaningful.infinite (isZero_iff.2 ⟨_, hzero⟩)
    rw [h.over_zero _ hlargest hzero] at hinfinite
    cases hinfinite
  · rintro ⟨hlargest, htop, hnegative⟩
    have hneither : ¬ (Scalar.isZero largest = true ∨ unpacked smallest = .infinity .positive) :=
      not_or.2 ⟨Bool.eq_false_iff.1 hlargest, htop⟩
    have hnumber := Bool.eq_false_of_not_eq_true (h.inverse_isNaN_iff.not.2 hneither)
    have hinverse := h.inverse_mem hnumber
    have hzero (hsmallest : Scalar.isZero smallest = true) :
        unpacked number = .infinity .positive := by
      obtain ⟨s, hs⟩ := isZero_iff.1 hsmallest
      cases s with
      | positive => exact h.over_zero _ hlargest hs
      | negative => exact absurd hs hnegative
    refine ⟨?_, hzero, hinverse.1, hinverse.2⟩
    rcases nonneg_cases hsmallest with ⟨s, hs⟩ | ⟨hpos, hfinite⟩ | hs
    · exact one_le_of_infinity (hzero (isZero_iff.2 ⟨s, hs⟩))
    · exact h.one_le hpos hfinite
    · exact absurd hs htop

end Quotients

/-! ### Decompositions -/

omit [BinaryScalar ρ] in
/-- The singular values of a matrix whose form has two entries that are split at once. -/
theorem ends_of_pair {a : MatrixView ρ} {P : Array ρ → Prop}
    (hrun : Ends Never (fun dense => dense.ncols ≤ dense.nrows ∧
      Ends Never (fun b => (¬ b.hasNaN = true) ∧ b.diag.size = 2 ∧
        Ends Never (· = true) (b.isNegligible 0) ∧
        Ends Never (fun b' => Ends Never (fun b'' => Ends Never (fun form =>
              P (scaledUp form.diag (scale? dense)) ∧ Ends Never (fun _ => True)
                (DenseMatrix.tabulate dense.nrows dense.ncols form.u.entry))
              ((positions 0 b'.diag.size).foldlM Bidiagonal.selectLargest b''))
              ((positions 0 b'.diag.size).foldlM Bidiagonal.makeNonNegative b'))
            (b.split 0))
        (Bidiagonal.ofTall (scaledDown dense (scale? dense)))) (DenseMatrix.ofView a)) :
    Ends Never (fun s => P s.values) (SVD.of a) := by
  unfold SVD.of ofTolerance?
  refine hrun.bind fun dense ⟨htall, hreduction⟩ => ?_
  have hfactors : Ends Never (fun f => P f.values) (factorize dense) := by
    unfold factorize SVD.ofTall
    rw [if_pos htall]
    refine hreduction.bind fun b ⟨hnan, hsize, hnegligible, hrest⟩ => ?_
    obtain ⟨negligible, hnegligible, rfl⟩ := Ends.never_iff.1 hnegligible
    rw [if_neg hnan, Bidiagonal.diagonalize_of_pair hsize hnegligible]
    have hdiagonal := hrest.bind fun b' hb' => hb'.bind fun b'' hb'' => hb''
    exact hdiagonal.bind fun form ⟨hvalues, hu⟩ => hu.bind fun u _ => hvalues
  exact hfactors.bind fun f hf => hf

/-- What the condition numbers of a decomposition are. -/
inductive Conditioned (s : SVD ρ) : Prop
  /-- All singular values are NaN, and then they are. -/
  | undefined (hvalues : AllNaN s.values) (hnumber : RealScalar.isNaN s.conditionNumber = true)
      (hinverse : RealScalar.isNaN s.inverseConditionNumber = true)
  /-- They are quotients of numbers that descend to one that is not below zero. -/
  | ordered (largest smallest : ρ) (hextremes : Extremes s.values largest smallest)
      (hvalues : WellFormed s.values)
      (hquotients : Quotients largest smallest s.conditionNumber s.inverseConditionNumber)
      (hmeaningful : Meaningful smallest s.conditionNumber s.inverseConditionNumber ↔
        Scalar.isZero largest = false ∧ unpacked smallest ≠ .infinity .positive ∧
          unpacked smallest ≠ .zero .negative)

theorem conditioned {a : MatrixView ρ} {s : SVD ρ} (hrows : 0 < a.nrows) (hcols : 0 < a.ncols)
    (hs : SVD.of a = .ok s) : Conditioned s := by
  obtain ⟨-, f, -, -, hvalues, hsound⟩ := exists_sound hs
  have hreadable := (ends_ofTolerance?_readable none).of_ok hs
  have hshape := ((ends_ofTolerance?_shape hreadable none).failing Ends.always).of_ok hs
  have hsize : 0 < s.values.size := by
    rw [hshape.values]
    exact lt_min hrows hcols
  obtain ⟨largest, smallest, hextremes⟩ := exists_extremes hsize
  have hnumber := hextremes.conditionNumber
  have hinverse := hextremes.inverseConditionNumber
  rw [Factors.Sound, ← hvalues] at hsound
  rcases hsound with hnan | ⟨hwellFormed, -⟩
  · refine .undefined hnan ?_ ?_
    · rw [hnumber]
      exact isNaN_div_of_isNaN (hnan _ hextremes.largest_mem)
    · rw [hinverse]
      exact isNaN_div_of_isNaN (hnan _ hextremes.smallest_mem)
  · have hsmallest := hwellFormed.nonneg _ hextremes.smallest_mem
    have hquotients := Quotients.of_le hsmallest (hextremes.le hwellFormed)
    rw [← hnumber, ← hinverse] at hquotients
    exact .ordered _ _ hextremes hwellFormed hquotients (hquotients.meaningful_iff hsmallest)

/-- A matrix of zeros has no condition number, whatever its shape. -/
theorem ends_zeros [ZeroArithmetic ρ] {m n : ℕ} (hm : 0 < m) (hn : 0 < n) :
    Ends Never (fun s => RealScalar.isNaN s.conditionNumber = true ∧
        RealScalar.isNaN s.inverseConditionNumber = true)
      (SVD.of (MatrixView.ofMatrix (Matrix.of fun (_ : Fin m) (_ : Fin n) => (0 : ρ)))) := by
  have hblank {m n : ℕ} : Blank (Matrix.of fun (_ : Fin m) (_ : Fin n) => (0 : ρ)) :=
    ⟨fun _ _ => .inl rfl, fun _ _ _ => rfl⟩
  refine (of_blank hm hn (fun _ => hblank) fun _ => hblank).imp fun s hs => ?_
  have hzero : Scalar.isZero (0 : ρ) = true := isZero_iff.2 ⟨_, unpacked_zero⟩
  have hextremes : Extremes s.values 0 0 := by
    have hne : min m n ≠ 0 := (lt_min hm hn).ne'
    constructor <;> simp [hs, List.head?_replicate, List.getLast?_replicate, hne]
  rw [hextremes.conditionNumber, hextremes.inverseConditionNumber]
  exact ⟨isNaN_div_isZero hzero hzero, isNaN_div_isZero hzero hzero⟩

/-- What the condition numbers of `m x n` matrices are, and those of zeros. -/
structure ConditionNumbers (ρ : Type) [RealScalar ρ] [BinaryScalar ρ] (m n : ℕ) : Prop where
  conditioned (a : MatrixView ρ) (s : SVD ρ) (hrows : a.nrows = m) (hcols : a.ncols = n)
    (hs : SVD.of a = .ok s) : Conditioned s
  zeros : Ends Never (fun s => RealScalar.isNaN s.conditionNumber = true ∧
      RealScalar.isNaN s.inverseConditionNumber = true)
    (SVD.of (MatrixView.ofMatrix (Matrix.of fun (_ : Fin m) (_ : Fin n) => (0 : ρ))))

theorem conditionNumbers_of_binary [ZeroArithmetic ρ] {m n : ℕ} (hm : 0 < m) (hn : 0 < n) :
    ConditionNumbers ρ m n where
  conditioned _ _ hrows hcols hs := conditioned (hrows ▸ hm) (hcols ▸ hn) hs
  zeros := ends_zeros hm hn

/-- **What condition numbers say.** For every matrix of binary64 or binary32 numbers with a row
and a column that has a decomposition, all singular values and both condition numbers are NaN, or
the singular values descend to one that is not below zero. Then the condition number is at least
one and infinity over a zero, and its inverse is between zero and one, except in three cases: the
singular values are all zeros or all infinite, and both numbers are NaN, or the smallest is a
negative zero below a larger one, and the condition number is negative infinity. The first of
these is the case for the zeros of every shape. -/
theorem conditionNumbers {m n : ℕ} (hm : 0 < m) (hn : 0 < n) :
    ConditionNumbers Float m n ∧ ConditionNumbers Float32 m n :=
  ⟨conditionNumbers_of_binary hm hn, conditionNumbers_of_binary hm hn⟩

/-- A diagonal matrix whose condition numbers say what they should, and zeros. -/
theorem conditionNumbers_diagonal :
    let square : DenseMatrix Float := ⟨2, 2, #[3, 0, 0, 4]⟩
    (∃ (s : SVD Float) (largest smallest : Float), SVD.of square.view = .ok s ∧
      Extremes s.values largest smallest ∧
      Meaningful smallest s.conditionNumber s.inverseConditionNumber) ∧
    Ends Never (fun s : SVD Float32 => RealScalar.isNaN s.conditionNumber = true)
      (SVD.of (MatrixView.ofMatrix (Matrix.of fun (_ : Fin 2) (_ : Fin 3) => (0 : Float32)))) := by
  intro square
  have hrun : Ends Never (fun s : SVD Float => 0 < s.values.size ∧ s.values.all
      (fun x => decide (0 < x) && RealScalar.isFinite x) = true) (SVD.of square.view) := by
    refine ends_of_pair (P := fun values => 0 < values.size ∧ values.all
      (fun x => decide (0 < x) && RealScalar.isFinite x) = true) ?_
    decide +kernel
  obtain ⟨s, hs, hsize, hvalues⟩ := Ends.never_iff.1 hrun
  have hpositive (x : Float) (hx : x ∈ s.values) : 0 < x ∧ RealScalar.isFinite x = true := by
    simpa using Array.all_eq_true_iff_forall_mem.1 hvalues x hx
  have htwo : 0 < 2 := by decide
  have hthree : 0 < 3 := by decide
  refine ⟨?_, (conditionNumbers htwo hthree).2.zeros.imp fun _ h => h.1⟩
  cases (conditionNumbers htwo htwo).1.conditioned square.view s rfl rfl hs with
  | undefined hnan hnumber hinverse =>
      obtain ⟨largest, smallest, hextremes⟩ := exists_extremes hsize
      have hlargest := lt_iff_place.1 (hpositive _ hextremes.largest_mem).1
      exact absurd (hlargest.1.2.symm.trans (hnan _ hextremes.largest_mem)) Bool.false_ne_true
  | ordered largest smallest hextremes hvalues hquotients hmeaningful =>
      have hlargest := hpositive _ hextremes.largest_mem
      have hsmallest := hpositive _ hextremes.smallest_mem
      refine ⟨s, largest, smallest, hs, hextremes, hmeaningful.2 ⟨?_, ?_, ?_⟩⟩
      · exact Bool.eq_false_of_not_eq_true (not_isZero_of_pos hlargest.1)
      · intro htop
        rw [isFinite_eq, htop] at hsmallest
        exact Bool.false_ne_true hsmallest.2
      · intro hzero
        exact not_isZero_of_pos hsmallest.1 (isZero_iff.2 ⟨_, hzero⟩)

/-- Neither number is one for a matrix of a single zero, and with a negative zero on the diagonal
the condition number is negative. -/
theorem not_meaningful_zero :
    (∃ s : SVD Float,
      SVD.of (MatrixView.ofMatrix (Matrix.of fun (_ _ : Fin 1) => (0 : Float))) = .ok s ∧
      RealScalar.isNaN s.conditionNumber = true ∧
      RealScalar.isNaN s.inverseConditionNumber = true) ∧
    ∃ s : SVD Float, SVD.of (⟨2, 2, #[1, 0, 0, -0]⟩ : DenseMatrix Float).view = .ok s ∧
      s.conditionNumber < 0 := by
  have hzero := ends_zeros (ρ := Float) (m := 1) (n := 1) (by decide) (by decide)
  have hnegative : Ends Never (fun s : SVD Float => s.conditionNumber < 0)
      (SVD.of (⟨2, 2, #[1, 0, 0, -0]⟩ : DenseMatrix Float).view) := by
    refine ends_of_pair (P := fun values => (⟨⟨0, 0, #[]⟩, ⟨0, 0, #[]⟩, values, 0⟩ :
      SVD Float).conditionNumber < 0) ?_
    decide +kernel
  obtain ⟨s, hs, hnan⟩ := Ends.never_iff.1 hzero
  obtain ⟨s', hs', hnegative⟩ := Ends.never_iff.1 hnegative
  exact ⟨⟨s, hs, hnan⟩, s', hs', hnegative⟩

end DenseFactor.SVD
