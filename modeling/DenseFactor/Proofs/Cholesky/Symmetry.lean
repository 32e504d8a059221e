import Mathlib
import DenseFactor.Proofs.Cholesky.Shape
import DenseFactor.Proofs.Scalar.Binary

/-!
# DenseFactor.Proofs.Cholesky.Symmetry

The two **tests for symmetry**: the one before a Cholesky decomposition, which looks for a pair
that differs too much, and the one of a matrix, which asks whether all pairs are close enough.

Design points:

* Both compare `difference A i j` with `bound s A i j`. One asks for `bound < difference`, the
  other for `difference ≤ bound`. Between numbers these exclude each other and one of them
  holds. If one side is a NaN, neither does.
* `FirstPair P i j` says which pair is reported. Rows are searched in order and each row is
  searched in order, so the invariant of the search is that of `Ends.findSomeM?_first` with
  that of `Ends.findM?_first` inside.
* So a pair with a NaN fails the test of the matrix and passes that of the decomposition, and
  the entry below the diagonal is not read again (`ofThresholds_accepts_nan`).
-/

namespace DenseFactor

open DenseMatrix

variable {ρ : Type} [RealScalar ρ] {E : Failure → Prop} {n : ℕ} {A : Matrix (Fin n) (Fin n) ρ}

/-! ### Opposite entries -/

/-- How far apart an entry and the one across the diagonal are. -/
def difference (A : Matrix (Fin n) (Fin n) ρ) (i j : Fin n) : ρ :=
  RealScalar.abs (A i j - A j i)

/-- How far apart they may be. -/
def bound (s : ρ) (A : Matrix (Fin n) (Fin n) ρ) (i j : Fin n) : ρ :=
  s * RealScalar.maximum (RealScalar.abs (A i j)) (RealScalar.abs (A j i))

/-- The first pair above the diagonal, in row order, that is in the relation. -/
structure FirstPair (P : Fin n → Fin n → Prop) (i j : Fin n) : Prop where
  above : i < j
  holds : P i j
  first (k l : Fin n) (hkl : k < l) (h : k < i ∨ k = i ∧ l < j) : ¬ P k l

namespace FirstPair

variable {P Q : Fin n → Fin n → Prop} {i j i' j' : Fin n}

/-- There is only one. -/
theorem unique (h : FirstPair P i j) (h' : FirstPair P i' j') : i = i' ∧ j = j' := by
  by_contra hne
  have hbefore : (i < i' ∨ i = i' ∧ j < j') ∨ (i' < i ∨ i' = i ∧ j' < j) := by omega
  rcases hbefore with hbefore | hbefore
  · exact h'.first i j h.above hbefore h.holds
  · exact h.first i' j' h'.above hbefore h'.holds

/-- Some pair comes first, if there is one at all. -/
theorem exists_of_exists (h : ∃ i j, i < j ∧ P i j) : ∃ i j, FirstPair P i j := by
  classical
  obtain ⟨i, j, hij, hP⟩ := h
  have hrow : ∃ i : ℕ, ∃ h : i < n, ∃ j : Fin n, ⟨i, h⟩ < j ∧ P ⟨i, h⟩ j := ⟨i, i.isLt, j, hij, hP⟩
  obtain ⟨hin, hcols⟩ := Nat.find_spec hrow
  have hcol : ∃ j : ℕ, ∃ h : j < n, Nat.find hrow < j ∧ P ⟨Nat.find hrow, hin⟩ ⟨j, h⟩ := by
    obtain ⟨j, hj, hP⟩ := hcols
    exact ⟨j, j.isLt, hj, hP⟩
  obtain ⟨hjn, hlt, hfound⟩ := Nat.find_spec hcol
  refine ⟨⟨_, hin⟩, ⟨_, hjn⟩, hlt, hfound, fun k l hkl hbefore hP => ?_⟩
  rcases hbefore with hk | ⟨rfl, hl⟩
  · exact Nat.find_min hrow hk ⟨k.isLt, l, hkl, hP⟩
  · exact Nat.find_min hcol hl ⟨l.isLt, hkl, hP⟩

/-- Where two relations agree up to the first pair of one, it is the first of the other. -/
theorem congr (h : FirstPair P i j) (hPQ : ∀ k l, k < l → (P k l ↔ Q k l)) : FirstPair Q i j where
  above := h.above
  holds := (hPQ i j h.above).1 h.holds
  first k l hkl hbefore := (hPQ k l hkl).not.1 (h.first k l hkl hbefore)

end FirstPair

/-! ### The test of a matrix -/

theorem DenseMatrix.Stores.isSymmetricWithin {m : DenseMatrix ρ} (hm : m.Stores A) (s : ρ) :
    m.isSymmetricWithin s = .ok (decide (∀ i j, i < j → difference A i j ≤ bound s A i j)) := by
  have hends : Ends Never (fun b => b = true ↔ ∀ i ∈ positions 0 n, ∀ j ∈ positions (i + 1) n,
      ∀ (hi : i < n) (hj : j < n), difference A ⟨i, hi⟩ ⟨j, hj⟩ ≤ bound s A ⟨i, hi⟩ ⟨j, hj⟩)
      (m.isSymmetricWithin s) := by
    unfold DenseMatrix.isSymmetricWithin allOppositePairs isSquare
    rw [hm.nrows, hm.ncols, if_pos (beq_self_eq_true n)]
    refine Ends.allM fun i hi => Ends.allM fun j hj => ?_
    have hi : i < n := (mem_positions.1 hi).2
    have hj : j < n := (mem_positions.1 hj).2
    rw [hm.entry ⟨i, hi⟩ ⟨j, hj⟩, hm.entry ⟨j, hj⟩ ⟨i, hi⟩]
    exact decide_eq_true_iff.trans ⟨fun h _ _ => h, fun h => h hi hj⟩
  obtain ⟨within, hwithin, hiff⟩ := Ends.never_iff.1 hends
  rw [hwithin]
  congr 1
  rw [Bool.eq_iff_iff, hiff, decide_eq_true_iff]
  constructor
  · intro h i j hij
    exact h i (mem_positions.2 ⟨Nat.zero_le i, i.isLt⟩) j (mem_positions.2 ⟨hij, j.isLt⟩) i.isLt
      j.isLt
  · intro h i _ j hj hi hjn
    exact h ⟨i, hi⟩ ⟨j, hjn⟩ (mem_positions.1 hj).1

namespace Cholesky

/-! ### The test of the decomposition -/

/-- What the search through row `i` answers, right of the diagonal. -/
structure AnswersRow (P : Fin n → Fin n → Prop) (i : Fin n) (found : Option (ℕ × ℕ)) : Prop where
  none (h : found = none) (j : Fin n) (hij : i < j) : ¬ P i j
  some (pair : ℕ × ℕ) (h : pair ∈ found) : ∃ j : Fin n, pair = ((i : ℕ), (j : ℕ)) ∧ i < j ∧
    P i j ∧ ∀ l, i < l → l < j → ¬ P i l

/-- The search through one row. -/
theorem ends_rowAsymmetry {m : DenseMatrix ρ} (hm : m.Stores A) (s : ρ) (i : Fin n) :
    Ends E (AnswersRow (fun i j => bound s A i j < difference A i j) i) (do
      let col ← (positions (i + 1) n).findM? fun j => do
        return isAsymmetric s (← m.entry i j) (← m.entry j i)
      return col.map fun j => ((i : ℕ), j)) := by
  refine (Ends.findM?_first (positions_sorted _ _) (Q := fun j b => ∀ hj : j < n,
    b = decide (bound s A i ⟨j, hj⟩ < difference A i ⟨j, hj⟩)) fun j hj => ?_).bind ?_
  · have hj : j < n := (mem_positions.1 hj).2
    rw [hm.entry i ⟨j, hj⟩, hm.entry ⟨j, hj⟩ i]
    exact fun _ => rfl
  · rintro found ⟨hnone, hsome⟩
    have hmem (j : Fin n) (hij : i < j) : (j : ℕ) ∈ positions (i + 1) n :=
      mem_positions.2 ⟨hij, j.isLt⟩
    refine ⟨fun hfound j hij => ?_, fun pair hpair => ?_⟩
    · exact of_decide_eq_false (hnone (Option.map_eq_none_iff.1 hfound) j (hmem j hij) j.isLt).symm
    · obtain ⟨j, hj, rfl⟩ := Option.mem_map.1 hpair
      obtain ⟨hj, htrue, hfirst⟩ := hsome j hj
      obtain ⟨hij, hjn⟩ := mem_positions.1 hj
      refine ⟨⟨j, hjn⟩, rfl, hij, of_decide_eq_true (htrue hjn).symm, fun l hil hlj => ?_⟩
      exact of_decide_eq_false (hfirst l (hmem l hil) hlj l.isLt).symm

/-- The search finds the first pair that differs by more than its bound. -/
theorem ends_asymmetry {m : DenseMatrix ρ} (hm : m.Stores A) (s : ρ) :
    Ends E (fun found =>
      (found = none → ∀ i j, i < j → ¬ bound s A i j < difference A i j) ∧
      ∀ pair ∈ found, ∃ i j : Fin n, pair = ((i : ℕ), (j : ℕ)) ∧
        FirstPair (fun i j => bound s A i j < difference A i j) i j) <|
      firstAsymmetry? m s := by
  unfold firstAsymmetry?
  rw [hm.nrows]
  refine (Ends.findSomeM?_first (positions_sorted _ _) (Q := fun i found => ∀ hi : i < n,
    AnswersRow (fun i j => bound s A i j < difference A i j) ⟨i, hi⟩ found) fun i hi => ?_).imp ?_
  · have hi : i < n := (mem_positions.1 hi).2
    exact (ends_rowAsymmetry hm s ⟨i, hi⟩).imp fun found hfound _ => hfound
  · rintro found ⟨hnone, hsome⟩
    have hmem (i : Fin n) : (i : ℕ) ∈ positions 0 n := mem_positions.2 ⟨Nat.zero_le i, i.isLt⟩
    refine ⟨fun hfound i j hij => (hnone hfound i (hmem i) i.isLt).none rfl j hij, ?_⟩
    intro pair hpair
    obtain ⟨i, hi, hfound, hfirst⟩ := hsome pair hpair
    have hin : i < n := (mem_positions.1 hi).2
    obtain ⟨j, rfl, hij, hexceeds, hcols⟩ := (hfound hin).some pair rfl
    refine ⟨⟨i, hin⟩, j, rfl, hij, hexceeds, fun k l hkl hbefore => ?_⟩
    rcases hbefore with hk | ⟨rfl, hl⟩
    · exact (hfirst k (hmem k) hk k.isLt).none rfl l hkl
    · exact hcols l hkl hl

/-- A matrix with a pair that differs too much is reported by the first one; what else can be
refused is a pivot. -/
theorem ends_ofThresholds_symmetry {a : MatrixView ρ} (ha : a.Shows A) (s p : ρ) :
    Ends (fun e => (∃ i j : Fin n, e = .notSymmetric i j ∧
          FirstPair (fun i j => bound s A i j < difference A i j) i j) ∨
        e = .notPositiveDefinite ∧ ∀ i j, i < j → ¬ bound s A i j < difference A i j)
      (fun _ => ∀ i j, i < j → ¬ bound s A i j < difference A i j) (ofThresholds s p a) := by
  unfold ofThresholds
  rw [if_neg ha.square]
  refine ha.ofView.bind fun m hm => ?_
  refine (ends_asymmetry hm s).bind ?_
  rintro found ⟨hnone, hsome⟩
  cases found with
  | some pair =>
      obtain ⟨i, j, rfl, hfirst⟩ := hsome pair rfl
      exact .inl ⟨i, j, rfl, hfirst⟩
  | none =>
      have hsymmetric := hnone rfl
      rw [hm.nrows]
      refine Ends.bind (hm.hasShape.mapEntries fun _ _ _ _ _ => trivial) fun upper hupper => ?_
      refine ((ends_steps_shape hupper p).weaken fun e he => .inr ⟨he, hsymmetric⟩).bind ?_
      exact fun _ _ => hsymmetric

/-- Exactly the first pair that differs by more than its bound is reported. -/
theorem ofThresholds_eq_notSymmetric_iff {a : MatrixView ρ} (ha : a.Shows A) (s p : ρ)
    (row col : ℕ) : ofThresholds s p a = .error (.notSymmetric row col) ↔
      ∃ i j : Fin n, row = i ∧ col = j ∧
        FirstPair (fun i j => bound s A i j < difference A i j) i j := by
  have hends := ends_ofThresholds_symmetry ha s p
  constructor
  · intro herror
    rcases hends.of_error herror with ⟨i, j, hpair, hfirst⟩ | ⟨hpivot, -⟩
    · obtain ⟨rfl, rfl⟩ := Failure.notSymmetric.inj hpair
      exact ⟨i, j, rfl, rfl, hfirst⟩
    · cases hpivot
  · rintro ⟨i, j, rfl, rfl, hfirst⟩
    cases hresult : ofThresholds s p a with
    | ok ch => exact absurd hfirst.holds (hends.of_ok hresult i j hfirst.above)
    | error e =>
        rcases hends.of_error hresult with ⟨i', j', rfl, hfirst'⟩ | ⟨-, hsymmetric⟩
        · obtain ⟨rfl, rfl⟩ := hfirst.unique hfirst'
          rfl
        · exact absurd hfirst.holds (hsymmetric i j hfirst.above)

/-! ### Both tests -/

/-- Neither side of the comparison is a NaN. -/
def Comparable (s : ρ) (A : Matrix (Fin n) (Fin n) ρ) (i j : Fin n) : Prop :=
  RealScalar.isNaN (difference A i j) = false ∧ RealScalar.isNaN (bound s A i j) = false

/-- **What the two tests for symmetry have in common.** The decomposition reports the first pair
that differs by more than its bound, and nothing else is reported as asymmetric. The test of the
matrix asks whether all pairs are within their bounds. So a matrix that is reported fails that
test; the first pair that is not within its bound is reported if its difference and its bound
are numbers, and only then; and where this is so of all pairs, the matrix is reported if and
only if it fails the test, by the first pair that is not within its bound. The entries and both
thresholds are any numbers or NaNs. -/
theorem ofThresholds_notSymmetric_iff_first [BinaryScalar ρ] {m : DenseMatrix ρ}
    (hm : m.Stores A) (s p : ρ) :
    (∀ row col, ofThresholds s p m.view = .error (.notSymmetric row col) ↔
      ∃ i j : Fin n, row = i ∧ col = j ∧
        FirstPair (fun i j => bound s A i j < difference A i j) i j) ∧
    m.isSymmetricWithin s = .ok (decide (∀ i j, i < j → difference A i j ≤ bound s A i j)) ∧
    (∀ row col, ofThresholds s p m.view = .error (.notSymmetric row col) →
      m.isSymmetricWithin s = .ok false) ∧
    (∀ i j : Fin n, FirstPair (fun i j => ¬ difference A i j ≤ bound s A i j) i j →
      (ofThresholds s p m.view = .error (.notSymmetric i j) ↔ Comparable s A i j)) ∧
    ((∀ i j, i < j → Comparable s A i j) →
      ((∃ row col, ofThresholds s p m.view = .error (.notSymmetric row col)) ↔
        m.isSymmetricWithin s = .ok false) ∧
      ∀ row col, ofThresholds s p m.view = .error (.notSymmetric row col) ↔
        ∃ i j : Fin n, row = i ∧ col = j ∧
          FirstPair (fun i j => ¬ difference A i j ≤ bound s A i j) i j) := by
  have hreported := ofThresholds_eq_notSymmetric_iff hm.view s p
  have hwithin := hm.isSymmetricWithin s
  have hfails : m.isSymmetricWithin s = .ok false ↔
      ∃ i j, i < j ∧ ¬ difference A i j ≤ bound s A i j := by
    rw [hwithin, Except.ok.injEq, decide_eq_false_iff_not]
    push Not
    rfl
  -- of two numbers, one is larger or the other is not
  have hiff (i j : Fin n) (h : Comparable s A i j) :
      ¬ difference A i j ≤ bound s A i j ↔ bound s A i j < difference A i j :=
    BinaryScalar.not_le_iff.trans (or_iff_left (not_not.2 h))
  have hexceeds {i j : Fin n} (h : bound s A i j < difference A i j) : Comparable s A i j :=
    (BinaryScalar.lt_iff_place.1 h).1.symm
  have hrejects (row col : ℕ) (herror : ofThresholds s p m.view = .error (.notSymmetric row col)) :
      m.isSymmetricWithin s = .ok false := by
    obtain ⟨i, j, -, -, hfirst⟩ := (hreported row col).1 herror
    exact hfails.2 ⟨i, j, hfirst.above, (hiff i j (hexceeds hfirst.holds)).2 hfirst.holds⟩
  refine ⟨hreported, hwithin, hrejects, ?first, fun hall => ⟨?agree, ?report⟩⟩
  case first =>
    intro i j hfirst
    constructor
    · intro herror
      obtain ⟨i', j', hi, hj, hfirst'⟩ := (hreported i j).1 herror
      obtain rfl := Fin.ext hi
      obtain rfl := Fin.ext hj
      exact hexceeds hfirst'.holds
    · intro hcomparable
      refine (hreported i j).2 ⟨i, j, rfl, rfl, hfirst.above, (hiff i j hcomparable).1 hfirst.holds,
        fun k l hkl hbefore hlt => ?_⟩
      exact hfirst.first k l hkl hbefore ((hiff k l (hexceeds hlt)).2 hlt)
  case agree =>
    constructor
    · rintro ⟨row, col, herror⟩
      exact hrejects row col herror
    · intro hfalse
      obtain ⟨i, j, hfirst⟩ := FirstPair.exists_of_exists (hfails.1 hfalse)
      exact ⟨i, j, (hreported i j).2
        ⟨i, j, rfl, rfl, hfirst.congr fun k l hkl => hiff k l (hall k l hkl)⟩⟩
  case report =>
    intro row col
    rw [hreported]
    refine exists_congr fun i => exists_congr fun j => and_congr_right fun _ =>
      and_congr_right fun _ => ?_
    exact ⟨fun h => h.congr fun k l hkl => (hiff k l (hall k l hkl)).symm,
      fun h => h.congr fun k l hkl => hiff k l (hall k l hkl)⟩

/-- A matrix of numbers with two pairs that differ. -/
theorem ofThresholds_notSymmetric_iff_first_three :
    let m : DenseMatrix Float := ⟨3, 3, #[4, 2, 1, 2, 3, 5, 1.5, 6, 9]⟩
    ofThresholds (1 / 4) 0 m.view = .error (.notSymmetric 0 2) ∧
      m.isSymmetricWithin (1 / 4) = .ok false := by
  intro m
  let A : Matrix (Fin 3) (Fin 3) Float := !![4, 2, 1; 2, 3, 5; 1.5, 6, 9]
  have hm : m.Stores A := by
    refine ⟨rfl, rfl, rfl, fun i j => ?_⟩
    fin_cases i <;> fin_cases j <;> rfl
  have hcomparable : ∀ i j : Fin 3, i < j →
      RealScalar.isNaN (difference A i j) = false ∧
        RealScalar.isNaN (bound (1 / 4) A i j) = false := by
    decide +kernel
  have habove : (0 : Fin 3) < 2 := by decide
  have hexceeds : bound (1 / 4) A 0 2 < difference A 0 2 := by decide +kernel
  have hfirst : ∀ k l : Fin 3, k < l → (k < 0 ∨ k = 0 ∧ l < 2) →
      ¬ bound (1 / 4) A k l < difference A k l := by
    decide +kernel
  obtain ⟨hreported, -, -, -, hagree⟩ := ofThresholds_notSymmetric_iff_first hm (1 / 4) 0
  have herror := (hreported 0 2).2 ⟨0, 2, rfl, rfl, habove, hexceeds, hfirst⟩
  exact ⟨herror, (hagree hcomparable).1.1 ⟨0, 2, herror⟩⟩

/-- A NaN below the diagonal: the matrix is not within any bound of its transpose, and it is
decomposed. -/
theorem ofThresholds_accepts_nan :
    let m : DenseMatrix Float := ⟨2, 2, #[1, 0, RealScalar.nan, 1]⟩
    Ends Never (· = false) (m.isSymmetricWithin 0) ∧
      Ends Never (fun ch => Ends Never (· = 1) (ch.upper.entry 0 0) ∧
        Ends Never (· = 0) (ch.upper.entry 1 0)) (ofThresholds 0 0 m.view) := by
  decide +kernel

end Cholesky

end DenseFactor
