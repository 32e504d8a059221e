import Mathlib
import DenseFactor.Proofs.LU.Pivot
import DenseFactor.Proofs.LU.Shape
import DenseFactor.Proofs.Scalar.Widening

/-!
# DenseFactor.Proofs.LU.Ranking

Ranking by rounded moduli and ranking by magnitudes are **the same decomposition**, unless a
modulus is a NaN.

Design points:

* Both rules look for the first row of largest modulus, which `IsFirstLargest` describes without
  a scan. There is one such row only, so it does not matter that the scans start differently.
* A magnitude is a modulus as a binary64 number, and `WideningScalar` says that this changes no
  comparison: neither of two candidates, nor of one with the threshold.
* With a NaN the two part: on the diagonal it stays the pivot of the rule with a threshold, and
  the other rule prefers every number to it. `candidates` lists what a run compares, so that NaNs
  are excluded from what it meets and not only from the matrix.
-/

namespace DenseFactor.LU

variable {α ρ : Type} {n : ℕ}

/-! ### The first row of largest size -/

section First

variable [RealScalar ρ] {size : Fin n → ρ} {col row row' i : Fin n} {k : ℕ}

/-- Of the rows from `col` on and before `k`, the first of largest size. -/
structure IsFirstLargest (size : Fin n → ρ) (col : Fin n) (k : ℕ) (row : Fin n) : Prop where
  le : col ≤ row
  lt : (row : ℕ) < k
  largest (i : Fin n) (hi : col ≤ i) (hk : (i : ℕ) < k) : ¬ size row < size i
  first (i : Fin n) (hi : col ≤ i) (hlt : i < row) : size i < size row

theorem IsFirstLargest.unique (h : IsFirstLargest size col k row)
    (h' : IsFirstLargest size col k row') : row = row' := by
  rcases lt_trichotomy row row' with hlt | heq | hgt
  · exact absurd (h'.first row h.le hlt) (h.largest row' h'.le h'.lt)
  · exact heq
  · exact absurd (h.first row' h'.le hgt) (h'.largest row h.le h.lt)

variable [BinaryScalar ρ]

/-- A single row is the first. -/
theorem IsFirstLargest.single (size : Fin n → ρ) (col : Fin n) :
    IsFirstLargest size col (col + 1) col where
  le := le_rfl
  lt := Nat.lt_succ_self _
  largest i hi hk := by
    obtain rfl : i = col := by omega
    exact fun hlt => BinaryScalar.lt_asymm hlt hlt
  first i hi hlt := absurd hi (not_le.2 hlt)

/-- One more row leads if it is larger. Sizes are numbers, so that otherwise it is not. -/
theorem IsFirstLargest.step (hsize : ∀ i, col ≤ i → RealScalar.isNaN (size i) = false)
    (h : IsFirstLargest size col i row) (hi : col ≤ i) :
    if size row < size i then IsFirstLargest size col (i + 1) i
    else IsFirstLargest size col (i + 1) row := by
  split_ifs with hlt
  · have hfirst (j : Fin n) (hj : col ≤ j) (hji : j < i) : size j < size i :=
      BinaryScalar.lt_of_le_of_lt
        (BinaryScalar.le_of_not_lt (hsize row h.le) (hsize j hj) (h.largest j hj hji)) hlt
    refine ⟨hi, Nat.lt_succ_self _, fun j hj hji => ?_, hfirst⟩
    rcases Nat.lt_succ_iff_lt_or_eq.1 hji with hji | hji
    · exact BinaryScalar.lt_asymm (hfirst j hj hji)
    · exact Fin.ext hji ▸ fun hlarger => BinaryScalar.lt_asymm hlarger hlarger
  · refine ⟨h.le, h.lt.trans (Nat.lt_succ_self _), fun j hj hji => ?_, h.first⟩
    rcases Nat.lt_succ_iff_lt_or_eq.1 hji with hji | hji
    · exact h.largest j hj hji
    · exact Fin.ext hji ▸ hlt

end First

/-! ### The two scans -/

/-- The rules agree on columns whose candidates are all good. -/
def AgreeOn (Good : α → Prop) (n : ℕ) (rule rule' : PivotRule α) : Prop :=
  ∀ {m : DenseMatrix α} {W : Matrix (Fin n) (Fin n) α} (col : Fin n), m.Stores W →
    (∀ i, col ≤ i → Good (W i col)) → rule' m col = rule m col

section Scan

variable [RealScalar ρ] [BinaryScalar ρ] [EuclideanScalar α ρ] {m : DenseMatrix α}
  {W : Matrix (Fin n) (Fin n) α} {col : Fin n}

/-- The moduli of a column. -/
abbrev moduli (W : Matrix (Fin n) (Fin n) α) (col : Fin n) (i : Fin n) : ρ :=
  EuclideanScalar.modulus (W i col)

/-- The rule with a threshold takes the first row of largest modulus. -/
theorem ends_largestModulus_first (t : ρ) (hm : m.Stores W)
    (hnumbers : ∀ i, col ≤ i → RealScalar.isNaN (moduli W col i) = false) :
    Ends Never (fun choice => ∃ row, IsFirstLargest (moduli W col) col n row ∧
        choice = if moduli W col row < t then none else some (row : ℕ))
      (largestModulus t m col) := by
  refine (ends_largestModulus t hm col
    (I := fun k row size => size = moduli W col row ∧ IsFirstLargest (moduli W col) col k row)
    ⟨rfl, .single _ col⟩ ?_).imp ?_
  · rintro i row _ hi ⟨rfl, hlead⟩
    have hnext := hlead.step hnumbers hi.le
    split_ifs at hnext ⊢
    · exact ⟨rfl, hnext⟩
    · exact ⟨rfl, hnext⟩
  · rintro choice ⟨row, _, -, ⟨rfl, hlead⟩, rfl⟩
    exact ⟨row, hlead, rfl⟩

/-- So does the rule for fields, where magnitudes are moduli as binary64 numbers. -/
theorem ends_largestMagnitude_first [WideningScalar ρ] [SizedScalar α] [FieldScalar α]
    (hmagnitude : ∀ x : α, FieldScalar.magnitude x =
      RealScalar.toFloat (EuclideanScalar.modulus x : ρ))
    (isZero : α → Bool) (hm : m.Stores W)
    (hnumbers : ∀ i, col ≤ i → RealScalar.isNaN (moduli W col i) = false) :
    Ends Never (fun choice => ∃ row, IsFirstLargest (moduli W col) col n row ∧
        choice = if isZero (W row col) then none else some (row : ℕ))
      (largestMagnitude isZero m col) := by
  have hcompare (size : ρ) (x : α) :
      RealScalar.toFloat size < FieldScalar.magnitude x ↔ size < EuclideanScalar.modulus x := by
    rw [hmagnitude, WideningScalar.toFloat_lt_iff]
  -- before the first candidate the lead is a place holder
  refine (ends_largestMagnitude isZero hm col
    (I := fun k row size => (k = col ∧ size = RealScalar.toFloat (-(1 / 0) : ρ)) ∨
      (size = RealScalar.toFloat (moduli W col row) ∧ IsFirstLargest (moduli W col) col k row))
    (.inl ⟨rfl, WideningScalar.toFloat_bottom.symm⟩) ?_).imp ?_
  · rintro i row _ hi (⟨hfirst, rfl⟩ | ⟨rfl, hlead⟩)
    · obtain rfl : i = col := Fin.ext hfirst
      have hbottom := BinaryScalar.bottom_lt (hnumbers i hi) (SizedScalar.modulus_not_neg (W i i))
      rw [if_pos ((hcompare _ _).2 hbottom)]
      exact .inr ⟨hmagnitude _, .single _ i⟩
    · have hnext := hlead.step hnumbers hi
      by_cases hlt : moduli W col row < moduli W col i
      · rw [if_pos hlt] at hnext
        rw [if_pos ((hcompare _ _).2 hlt)]
        exact .inr ⟨hmagnitude _, hnext⟩
      · rw [if_neg hlt] at hnext
        rw [if_neg ((hcompare _ _).not.2 hlt)]
        exact .inr ⟨rfl, hnext⟩
  · rintro choice ⟨row, _, -, ⟨hempty, -⟩ | ⟨-, hlead⟩, rfl⟩
    · exact absurd hempty col.isLt.ne'
    · exact ⟨row, hlead, rfl⟩

/-- An element of magnitude below the threshold is one that the rule with a threshold rejects. -/
theorem agreeOn_largestMagnitude [WideningScalar ρ] [SizedScalar α] [FieldScalar α]
    (hmagnitude : ∀ x : α, FieldScalar.magnitude x =
      RealScalar.toFloat (EuclideanScalar.modulus x : ρ)) (t : ρ) :
    AgreeOn (fun x : α => RealScalar.isNaN (EuclideanScalar.modulus x : ρ) = false) n
      (largestModulus t)
      (largestMagnitude fun x => decide (FieldScalar.magnitude x < RealScalar.toFloat t)) := by
  intro m W col hm hnumbers
  obtain ⟨_, hmodulus, row, hrow, rfl⟩ := Ends.never_iff.1 (ends_largestModulus_first t hm hnumbers)
  obtain ⟨_, hmagnitude', row', hrow', rfl⟩ := Ends.never_iff.1 (ends_largestMagnitude_first
    hmagnitude (fun x => decide (FieldScalar.magnitude x < RealScalar.toFloat t)) hm hnumbers)
  obtain rfl := hrow.unique hrow'
  rw [hmodulus, hmagnitude']
  simp only [decide_eq_true_iff, hmagnitude, WideningScalar.toFloat_lt_iff]

end Scan

/-! ### Candidates -/

/-- The elements of a column from the diagonal down. -/
def candidateColumn (m : DenseMatrix α) (col : ℕ) : Except Failure (Array α) :=
  Storage.collect (m.nrows - col) fun k => m.entry (col + k) col

theorem ends_candidateColumn {m : DenseMatrix α} {W : Matrix (Fin n) (Fin n) α} (hm : m.Stores W)
    (col : Fin n) :
    Ends Never (fun column => ∀ i, col ≤ i → W i col ∈ column) (candidateColumn m col) := by
  unfold candidateColumn
  rw [hm.nrows]
  refine (Ends.collect (P := fun k x => ∀ i : Fin n, (i : ℕ) = col + k → x = W i col) ?_).imp ?_
  · intro k
    have hlt : (col : ℕ) + k < n := by omega
    have hread : m.entry (col + k) col = .ok (W ⟨col + k, hlt⟩ col) := hm.entry ⟨col + k, hlt⟩ col
    rw [hread]
    rintro i hi
    obtain rfl : i = ⟨col + k, hlt⟩ := Fin.ext hi
    rfl
  · rintro column ⟨x, hx⟩ i hi
    have hk : (i : ℕ) - col < n - col := by omega
    have hi' : (i : ℕ) = col + (i - col) := by omega
    obtain ⟨hread, hentry⟩ := hx ⟨i - col, hk⟩
    exact hentry i hi' ▸ Array.mem_of_getElem? (Storage.ends_read.of_ok hread)

section Candidates

variable [Scalar α]

/-- The elements among which a run chooses its pivots: of every column that it comes to, those
from the diagonal down. -/
def Elimination.candidates (rule : PivotRule α) :
    List ℕ → Elimination α → Except Failure (Array α)
  | [], _ => .ok #[]
  | col :: rest, s => do
    let column ← candidateColumn s.packed col
    match ← rule s.packed col with
    | none => return column
    | some pivotRow => return column ++ (← candidates rule rest (← s.reduce col pivotRow))

/-- The elements among which the pivots of a matrix are chosen. -/
def candidates (rule : PivotRule α) (a : MatrixView α) : Except Failure (Array α) := do
  let m ← DenseMatrix.ofView a
  Elimination.candidates rule (positions 0 m.nrows)
    { packed := m, pivot := Array.range m.nrows, even := true, singular := false }

variable {E : Failure → Prop} {rule rule' : PivotRule α} {s : Elimination α}
  {σ : Equiv.Perm (Fin n)} {W : Matrix (Fin n) (Fin n) α} {l : List ℕ} {Good : α → Prop}

/-- The candidates of a run can be listed unless the arithmetic fails. -/
theorem Elimination.Holds.ends_candidates (hE : FailsBy α E fun _ => True)
    (hrule : rule.Selects fun _ _ _ => True) (hl : ∀ col ∈ l, col < n) (h : s.Holds σ W) :
    Ends E (fun _ => True) (candidates rule l s) := by
  induction l generalizing s σ W with
  | nil => exact trivial
  | cons col l ih =>
      obtain ⟨hcol, hl⟩ := List.forall_mem_cons.1 hl
      rw [candidates]
      refine (ends_candidateColumn h.packed ⟨col, hcol⟩).of_never.bind fun column _ => ?_
      refine (hrule ⟨col, hcol⟩ h.packed).of_never.bind ?_
      rintro _ ⟨row, rfl, -, -⟩
      cases row with
      | none => exact trivial
      | some row =>
          refine (h.reduce hE ⟨col, hcol⟩ row trivial).bind ?_
          rintro s' ⟨W', h', -⟩
          exact (ih hl h').bind fun _ _ => trivial

/-- Two rules that agree on good candidates run alike, if all candidates are good. -/
theorem Elimination.Holds.run_congr (hrule : rule.Selects fun _ _ _ => True)
    (hagree : AgreeOn Good n rule rule') (hl : ∀ col ∈ l, col < n) (h : s.Holds σ W)
    (hgood : Ends Never (fun xs => ∀ x ∈ xs, Good x) (candidates rule l s)) :
    run rule' l s = run rule l s := by
  induction l generalizing s σ W with
  | nil => rfl
  | cons col l ih =>
      obtain ⟨hcol, hl⟩ := List.forall_mem_cons.1 hl
      obtain ⟨column, hcolumn, hmem⟩ :=
        Ends.never_iff.1 (ends_candidateColumn h.packed ⟨col, hcol⟩)
      obtain ⟨_, hchoice, row, rfl, -⟩ := Ends.never_iff.1 (hrule ⟨col, hcol⟩ h.packed)
      have hsame (hseen : ∀ x ∈ column, Good x) : rule' s.packed col = rule s.packed col :=
        hagree ⟨col, hcol⟩ h.packed fun i hi => hseen _ (hmem i hi)
      rw [candidates, hcolumn, Ends.ok_bind_iff, hchoice, Ends.ok_bind_iff] at hgood
      cases row with
      | none => rw [run_rejected ((hsame hgood).trans hchoice), run_rejected hchoice]
      | some row =>
          obtain ⟨s', hs', hgood⟩ := Ends.never_bind_iff.1 hgood
          obtain ⟨xs, hxs, hgood⟩ := Ends.never_bind_iff.1 hgood
          have hall := Array.forall_mem_append.1 hgood
          obtain ⟨W', h', -⟩ := (h.reduce failsBy_always ⟨col, hcol⟩ row trivial).of_ok hs'
          rw [run_accepted ((hsame hall.1).trans hchoice), run_accepted hchoice, hs']
          refine ih hl h' ?_
          rw [hxs]
          exact hall.2

theorem ends_candidates (hE : FailsBy α E fun _ => True) (hrule : rule.Selects fun _ _ _ => True)
    {a : MatrixView α} {A : Matrix (Fin n) (Fin n) α} (ha : a.Shows A) :
    Ends E (fun _ => True) (candidates rule a) := by
  refine ha.ofView.bind fun m hm => ?_
  exact (Elimination.holds_start hm).ends_candidates hE hrule fun _ => hm.lt_of_mem_positions

/-! ### Decompositions -/

/-- Everything that can be asked of two decompositions has the same answer. -/
structure SameAnswers (lu lu' : LU α) : Prop where
  isSingular : lu.isSingular = lu'.isSingular
  pivot : lu.pivot = lu'.pivot
  lower : lu.lower? = lu'.lower?
  upper : lu.upper? = lu'.upper?
  permutation : lu.permutation? = lu'.permutation?
  det : lu.det = lu'.det
  solveMatrix (b : MatrixView α) :
    LinearSolver.solveMatrix lu.solver b = LinearSolver.solveMatrix lu'.solver b
  solve (b : ColumnVector α) : LinearSolver.solve lu.solver b = LinearSolver.solve lu'.solver b
  inverse : LinearSolver.inverse lu.solver = LinearSolver.inverse lu'.solver

/-- Two rules that agree on good candidates decompose alike. -/
theorem ofRule_congr (hE : FailsBy α Never fun _ => True) (hrule : rule.Selects fun _ _ _ => True)
    (hagree : AgreeOn Good n rule rule') {a : MatrixView α} {A : Matrix (Fin n) (Fin n) α}
    (ha : a.Shows A) (hgood : ∀ xs, candidates rule a = .ok xs → ∀ x ∈ xs, Good x)
    (threshold threshold' : Option Float) :
    ∃ lu lu', ofRule rule threshold a = .ok lu ∧ ofRule rule' threshold' a = .ok lu' ∧
      lu.SameAnswers lu' := by
  obtain ⟨m, hm, hstores⟩ := Ends.never_iff.1 ha.ofView
  have hcandidates : Ends Never (fun xs => ∀ x ∈ xs, Good x) (candidates rule a) :=
    (ends_candidates hE hrule ha).self.imp fun xs hxs => hgood xs hxs.1
  rw [candidates, hm, Ends.ok_bind_iff] at hcandidates
  have hrun : eliminate rule' m = eliminate rule m :=
    (Elimination.holds_start hstores).run_congr hrule hagree
      (fun _ => hstores.lt_of_mem_positions) hcandidates
  obtain ⟨s, hs, -⟩ := Ends.never_iff.1 (ends_eliminate hE hrule (fun _ _ _ _ => trivial) hstores
    (I := fun _ _ _ => True) trivial fun _ _ _ _ _ _ _ _ _ => trivial)
  have hlu : ofRule rule threshold a = .ok { elimination := s, threshold } := by
    rw [ofRule_eq ha hm, hs]
    rfl
  have hlu' : ofRule rule' threshold' a = .ok { elimination := s, threshold := threshold' } := by
    rw [ofRule_eq ha hm, hrun, hs]
    rfl
  -- the recorded threshold takes part in no answer
  exact ⟨_, _, hlu, hlu', rfl, rfl, rfl, rfl, rfl, rfl, fun _ => rfl, fun _ => rfl, rfl⟩

end Candidates

section Agreement

variable [RealScalar ρ] [BinaryScalar ρ] [WideningScalar ρ]

/-- **The rounded and the field decomposition agree.** Let a square real or complex matrix be
decomposed with a threshold, and let no modulus among the candidates that this compares be a
NaN. The decomposition over a field, which counts elements of magnitude below the threshold as
zero, gives the same pivots, factors, determinant, solutions and inverse, and the one is
singular if the other is. Candidates may be equal in size, infinite or zero, and the threshold
may be any number or a NaN. -/
theorem ofThreshold_agrees_with_ofPredicate [RootScalar ρ] :
    (∀ {n : ℕ} {A : Matrix (Fin n) (Fin n) ρ} {a : MatrixView ρ}, a.Shows A → ∀ t : ρ,
      (∀ xs, candidates (largestModulus t) a = .ok xs →
        ∀ x ∈ xs, RealScalar.isNaN (EuclideanScalar.modulus x : ρ) = false) →
      ∃ lu lu', ofThreshold t a = .ok lu ∧
        ofPredicate (fun x => decide (FieldScalar.magnitude x < RealScalar.toFloat t)) true a =
          .ok lu' ∧
        lu.SameAnswers lu') ∧
    ∀ {n : ℕ} {A : Matrix (Fin n) (Fin n) (Cartesian ρ)} {a : MatrixView (Cartesian ρ)},
      a.Shows A → ∀ t : ρ,
      (∀ xs, candidates (largestModulus t) a = .ok xs →
        ∀ x ∈ xs, RealScalar.isNaN (EuclideanScalar.modulus x : ρ) = false) →
      ∃ lu lu', ofThreshold t a = .ok lu ∧
        ofPredicate (fun x => decide (FieldScalar.magnitude x < RealScalar.toFloat t)) true a =
          .ok lu' ∧
        lu.SameAnswers lu' := by
  constructor
  · intro n A a ha t hnumbers
    exact ofRule_congr failsBy_total (selects_largestModulus t)
      (agreeOn_largestMagnitude (fun _ => rfl) t) ha hnumbers _ _
  · intro n A a ha t hnumbers
    exact ofRule_congr failsBy_total (selects_largestModulus t)
      (agreeOn_largestMagnitude (fun _ => rfl) t) ha hnumbers _ _

end Agreement

/-- A tie and an infinite candidate among complex numbers, and a rejected column of real ones. -/
theorem ofThreshold_agrees_with_ofPredicate_tie_and_rejected :
    let A : Matrix (Fin 2) (Fin 2) (Cartesian Float32) := !![⟨3, 4⟩, ⟨1, 0⟩; ⟨0, 5⟩, ⟨1 / 0, 0⟩]
    let B : Matrix (Fin 2) (Fin 2) Float := !![1, 2; 2, 4]
    (∃ lu lu', ofThreshold (1 / 4 : Float32) (.ofMatrix A) = .ok lu ∧
      ofPredicate (fun x => decide (FieldScalar.magnitude x < RealScalar.toFloat (1 / 4 : Float32)))
        true (.ofMatrix A) = .ok lu' ∧
      lu.SameAnswers lu') ∧
    ∃ lu lu', ofThreshold (1 / 4 : Float) (.ofMatrix B) = .ok lu ∧
      ofPredicate (fun x => decide (FieldScalar.magnitude x < RealScalar.toFloat (1 / 4 : Float)))
        true (.ofMatrix B) = .ok lu' ∧
      lu.SameAnswers lu' := by
  intro A B
  have hA : Ends Never (fun xs => ∀ x ∈ xs, RealScalar.isNaN (EuclideanScalar.modulus x) = false)
      (candidates (largestModulus (1 / 4 : Float32)) (.ofMatrix A)) := by
    decide +kernel
  have hB : Ends Never (fun xs => ∀ x ∈ xs, RealScalar.isNaN (EuclideanScalar.modulus x) = false)
      (candidates (largestModulus (1 / 4 : Float)) (.ofMatrix B)) := by
    decide +kernel
  constructor
  · exact ofThreshold_agrees_with_ofPredicate.2 (MatrixView.ofMatrix_shows A) _ fun _ => hA.of_ok
  · exact ofThreshold_agrees_with_ofPredicate.1 (MatrixView.ofMatrix_shows B) _ fun _ => hB.of_ok

/-- The modulus of a diagonal element must be a number. -/
example :
    let A : Matrix (Fin 2) (Fin 2) Float := !![RealScalar.nan, 1; 1, 1]
    Ends Never (·.pivot = #[0, 1]) (ofThreshold (0 : Float) (.ofMatrix A)) ∧
      Ends Never (·.pivot = #[1, 0])
        (ofPredicate (fun x => decide (FieldScalar.magnitude x < 0)) true (.ofMatrix A)) := by
  decide +kernel

end DenseFactor.LU
