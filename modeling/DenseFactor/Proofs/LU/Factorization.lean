import Mathlib
import DenseFactor.LU.Basic
import DenseFactor.Proofs.LU.Packed
import DenseFactor.Proofs.LU.Pivot
import DenseFactor.Proofs.Scalar.Ratio

/-!
# DenseFactor.Proofs.LU.Factorization

Over an exact field an LU decomposition **is a factorization**: `P · A = L · U`.

The invariant of the elimination is that the packed matrix stands for the rows of `A`
in their new order (`RepresentsRows`). It does not ask which elements count as zero: a
pivot that is zero makes the first division below it a fault, and the last pivot
divides nothing.
-/

namespace DenseFactor.LU

open ExactScalar (value)

variable {α K : Type} [Field K] {n : ℕ} {E : Failure → Prop}

/-! ### One step -/

section Step

variable [Scalar α]

/-- A reduced column is reduced in the field, if its pivot is no zero that divides. -/
theorem ReducesColumn.reduced [ExactScalar α K] {col : Fin n} {W W' : Matrix (Fin n) (Fin n) α}
    (h : ReducesColumn col W W') (hpivot : ∀ i, col < i → value (W col col) ≠ 0) :
    Packed.Reduced col (W.map value) (W'.map value) where
  kept i j hij := by rw [Matrix.map_apply, Matrix.map_apply, h.kept i j hij]
  multiplier i hi := by
    have hquotient := (ExactScalar.ends_div _ _ (hpivot i hi)).of_ok (h.multiplier i hi)
    simp only [Matrix.map_apply]
    rw [hquotient, div_mul_cancel₀ _ (hpivot i hi)]
  remainder i j hi hj := by
    simp only [Matrix.map_apply]
    by_cases hzero : Scalar.isZero (W' i col) = true
    · rw [h.skipped i j hi hj hzero, (ExactScalar.isZero_iff _).1 hzero, zero_mul, sub_zero]
    · obtain ⟨p, hp, hrest⟩ := h.remainder i j hi hj (by simpa using hzero)
      rw [(ExactScalar.ends_sub _ _).of_ok hrest, (ExactScalar.ends_mul _ _).of_ok hp]

/-- In a field that refuses to divide by zero, a pivot that divides is not zero. -/
theorem ReducesColumn.pivot_ne_zero [ExactField α K] {col : Fin n}
    {W W' : Matrix (Fin n) (Fin n) α} (h : ReducesColumn col W W') (i : Fin n) (hi : col < i) :
    value (W col col) ≠ 0 :=
  ((ExactScalar.ends_quotient _ _).of_ok (h.multiplier i hi)).1

/-- The packed matrix with `k` reduced columns stands for the rows of `A` in the
order `σ`. -/
def RepresentsRows [ExactScalar α K] (A : Matrix (Fin n) (Fin n) α) (k : ℕ)
    (σ : Equiv.Perm (Fin n)) (W : Matrix (Fin n) (Fin n) α) : Prop :=
  Packed.product k (W.map value) = (A.map value).submatrix σ id

theorem representsRows_start [ExactScalar α K] (A : Matrix (Fin n) (Fin n) α) :
    RepresentsRows A 0 1 A :=
  Packed.product_zero _

/-- A step keeps what the packed matrix stands for. -/
theorem RepresentsRows.step [ExactScalar α K] {A : Matrix (Fin n) (Fin n) α} {col row : Fin n}
    {σ : Equiv.Perm (Fin n)} {W W' : Matrix (Fin n) (Fin n) α} (h : RepresentsRows A col σ W)
    (hrow : col ≤ row)
    (hreduced : ReducesColumn col (W.submatrix (Equiv.swap col row) id) W')
    (hpivot : ∀ i, col < i → value (W.submatrix (Equiv.swap col row) id col col) ≠ 0) :
    RepresentsRows A (col + 1) (σ * Equiv.swap col row) W' := by
  unfold RepresentsRows at h ⊢
  rw [(hreduced.reduced hpivot).product_succ, ← Matrix.submatrix_map,
    Packed.product_swap _ le_rfl hrow, h, Matrix.submatrix_submatrix]
  rfl

end Step

/-! ### Decompositions -/

section Decompositions

variable [Scalar α]

/-- What is eliminated is the stored copy of a square matrix. -/
theorem ofRule_eq {a : MatrixView α} {A : Matrix (Fin n) (Fin n) α} (ha : a.Shows A)
    {m : DenseMatrix α} (hm : DenseMatrix.ofView a = .ok m) (rule : PivotRule α)
    (threshold : Option Float) :
    ofRule rule threshold a =
      (fun elimination => { elimination, threshold }) <$> eliminate rule m := by
  unfold ofRule
  rw [if_neg ha.square, hm]
  rfl

/-- An invariant of one step holds of every decomposition of a square matrix. -/
theorem ends_ofRule {D : α → Prop} (hE : FailsBy α E D) {rule : PivotRule α}
    {P : ∀ {n : ℕ}, Matrix (Fin n) (Fin n) α → Fin n → Option (Fin n) → Prop}
    (hrule : rule.Selects P)
    (hdivisor : ∀ (W : Matrix (Fin n) (Fin n) α) col row, P W col (some row) → D (W row col))
    {I : ℕ → Equiv.Perm (Fin n) → Matrix (Fin n) (Fin n) α → Prop}
    {a : MatrixView α} {A : Matrix (Fin n) (Fin n) α} (ha : a.Shows A) (hI : I 0 1 A)
    (hstep : ∀ (col row : Fin n) σ W W', col ≤ row → P W col (some row) → I col σ W →
      ReducesColumn col (W.submatrix (Equiv.swap col row) id) W' →
      I (col + 1) (σ * Equiv.swap col row) W') (threshold : Option Float) :
    Ends E (fun lu => ∃ σ W, lu.elimination.Finished P I σ W) (ofRule rule threshold a) := by
  unfold ofRule
  rw [if_neg ha.square]
  refine ha.ofView.bind fun m hm => ?_
  exact (ends_eliminate hE hrule hdivisor hm hI hstep).bind fun s hs => hs

/-- Whatever the arithmetic, a decomposition packs a matrix with its rows in some
order. -/
theorem ends_ofRule_holds (hE : FailsBy α E fun _ => True) {rule : PivotRule α}
    {P : ∀ {n : ℕ}, Matrix (Fin n) (Fin n) α → Fin n → Option (Fin n) → Prop}
    (hrule : rule.Selects P) {a : MatrixView α} {A : Matrix (Fin n) (Fin n) α} (ha : a.Shows A)
    (threshold : Option Float) :
    Ends E (fun lu => ∃ (σ : Equiv.Perm (Fin n)) (W : Matrix (Fin n) (Fin n) α),
      lu.elimination.Holds σ W) (ofRule rule threshold a) := by
  refine (ends_ofRule hE hrule (fun _ _ _ _ => trivial) ha (I := fun _ _ _ => True) trivial
    (fun _ _ _ _ _ _ _ _ _ => trivial) threshold).imp ?_
  intro lu hlu
  obtain ⟨σ, W, hfinished⟩ := hlu
  exact ⟨σ, W, hfinished.holds⟩

/-- Only a square matrix that can be read has a decomposition. -/
theorem ends_ofRule_square {rule : PivotRule α} {a : MatrixView α} (threshold : Option Float) :
    Ends Always (fun _ => a.nrows = a.ncols ∧ a.Readable) (ofRule rule threshold a) := by
  unfold ofRule
  by_cases hsquare : a.nrows = a.ncols
  · rw [if_neg (not_not.2 hsquare)]
    refine DenseMatrix.ends_ofView_readable.bind fun m hreadable => ?_
    exact Ends.always.imp fun _ _ => ⟨hsquare, hreadable⟩
  · rw [if_pos hsquare]
    exact trivial

/-- What a decomposition packs, for a result alone. -/
theorem exists_holds_of_ofRule {rule : PivotRule α}
    {P : ∀ {n : ℕ}, Matrix (Fin n) (Fin n) α → Fin n → Option (Fin n) → Prop}
    (hrule : rule.Selects P) {a : MatrixView α} {threshold : Option Float} {lu : LU α}
    (hlu : ofRule rule threshold a = .ok lu) (hrows : a.nrows = n) :
    a.ncols = n ∧ ∃ (σ : Equiv.Perm (Fin n)) (W : Matrix (Fin n) (Fin n) α),
      lu.elimination.Holds σ W := by
  obtain ⟨hsquare, hreadable⟩ := (ends_ofRule_square threshold).of_ok hlu
  have hcols : a.ncols = n := hsquare ▸ hrows
  obtain ⟨A, hA⟩ := hreadable.exists_shows hrows hcols
  exact ⟨hcols, (ends_ofRule_holds failsBy_always hrule hA threshold).of_ok hlu⟩

omit [Scalar α] in
/-- A factor of a decomposition that is not singular, entry by entry. -/
theorem ends_factor? {lu : LU α} (hs : lu.isSingular = false) (hdim : lu.dim = n)
    {entry : ℕ → ℕ → Except Failure α} {P : Fin n → Fin n → α → Prop}
    (h : ∀ i j : Fin n, Ends E (P i j) (entry i j)) :
    Ends E (fun f => ∃ (m : DenseMatrix α) (M : Matrix (Fin n) (Fin n) α),
      f = some m ∧ m.Stores M ∧ ∀ i j, P i j (M i j)) (lu.factor? entry) := by
  unfold factor?
  rw [hs, hdim]
  refine (Ends.tabulate h).bind fun m hm => ?_
  obtain ⟨M, hm, hM⟩ := hm
  exact ⟨m, M, rfl, hm, hM⟩

/-- A factor whose entries mean those of `F`. -/
theorem ends_factor?_value [ExactScalar α K] {lu : LU α} (hs : lu.isSingular = false)
    (hdim : lu.dim = n) {entry : ℕ → ℕ → Except Failure α} {F : Matrix (Fin n) (Fin n) K}
    (h : ∀ i j : Fin n, Ends E (fun x => value x = F i j) (entry i j)) :
    Ends E (fun f => ∃ (m : DenseMatrix α) (M : Matrix (Fin n) (Fin n) α),
      f = some m ∧ m.Stores M ∧ M.map value = F) (lu.factor? entry) := by
  refine (ends_factor? hs hdim h).imp ?_
  intro f hf
  obtain ⟨m, M, hf, hm, hM⟩ := hf
  refine ⟨m, M, hf, hm, ?_⟩
  ext i j
  exact hM i j

variable {lu : LU α} {σ : Equiv.Perm (Fin n)} {W : Matrix (Fin n) (Fin n) α}

theorem ends_lower? [ExactScalar α K] (h : lu.elimination.Holds σ W)
    (hs : lu.isSingular = false) :
    Ends E (fun f => ∃ (m : DenseMatrix α) (L : Matrix (Fin n) (Fin n) α),
      f = some m ∧ m.Stores L ∧ L.map value = Packed.lowerPart (W.map value)) lu.lower? := by
  refine ends_factor?_value hs h.packed.nrows fun i j => ?_
  rw [h.packed.entry i j]
  by_cases hji : j < i
  · simp [Packed.lowerPart, hji]
  · by_cases hij : i = j
    · simp [Packed.lowerPart, hij, ExactScalar.value_one]
    · have hne : (i : ℕ) ≠ j := fun hval => hij (Fin.ext hval)
      simp [Packed.lowerPart, hji, hij, hne, ExactScalar.value_zero]

theorem ends_upper? [ExactScalar α K] (h : lu.elimination.Holds σ W)
    (hs : lu.isSingular = false) :
    Ends E (fun f => ∃ (m : DenseMatrix α) (U : Matrix (Fin n) (Fin n) α),
      f = some m ∧ m.Stores U ∧ U.map value = Packed.upperPart (W.map value)) lu.upper? := by
  refine ends_factor?_value hs h.packed.nrows fun i j => ?_
  rw [h.packed.entry i j]
  by_cases hij : i ≤ j
  · simp [Packed.upperPart, hij]
  · simp [Packed.upperPart, hij, ExactScalar.value_zero]

theorem ends_permutation? [ExactScalar α K] (h : lu.elimination.Holds σ W)
    (hs : lu.isSingular = false) :
    Ends E (fun f => ∃ (m : DenseMatrix α) (P : Matrix (Fin n) (Fin n) α),
      f = some m ∧ m.Stores P ∧ P.map value = σ.permMatrix K) lu.permutation? := by
  refine ends_factor?_value hs h.packed.nrows fun i j => ?_
  rw [pivot, h.read_pivot i]
  by_cases hij : σ i = j
  · simp [Equiv.Perm.permMatrix, PEquiv.toMatrix_apply, hij, ExactScalar.value_one]
  · have hne : (σ i : ℕ) ≠ j := fun hval => hij (Fin.ext hval)
    simp [Equiv.Perm.permMatrix, PEquiv.toMatrix_apply, hij, hne, ExactScalar.value_zero]

end Decompositions

/-- Over an exact field, whatever counts as zero and however pivots are chosen, a
complete elimination represents the rows of its matrix. -/
theorem ends_ofPredicate [FieldScalar α] [ExactField α K] {A : Matrix (Fin n) (Fin n) α}
    {a : MatrixView α} (ha : a.Shows A) (isZero : α → Bool) (numeric : Bool) :
    Ends Fault (fun lu => ∃ σ W, lu.elimination.Holds σ W ∧
        (lu.isSingular = false → RepresentsRows A n σ W))
      (ofPredicate isZero numeric a) := by
  refine (ends_ofRule ExactScalar.failsBy_fault (selects_field isZero numeric)
    (fun _ _ _ _ => trivial) ha (I := RepresentsRows A) (representsRows_start A) ?_ none).imp ?_
  · intro col row σ W W' hrow _ hI hreduced
    exact hI.step hrow hreduced hreduced.pivot_ne_zero
  · intro lu hlu
    obtain ⟨σ, W, hfinished⟩ := hlu
    exact ⟨σ, W, hfinished.holds, hfinished.complete⟩

/-- Over an exact field, whatever counts as zero and however pivots are chosen, a
square matrix has a decomposition or meets a fault of arithmetic. If no column was
rejected, the three factors can be read off: the permutation matrix of the pivots, a
unit lower triangular and an upper triangular matrix with `P · A = L · U`. -/
theorem permutation_mul_eq_lower_mul_upper [FieldScalar α] [ExactField α K]
    {A : Matrix (Fin n) (Fin n) α} {a : MatrixView α} (ha : a.Shows A) (isZero : α → Bool)
    (numeric : Bool) :
    Ends Fault (fun lu => lu.isSingular = false →
        ∃ (p l u : DenseMatrix α) (P L U : Matrix (Fin n) (Fin n) α) (σ : Equiv.Perm (Fin n)),
          (lu.permutation? = .ok (some p) ∧ p.Stores P) ∧
          (lu.lower? = .ok (some l) ∧ l.Stores L) ∧
          (lu.upper? = .ok (some u) ∧ u.Stores U) ∧
          (lu.pivot.size = n ∧ ∀ i : Fin n, lu.pivot[i]? = some (σ i : ℕ)) ∧
          P.map value = σ.permMatrix K ∧
          ((L.map value).IsLowerTriangular ∧ ∀ i, value (L i i) = 1) ∧
          (U.map value).IsUpperTriangular ∧
          P.map value * A.map value = L.map value * U.map value)
      (ofPredicate isZero numeric a) := by
  refine (ends_ofPredicate ha isZero numeric).imp ?_
  intro lu hlu hs
  obtain ⟨σ, W, hholds, hrows⟩ := hlu
  obtain ⟨_, hp, p, P, rfl, hP, hPσ⟩ := Ends.never_iff.1 (ends_permutation? hholds hs)
  obtain ⟨_, hl, l, L, rfl, hL, hLW⟩ := Ends.never_iff.1 (ends_lower? hholds hs)
  obtain ⟨_, hu, u, U, rfl, hU, hUW⟩ := Ends.never_iff.1 (ends_upper? hholds hs)
  refine ⟨p, l, u, P, L, U, σ, ⟨hp, hP⟩, ⟨hl, hL⟩, ⟨hu, hU⟩, ⟨hholds.size, hholds.pivot⟩,
    hPσ, ⟨?_, fun i => ?_⟩, ?_, ?_⟩
  · rw [hLW]
    exact Packed.lowerPart_isLowerTriangular _
  · have hdiag := Packed.lowerPart_diag (W.map value) i
    rwa [← hLW] at hdiag
  · rw [hUW]
    exact Packed.upperPart_isUpperTriangular _
  · rw [hPσ, hLW, hUW, ← Packed.product_all, (hrows hs : Packed.product n (W.map value) = _)]
    exact PEquiv.toMatrix_toPEquiv_mul σ _

/-- A matrix of ratios whose first row cannot stay in place. -/
def exchanging : Matrix (Fin 3) (Fin 3) (Ratio 64) :=
  !![Scalar.zero, Scalar.one, Scalar.one;
     Scalar.one, Scalar.one, Scalar.zero;
     Scalar.one, Scalar.zero, Scalar.one]

/-- The decomposition of `exchanging` exchanges its first two rows. -/
theorem exists_decomposition_exchanging : ∃ lu : LU (Ratio 64),
    ofPredicate Scalar.isZero true (.ofMatrix exchanging) = .ok lu ∧ lu.isSingular = false ∧
      lu.pivot = #[1, 0, 2] := by
  have hrun : (ofPredicate Scalar.isZero true (.ofMatrix exchanging)).toOption.map
      (fun lu => (lu.isSingular, lu.pivot)) = some (false, #[1, 0, 2]) := by decide +kernel
  cases hlu : ofPredicate Scalar.isZero true (.ofMatrix exchanging) with
  | error e => simp [hlu, Except.toOption] at hrun
  | ok lu =>
      simp only [hlu, Except.toOption, Option.map_some, Option.some.injEq,
        Prod.mk.injEq] at hrun
      exact ⟨lu, rfl, hrun⟩

/-- The factors of `exchanging`. -/
theorem permutation_mul_eq_lower_mul_upper_exchanging :
    ∃ (lu : LU (Ratio 64)) (p l u : DenseMatrix (Ratio 64))
        (P L U : Matrix (Fin 3) (Fin 3) (Ratio 64)),
      ofPredicate Scalar.isZero true (.ofMatrix exchanging) = .ok lu ∧
        lu.pivot = #[1, 0, 2] ∧
        (lu.permutation? = .ok (some p) ∧ p.Stores P) ∧
        (lu.lower? = .ok (some l) ∧ l.Stores L) ∧
        (lu.upper? = .ok (some u) ∧ u.Stores U) ∧
        P.map value * exchanging.map value = L.map value * U.map value := by
  obtain ⟨lu, hlu, hs, hpivot⟩ := exists_decomposition_exchanging
  have hfactors := (permutation_mul_eq_lower_mul_upper (MatrixView.ofMatrix_shows exchanging)
    Scalar.isZero true).of_ok hlu
  obtain ⟨p, l, u, P, L, U, -, hp, hl, hu, -, -, -, -, hmul⟩ := hfactors hs
  exact ⟨lu, p, l, u, P, L, U, hlu, hpivot, hp, hl, hu, hmul⟩

end DenseFactor.LU
