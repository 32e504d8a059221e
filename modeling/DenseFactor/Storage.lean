import DenseFactor.Failure

/-!
# DenseFactor.Storage

Checked access to a run of stored elements, and runs that are built element by
element.

Every read and write states its position, and a position outside the run is the
failure `outOfBounds`. That a run of an algorithm meets none of these failures is
therefore a statement about the algorithm.
-/

namespace DenseFactor

variable {α β : Type}

/-- The positions from `start` up to, and not including, `stop`. -/
def positions (start stop : Nat) : List Nat := List.range' start (stop - start)

@[simp]
theorem mem_positions {start stop i : Nat} :
    i ∈ positions start stop ↔ start ≤ i ∧ i < stop := by
  simp only [positions, List.mem_range'_1]
  omega

/-- Runs over the positions from `start` up to `stop` with an accumulator. -/
def foldPositions (start stop : Nat) (initial : β)
    (step : β → Nat → Except Failure β) : Except Failure β :=
  (positions start stop).foldlM step initial

namespace Storage

/-- The element at a position. -/
def read (xs : Array α) (i : Nat) : Except Failure α :=
  match xs[i]? with
  | some x => .ok x
  | none => .error .outOfBounds

/-- The run with the element at a position replaced. -/
def write (xs : Array α) (i : Nat) (x : α) : Except Failure (Array α) :=
  if h : i < xs.size then .ok (xs.set i x h) else .error .outOfBounds

/-- The run with two elements exchanged. -/
def exchange (xs : Array α) (i j : Nat) : Except Failure (Array α) :=
  if h : i < xs.size ∧ j < xs.size then .ok (xs.swap i j h.1 h.2)
  else .error .outOfBounds

/-- The run of `n` elements with the given element at each position, built in
order. -/
def collect (n : Nat) (element : Nat → Except Failure α) :
    Except Failure (Array α) :=
  (Array.range n).mapM element

/-! ### Laws -/

@[simp]
theorem read_of_lt {xs : Array α} {i : Nat} (h : i < xs.size) :
    read xs i = .ok xs[i] := by
  simp [read, h]

@[simp]
theorem write_of_lt {xs : Array α} {i : Nat} {x : α} (h : i < xs.size) :
    write xs i x = .ok (xs.set i x h) := by
  simp [write, h]

@[simp]
theorem exchange_of_lt {xs : Array α} {i j : Nat} (hi : i < xs.size)
    (hj : j < xs.size) : exchange xs i j = .ok (xs.swap i j hi hj) := by
  simp [exchange, hi, hj]

/-- Elements computed in order over consecutive positions. -/
theorem mapM_range'_eq_ok_iff {element : Nat → Except Failure α} {n start : Nat}
    {ys : List α} :
    (List.range' start n).mapM element = .ok ys ↔
      ys.length = n ∧
        ∀ (i : Nat) (h : i < ys.length), element (start + i) = .ok ys[i] := by
  induction n generalizing start ys with
  | zero => cases ys <;> simp [pure, Except.pure]
  | succ n ih =>
    rw [List.range'_succ, List.mapM_cons]
    constructor
    · intro h
      cases hx : element start with
      | error e => simp [hx, bind, Except.bind] at h
      | ok x =>
        cases hr : (List.range' (start + 1) n).mapM element with
        | error e => simp [hx, hr, bind, Except.bind] at h
        | ok rest =>
          simp only [hx, hr, bind, Except.bind, pure, Except.pure, Except.ok.injEq] at h
          subst h
          obtain ⟨hl, he⟩ := ih.1 hr
          refine ⟨by simp [hl], fun i hi => ?_⟩
          cases i with
          | zero => simpa using hx
          | succ i =>
            simpa [Nat.add_assoc, Nat.add_comm 1 i] using he i (by simpa using hi)
    · rintro ⟨hl, he⟩
      cases ys with
      | nil => simp at hl
      | cons y rest =>
        have hx : element start = .ok y := by
          have := he 0 (by simp)
          simpa only [Nat.add_zero, List.getElem_cons_zero] using this
        have hr : (List.range' (start + 1) n).mapM element = .ok rest := by
          refine ih.2 ⟨by simpa using hl, fun i hi => ?_⟩
          have := he (i + 1) (by simpa using hi)
          simpa only [List.getElem_cons_succ, Nat.add_assoc, Nat.add_comm 1 i] using this
        simp [hx, hr, bind, Except.bind, pure, Except.pure]

/-- A run is collected iff every position has an element, and then holds them in
order. -/
theorem collect_eq_ok_iff {n : Nat} {element : Nat → Except Failure α} {xs : Array α} :
    collect n element = .ok xs ↔
      xs.size = n ∧ ∀ (i : Nat) (h : i < xs.size), element i = .ok xs[i] := by
  have hlist : collect n element = List.toArray <$> (List.range' 0 n).mapM element := by
    rw [collect, Array.mapM_eq_mapM_toList, Array.toList_range, List.range_eq_range']
  have hiff : (List.range' 0 n).mapM element = .ok xs.toList ↔ _ :=
    mapM_range'_eq_ok_iff
  simp only [Nat.zero_add, Array.length_toList, Array.getElem_toList] at hiff
  rw [hlist, ← hiff]
  cases (List.range' 0 n).mapM element with
  | error e => simp [Functor.map, Except.map]
  | ok ys =>
    simp only [Functor.map, Except.map, Except.ok.injEq]
    exact ⟨fun h => by simp [← h], fun h => by simp [h]⟩

/-- A run can be collected if every position has an element. -/
theorem exists_collect_eq_ok {n : Nat} {element : Nat → Except Failure α}
    (h : ∀ i < n, ∃ x, element i = .ok x) : ∃ xs, collect n element = .ok xs := by
  let values := (List.range n).attach.map fun i =>
    (h i.1 (List.mem_range.1 i.2)).choose
  refine ⟨values.toArray, collect_eq_ok_iff.2 ⟨by simp [values], fun i hi => ?_⟩⟩
  have hn : i < n := by simpa [values] using hi
  simpa [values] using (h i hn).choose_spec

end Storage

end DenseFactor
