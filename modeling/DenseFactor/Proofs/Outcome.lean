import Mathlib
import DenseFactor.Storage

/-!
# DenseFactor.Proofs.Outcome

How a computation that may fail **ends**: in a result that meets one predicate, or
in a failure that meets another.

Design points:

* `Ends E P` is the one judgment about a single computation. `E := Never` says that there is a
  result, `E := Fault` that nothing but the arithmetic of the element type can keep
  it from being computed, `E := Overflow` that nothing but its width can, `E := Refusal`
  that it can only be refused, and `E := Always` speaks of the result alone.
* There is one rule for each way the library builds computations: `Ends.bind` for
  a sequence, `Ends.foldPositions` and `Ends.foldReversed` for a loop with an
  invariant over the positions already done, `Ends.anyM` and its like for a search,
  `Ends.collect` for a run of elements.
  The proofs about algorithms go through these rules and never open `Except`.
* `Keeps P x y` compares two computations that differ in their tests: what `x` accepts, `y`
  accepts with the same result. It has the same rules.
-/

namespace DenseFactor

variable {α β : Type} {E : Failure → Prop}

/-- The computation ends in a result that meets `P` or in a failure that meets
`E`. -/
def Ends (E : Failure → Prop) (P : α → Prop) : Except Failure α → Prop
  | .ok x => P x
  | .error e => E e

/-- No failure at all. -/
def Never (_ : Failure) : Prop := False

/-- Only a fault of arithmetic. -/
def Fault (e : Failure) : Prop := e.isArithmetic = true

/-- Only an ordinary answer of a decomposition or a solver. -/
def Refusal (e : Failure) : Prop := e.isRefusal = true

/-- An ordinary answer of a decomposition or a solver, or a failure that meets `E`. -/
def RefusalOr (E : Failure → Prop) (e : Failure) : Prop := Refusal e ∨ E e

/-- Only a result that does not fit its type. -/
def Overflow (e : Failure) : Prop := e = .overflow

/-- Any failure: what is said of the result holds if there is one. -/
def Always (_ : Failure) : Prop := True

theorem Overflow.fault {e : Failure} (h : Overflow e) : Fault e := by
  rw [Fault, h]
  rfl

theorem positions_zero (n : ℕ) : positions 0 n = List.range' 0 n := by
  rw [positions, Nat.sub_zero]

theorem positions_sorted (start stop : ℕ) : (positions start stop).Pairwise (· < ·) :=
  List.pairwise_lt_range' 1

namespace Ends

variable {P Q : α → Prop} {x : Except Failure α}

@[simp]
theorem ok_iff {a : α} : Ends E P (.ok a) ↔ P a := Iff.rfl

@[simp]
theorem pure_iff {a : α} : Ends E P (pure a) ↔ P a := Iff.rfl

@[simp]
theorem error_iff {e : Failure} : Ends E P (.error e) ↔ E e := Iff.rfl

/-- The result, where there is one. -/
theorem of_ok {a : α} (h : Ends E P x) (hx : x = .ok a) : P a := by
  rwa [hx] at h

/-- The failure, where there is one. -/
theorem of_error {e : Failure} (h : Ends E P x) (hx : x = .error e) : E e := by
  rwa [hx] at h

theorem imp (h : Ends E P x) (hPQ : ∀ a, P a → Q a) : Ends E Q x := by
  cases x with
  | ok a => exact hPQ a h
  | error e => exact h

theorem weaken {E' : Failure → Prop} (h : Ends E P x) (hE : ∀ e, E e → E' e) :
    Ends E' P x := by
  cases x with
  | ok a => exact h
  | error e => exact hE e h

/-- A computation that never fails ends well whatever failures are allowed. -/
theorem of_never (h : Ends Never P x) : Ends E P x :=
  h.weaken fun _ he => he.elim

/-- Where any failure is allowed, nothing has to be known of the result. -/
theorem always : Ends Always (fun _ => True) x := by
  cases x with
  | ok a => exact trivial
  | error e => exact trivial

/-- Two things are known of one result. -/
theorem and (hP : Ends E P x) (hQ : Ends E Q x) : Ends E (fun a => P a ∧ Q a) x := by
  cases x with
  | ok a => exact ⟨hP, hQ⟩
  | error e => exact hP

/-- A computation is known to end in `P`, and to fail by `E` only. -/
theorem failing {E' : Failure → Prop} (hP : Ends E' P x) (hE : Ends E Q x) : Ends E P x := by
  cases x with
  | ok a => exact hP
  | error e => exact hE

/-- What is known of a result is at least that it is the result. -/
theorem self (h : Ends E P x) : Ends E (fun a => x = .ok a ∧ P a) x := by
  cases x with
  | ok a => exact ⟨rfl, h⟩
  | error e => exact h

/-- A computation whose result can be checked can be run to see how it ends. -/
instance decidableNever [DecidablePred P] : Decidable (Ends Never P x) :=
  match x with
  | .ok a => inferInstanceAs (Decidable (P a))
  | .error _ => .isFalse id

theorem never_iff : Ends Never P x ↔ ∃ a, x = .ok a ∧ P a := by
  cases x with
  | ok a => simp
  | error e => simp [Never]

/-- The first computation ends in a result from which the second ends well. -/
theorem bind {R : β → Prop} {f : α → Except Failure β} (hx : Ends E P x)
    (hf : ∀ a, P a → Ends E R (f a)) : Ends E R (x >>= f) := by
  cases x with
  | ok a => exact hf a hx
  | error e => exact hx

/-- Two sequences that begin alike and continue alike after every result that can occur. -/
theorem bind_congr (hx : Ends Always P x) {f g : α → Except Failure β}
    (hfg : ∀ a, P a → f a = g a) : x >>= f = x >>= g := by
  cases x with
  | ok a => exact hfg a hx
  | error e => rfl

/-- A sequence has a result if its first computation has one from which the second has one. -/
theorem never_bind_iff {R : β → Prop} {f : α → Except Failure β} :
    Ends Never R (x >>= f) ↔ ∃ a, x = .ok a ∧ Ends Never R (f a) := by
  cases x with
  | ok a =>
      refine ⟨fun h => ⟨a, rfl, h⟩, ?_⟩
      rintro ⟨_, ⟨⟩, h⟩
      exact h
  | error e => exact ⟨False.elim, nofun⟩

/-- A result that is computed further without failing. -/
theorem map_iff {R : β → Prop} {f : α → β} :
    Ends E R (f <$> x) ↔ Ends E (fun a => R (f a)) x := by
  cases x with
  | ok a => exact Iff.rfl
  | error e => exact Iff.rfl

@[simp]
theorem ok_bind_iff {R : β → Prop} {a : α} {f : α → Except Failure β} :
    Ends E R ((.ok a : Except Failure α) >>= f) ↔ Ends E R (f a) := Iff.rfl

/-- Either of two computations ends well where it is the one that is run. -/
theorem ite {C : Prop} [Decidable C] {y : Except Failure α} (hx : C → Ends E P x)
    (hy : ¬ C → Ends E P y) : Ends E P (if C then x else y) := by
  by_cases hC : C
  · rw [if_pos hC]
    exact hx hC
  · rw [if_neg hC]
    exact hy hC

/-- A first computation that depends on a condition; the second is the same in both
cases. -/
theorem ite_bind {R : β → Prop} {C : Prop} [Decidable C] {y : Except Failure α}
    {f : α → Except Failure β} (hx : Ends E P (if C then x else y))
    (hf : ∀ a, P a → Ends E R (f a)) : Ends E R (if C then x >>= f else y >>= f) := by
  by_cases hC : C
  · rw [if_pos hC] at hx ⊢
    exact hx.bind hf
  · rw [if_neg hC] at hx ⊢
    exact hx.bind hf

/-! ### Loops -/

/-- A loop over consecutive positions keeps an invariant that counts them. -/
theorem foldlM_range' {step : β → ℕ → Except Failure β} {I : ℕ → β → Prop} {start n : ℕ}
    {b : β} (h0 : I start b)
    (hstep : ∀ k b, start ≤ k → k < start + n → I k b → Ends E (I (k + 1)) (step b k)) :
    Ends E (I (start + n)) ((List.range' start n).foldlM step b) := by
  -- the first position is done and the rest is a loop that starts one later
  induction n generalizing start b with
  | zero => simpa using h0
  | succ n ih =>
      rw [List.range'_succ, List.foldlM_cons]
      refine (hstep start b le_rfl (by omega) h0).bind fun b' hb' => ?_
      have hend : start + 1 + n = start + (n + 1) := by omega
      rw [← hend]
      exact ih hb' fun k c hk hk' => hstep k c (by omega) (by omega)

/-- The loop rule for positions that are passed upwards. -/
theorem foldlM_positions {step : β → ℕ → Except Failure β} {I : ℕ → β → Prop}
    {start stop : ℕ} {b : β} (hle : start ≤ stop) (h0 : I start b)
    (hstep : ∀ k b, start ≤ k → k < stop → I k b → Ends E (I (k + 1)) (step b k)) :
    Ends E (I stop) ((positions start stop).foldlM step b) := by
  have hend : start + (stop - start) = stop := by omega
  have h := foldlM_range' (E := E) (n := stop - start) h0
    fun k b hk hk' => hstep k b hk (by omega)
  rwa [hend] at h

/-- The loop rule of `foldPositions`. -/
theorem foldPositions {step : β → ℕ → Except Failure β} {I : ℕ → β → Prop}
    {start stop : ℕ} {b : β} (hle : start ≤ stop) (h0 : I start b)
    (hstep : ∀ k b, start ≤ k → k < stop → I k b → Ends E (I (k + 1)) (step b k)) :
    Ends E (I stop) (foldPositions start stop b step) :=
  foldlM_positions hle h0 hstep

/-- The loop rule for positions that are passed downwards. -/
theorem foldReversed {step : β → ℕ → Except Failure β} {I : ℕ → β → Prop} {n : ℕ} {b : β}
    (h0 : I n b) (hstep : ∀ k b, k < n → I (k + 1) b → Ends E (I k) (step b k)) :
    Ends E (I 0) ((positions 0 n).reverse.foldlM step b) := by
  rw [positions_zero, ← List.range_eq_range']
  -- the last position comes first, and what is left is a loop over one position less
  induction n generalizing b with
  | zero => exact h0
  | succ n ih =>
      rw [List.range_succ, List.reverse_append, List.reverse_singleton, List.singleton_append,
        List.foldlM_cons]
      refine (hstep n b (by omega) h0).bind fun b' hb' => ?_
      exact ih hb' fun k c hk => hstep k c (by omega)

/-! ### Searches -/

/-- What a search finds is in the list and was answered by `true`. -/
theorem findM?_mem {p : ℕ → Except Failure Bool} {Q : ℕ → Bool → Prop} {l : List ℕ}
    (h : ∀ i ∈ l, Ends E (Q i) (p i)) :
    Ends E (fun found => ∀ i ∈ found, i ∈ l ∧ Q i true) (l.findM? p) := by
  induction l with
  | nil => exact pure_iff.2 fun i hi => absurd hi (Option.not_mem_none i)
  | cons i l ih =>
      rw [List.findM?]
      refine (h i List.mem_cons_self).bind fun found hfound => ?_
      cases found with
      | true =>
          refine pure_iff.2 fun j hj => ?_
          obtain rfl := Option.some.inj hj
          exact ⟨List.mem_cons_self, hfound⟩
      | false =>
          refine (ih fun j hj => h j (List.mem_cons_of_mem i hj)).imp fun found hfound j hj => ?_
          exact ⟨List.mem_cons_of_mem i (hfound j hj).1, (hfound j hj).2⟩

/-- A search that is answered by `false` everywhere finds nothing. -/
theorem findM? {p : ℕ → Except Failure Bool} {l : List ℕ}
    (h : ∀ i ∈ l, Ends E (· = false) (p i)) : Ends E (· = none) (l.findM? p) := by
  refine (findM?_mem h).imp fun found hfound => Option.eq_none_iff_forall_not_mem.2 fun i hi => ?_
  exact Bool.false_ne_true (hfound i hi).2.symm

/-- A search that is answered by `none` everywhere finds nothing. -/
theorem findSomeM? {f : ℕ → Except Failure (Option β)} {l : List ℕ}
    (h : ∀ i ∈ l, Ends E (· = none) (f i)) : Ends E (· = none) (l.findSomeM? f) := by
  induction l with
  | nil => exact pure_iff.2 rfl
  | cons i l ih =>
      rw [List.findSomeM?]
      refine (h i List.mem_cons_self).bind ?_
      intro found hfound
      subst hfound
      exact ih fun j hj => h j (List.mem_cons_of_mem i hj)

/-- A search through positions in order finds the first that is answered by `true`. -/
theorem findM?_first {p : ℕ → Except Failure Bool} {Q : ℕ → Bool → Prop} {l : List ℕ}
    (hl : l.Pairwise (· < ·)) (h : ∀ i ∈ l, Ends E (Q i) (p i)) :
    Ends E (fun found => (found = none → ∀ i ∈ l, Q i false) ∧
      ∀ i ∈ found, i ∈ l ∧ Q i true ∧ ∀ j ∈ l, j < i → Q j false) (l.findM? p) := by
  induction l with
  | nil => exact pure_iff.2 ⟨fun _ i hi => absurd hi List.not_mem_nil, fun i hi => nomatch hi⟩
  | cons k l ih =>
      obtain ⟨hk, hl⟩ := List.pairwise_cons.1 hl
      rw [List.findM?]
      refine (h k List.mem_cons_self).bind fun found hfound => ?_
      cases found with
      | true =>
          refine pure_iff.2 ⟨nofun, fun i hi => ?_⟩
          obtain rfl := Option.some.inj hi
          refine ⟨List.mem_cons_self, hfound, fun j hj hjk => ?_⟩
          -- nothing in the list is before its head
          rcases List.mem_cons.1 hj with rfl | hj
          · exact absurd hjk (lt_irrefl j)
          · exact absurd hjk (hk j hj).not_gt
      | false =>
          refine (ih hl fun j hj => h j (List.mem_cons_of_mem k hj)).imp ?_
          rintro found ⟨hnone, hsome⟩
          refine ⟨fun hfound' => List.forall_mem_cons.2 ⟨hfound, hnone hfound'⟩, fun i hi => ?_⟩
          obtain ⟨hmem, htrue, hfirst⟩ := hsome i hi
          exact ⟨List.mem_cons_of_mem k hmem, htrue,
            List.forall_mem_cons.2 ⟨fun _ => hfound, hfirst⟩⟩

/-- A search through positions in order finds the first answer. -/
theorem findSomeM?_first {f : ℕ → Except Failure (Option β)} {Q : ℕ → Option β → Prop}
    {l : List ℕ} (hl : l.Pairwise (· < ·)) (h : ∀ i ∈ l, Ends E (Q i) (f i)) :
    Ends E (fun found => (found = none → ∀ i ∈ l, Q i none) ∧
      ∀ x ∈ found, ∃ i ∈ l, Q i (some x) ∧ ∀ j ∈ l, j < i → Q j none) (l.findSomeM? f) := by
  induction l with
  | nil => exact pure_iff.2 ⟨fun _ i hi => absurd hi List.not_mem_nil, fun x hx => nomatch hx⟩
  | cons k l ih =>
      obtain ⟨hk, hl⟩ := List.pairwise_cons.1 hl
      rw [List.findSomeM?]
      refine (h k List.mem_cons_self).bind fun found hfound => ?_
      cases found with
      | some x =>
          refine pure_iff.2 ⟨nofun, fun y hy => ?_⟩
          obtain rfl := Option.some.inj hy
          refine ⟨k, List.mem_cons_self, hfound, fun j hj hjk => ?_⟩
          rcases List.mem_cons.1 hj with rfl | hj
          · exact absurd hjk (lt_irrefl j)
          · exact absurd hjk (hk j hj).not_gt
      | none =>
          refine (ih hl fun j hj => h j (List.mem_cons_of_mem k hj)).imp ?_
          rintro found ⟨hnone, hsome⟩
          refine ⟨fun hfound' => List.forall_mem_cons.2 ⟨hfound, hnone hfound'⟩, fun x hx => ?_⟩
          obtain ⟨i, hi, hanswer, hfirst⟩ := hsome x hx
          exact ⟨i, List.mem_cons_of_mem k hi, hanswer,
            List.forall_mem_cons.2 ⟨fun _ => hfound, hfirst⟩⟩

/-- A test of all positions tells whether all meet the condition. -/
theorem allM {p : ℕ → Except Failure Bool} {P : ℕ → Prop} {l : List ℕ}
    (h : ∀ i ∈ l, Ends E (fun b => b = true ↔ P i) (p i)) :
    Ends E (fun b => b = true ↔ ∀ i ∈ l, P i) (l.allM p) := by
  induction l with
  | nil => exact pure_iff.2 (by simp)
  | cons i l ih =>
      rw [List.allM]
      refine (h i List.mem_cons_self).bind ?_
      intro met hmet
      cases met with
      | true =>
          have hi : P i := hmet.1 rfl
          refine (ih fun j hj => h j (List.mem_cons_of_mem i hj)).imp fun b hb => ?_
          rw [hb]
          simp [hi]
      | false =>
          have hi : ¬ P i := fun hPi => Bool.false_ne_true (hmet.2 hPi)
          exact pure_iff.2 (by simp [hi])

/-- A search for one position that meets a condition tells whether there is one. -/
theorem anyM {p : ℕ → Except Failure Bool} {P : ℕ → Prop} {l : List ℕ}
    (h : ∀ i ∈ l, Ends E (fun b => b = true ↔ P i) (p i)) :
    Ends E (fun b => b = true ↔ ∃ i ∈ l, P i) (l.anyM p) := by
  induction l with
  | nil => exact pure_iff.2 (by simp)
  | cons i l ih =>
      rw [List.anyM]
      refine (h i List.mem_cons_self).bind ?_
      intro found hfound
      cases found with
      | true =>
          have hi : P i := hfound.1 rfl
          exact pure_iff.2 (by simp [hi])
      | false =>
          have hi : ¬ P i := fun hPi => Bool.false_ne_true (hfound.2 hPi)
          refine (ih fun j hj => h j (List.mem_cons_of_mem i hj)).imp fun b hb => ?_
          rw [hb]
          simp [hi]

end Ends

/-! ### Two computations -/

/-- Every result of the first computation that meets `P` is the result of the second. -/
def Keeps (P : α → Prop) (x y : Except Failure α) : Prop := ∀ a, x = .ok a → P a → y = .ok a

namespace Keeps

variable {P : α → Prop} {R : β → Prop} {x y : Except Failure α} {f g : α → Except Failure β}

theorem refl (P : α → Prop) (x : Except Failure α) : Keeps P x x := fun _ hx _ => hx

/-- Two sequences. A first result that is not kept leads to none that has to be. -/
theorem bind (hx : Keeps P x y) (hf : ∀ a, P a → Keeps R (f a) (g a))
    (hother : ∀ a b, ¬ P a → f a = .ok b → ¬ R b) : Keeps R (x >>= f) (y >>= g) := by
  intro b hb hR
  cases x with
  | error e => cases hb
  | ok a =>
      by_cases hP : P a
      · rw [hx a rfl hP]
        exact hf a hP b hb hR
      · exact absurd hR (hother a b hP hb)

/-- Two sequences of which every first result is kept. -/
theorem bind_all (hx : Keeps (fun _ => True) x y) (hf : ∀ a, Keeps R (f a) (g a)) :
    Keeps R (x >>= f) (y >>= g) :=
  hx.bind (fun a _ => hf a) fun _ _ hfalse => absurd trivial hfalse

/-- Two sequences that begin alike. -/
theorem bind_same (hf : ∀ a, Keeps R (f a) (g a)) : Keeps R (x >>= f) (x >>= g) :=
  (refl _ x).bind_all hf

/-- Two loops whose steps are kept. -/
theorem foldlM {f g : β → ℕ → Except Failure β} (h : ∀ b i, Keeps (fun _ => True) (f b i) (g b i))
    (l : List ℕ) (b : β) : Keeps (fun _ => True) (l.foldlM f b) (l.foldlM g b) := by
  induction l generalizing b with
  | nil => exact refl _ _
  | cons i l ih =>
      rw [List.foldlM_cons, List.foldlM_cons]
      exact (h b i).bind_all ih

/-- Two searches: what finds nothing still finds nothing if every `false` is kept. -/
theorem findM? {p q : ℕ → Except Failure Bool} (h : ∀ i, Keeps (· = false) (p i) (q i))
    (l : List ℕ) : Keeps (· = none) (l.findM? p) (l.findM? q) := by
  induction l with
  | nil => exact refl _ _
  | cons i l ih =>
      rw [List.findM?, List.findM?]
      refine (h i).bind ?_ ?_
      · rintro _ rfl
        exact ih
      · intro b found hb hfound hnone
        rw [Bool.not_eq_false] at hb
        subst hb hnone
        cases hfound

theorem findSomeM? {f g : ℕ → Except Failure (Option β)} (h : ∀ i, Keeps (· = none) (f i) (g i))
    (l : List ℕ) : Keeps (· = none) (l.findSomeM? f) (l.findSomeM? g) := by
  induction l with
  | nil => exact refl _ _
  | cons i l ih =>
      rw [List.findSomeM?, List.findSomeM?]
      refine (h i).bind ?_ ?_
      · rintro _ rfl
        exact ih
      · intro b found hb hfound hnone
        subst hnone
        cases b with
        | none => exact hb rfl
        | some x => cases hfound

end Keeps

/-- Two loops side by side keep a relation of their states. -/
theorem foldlM_positions_pair {γ : Type} {step : β → ℕ → Except Failure β}
    {step' : γ → ℕ → Except Failure γ} {I : ℕ → β → γ → Prop} {n : ℕ} {b : β} {b' : γ}
    (h0 : I 0 b b') (hstep : ∀ k c c', k < n → I k c c' →
      ∃ d d', step c k = .ok d ∧ step' c' k = .ok d' ∧ I (k + 1) d d') :
    ∃ d d', (positions 0 n).foldlM step b = .ok d ∧ (positions 0 n).foldlM step' b' = .ok d' ∧
      I n d d' := by
  -- the last position is the last step of both
  induction n with
  | zero => exact ⟨b, b', rfl, rfl, h0⟩
  | succ n ih =>
      obtain ⟨c, c', hc, hc', hI⟩ := ih fun k c c' hk => hstep k c c' (Nat.lt_succ_of_lt hk)
      obtain ⟨d, d', hd, hd', hI'⟩ := hstep n c c' (Nat.lt_succ_self n) hI
      rw [positions_zero] at hc hc' ⊢
      rw [List.range'_concat, List.foldlM_append, List.foldlM_append, hc, hc', zero_add, one_mul]
      refine ⟨d, d', ?_, ?_, hI'⟩
      · exact (bind_pure (step c n)).trans hd
      · exact (bind_pure (step' c' n)).trans hd'

/-- Loops whose steps agree wherever an invariant holds. -/
theorem foldlM_congr_of {f g : β → ℕ → Except Failure β} {I : β → Prop} {l : List ℕ}
    (hI : ∀ b, ∀ i ∈ l, I b → Ends Always I (f b i))
    (h : ∀ b, ∀ i ∈ l, I b → f b i = g b i) {b : β} (hb : I b) : l.foldlM f b = l.foldlM g b := by
  induction l generalizing b with
  | nil => rfl
  | cons i l ih =>
      rw [List.foldlM_cons, List.foldlM_cons, ← h b i List.mem_cons_self hb]
      refine (hI b i List.mem_cons_self hb).bind_congr fun b' hb' => ?_
      exact ih (fun c j hj => hI c j (List.mem_cons_of_mem i hj))
        (fun c j hj => h c j (List.mem_cons_of_mem i hj)) hb'

/-- Loops whose steps agree at every position they pass. -/
theorem foldlM_congr {f g : β → ℕ → Except Failure β} {l : List ℕ}
    (h : ∀ b, ∀ i ∈ l, f b i = g b i) (b : β) : l.foldlM f b = l.foldlM g b :=
  foldlM_congr_of (fun _ _ _ _ => Ends.always) (fun b i hi _ => h b i hi) trivial

/-! ### Runs of elements -/

/-- What is read is there. -/
theorem Storage.ends_read {xs : Array α} {i : ℕ} :
    Ends Always (fun x => xs[i]? = some x) (Storage.read xs i) := by
  unfold Storage.read
  cases xs[i]? with
  | some x => exact rfl
  | none => exact trivial

/-- What is written is there afterwards, and everything else as before. -/
theorem Storage.ends_write {xs : Array α} {i : ℕ} {x : α} :
    Ends Always (fun ys => ys.size = xs.size ∧ ys[i]? = some x ∧ ∀ j, j ≠ i → ys[j]? = xs[j]?)
      (Storage.write xs i x) := by
  unfold Storage.write
  by_cases h : i < xs.size
  · rw [dif_pos h]
    refine ⟨Array.size_set h, ?_, fun j hj => ?_⟩
    · rw [Array.getElem?_set_self]
    · rw [Array.getElem?_set_ne h hj.symm]
  · rw [dif_neg h]
    exact trivial

/-- Collecting a list fails with the failure of one of its elements. -/
theorem exists_error_of_mapM {element : ℕ → Except Failure α} {l : List ℕ} {e : Failure}
    (h : l.mapM element = .error e) : ∃ i ∈ l, element i = .error e := by
  induction l with
  | nil => simp [pure, Except.pure] at h
  | cons i l ih =>
      rw [List.mapM_cons] at h
      cases hi : element i with
      | error e' =>
          have he : e' = e := by simpa [hi, bind, Except.bind] using h
          exact ⟨i, List.mem_cons_self, he ▸ hi⟩
      | ok x =>
          cases hl : l.mapM element with
          | ok ys => simp [hi, hl, bind, Except.bind, pure, Except.pure] at h
          | error e' =>
              have he : e' = e := by simpa [hi, hl, bind, Except.bind] using h
              obtain ⟨j, hj, hje⟩ := ih (he ▸ hl)
              exact ⟨j, List.mem_cons_of_mem i hj, hje⟩

/-- A run fails with the failure of one of its elements. -/
theorem Storage.exists_error_of_collect {n : ℕ} {element : ℕ → Except Failure α} {e : Failure}
    (h : Storage.collect n element = .error e) : ∃ i < n, element i = .error e := by
  rw [Storage.collect, Array.mapM_eq_mapM_toList, Array.toList_range] at h
  cases hl : (List.range n).mapM element with
  | ok ys => simp [hl, Functor.map, Except.map] at h
  | error e' =>
      have he : e' = e := by simpa [hl, Functor.map, Except.map] using h
      obtain ⟨i, hi, hie⟩ := exists_error_of_mapM (he ▸ hl)
      exact ⟨i, List.mem_range.1 hi, hie⟩

/-- Only the elements of the run count, failures included. -/
theorem Storage.collect_congr {n : ℕ} {f g : ℕ → Except Failure α} (h : ∀ i < n, f i = g i) :
    collect n f = collect n g := by
  have hlist (l : List ℕ) (hl : ∀ i ∈ l, i < n) : l.mapM f = l.mapM g := by
    induction l with
    | nil => rfl
    | cons i l ih =>
        rw [List.mapM_cons, List.mapM_cons, h i (hl i List.mem_cons_self),
          ih fun j hj => hl j (List.mem_cons_of_mem i hj)]
  rw [collect, collect, Array.mapM_eq_mapM_toList, Array.mapM_eq_mapM_toList, Array.toList_range,
    hlist _ fun i hi => List.mem_range.1 hi]

/-- A run whose elements end well can be read at every position, and what is read
there is good. -/
theorem Ends.collect {n : ℕ} {element : ℕ → Except Failure α} {P : Fin n → α → Prop}
    (h : ∀ i : Fin n, Ends E (P i) (element i)) :
    Ends E (fun xs => ∃ x : Fin n → α, ∀ i : Fin n, Storage.read xs i = .ok (x i) ∧ P i (x i))
      (Storage.collect n element) := by
  cases hc : Storage.collect n element with
  | ok xs =>
      obtain ⟨hsize, hget⟩ := Storage.collect_eq_ok_iff.1 hc
      have hread (i : Fin n) : ∃ x, Storage.read xs i = .ok x ∧ P i x := by
        have hlt : (i : ℕ) < xs.size := hsize ▸ i.isLt
        exact ⟨xs[(i : ℕ)], Storage.read_of_lt hlt, (h i).of_ok (hget i hlt)⟩
      choose x hx using hread
      exact ⟨x, hx⟩
  | error e =>
      obtain ⟨i, hi, hie⟩ := Storage.exists_error_of_collect hc
      exact (h ⟨i, hi⟩).of_error hie

end DenseFactor
