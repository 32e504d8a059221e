import Mathlib
import DenseFactor.Storage
import DenseFactor.Proofs.Outcome

/-!
# DenseFactor.Proofs.Order

Runs of positions that list a **permutation**, as the pivoted decompositions keep them.

An exchange of two elements composes the permutation with the exchange of their
positions, on the side of the positions: position `i` of the new run shows what the old
one shows at the exchanged position.
-/

namespace DenseFactor

variable {n : ℕ} {E : Failure → Prop}

/-- Two exchanged elements of a run, all others in place. -/
theorem swap_getElem? {β : Type} {xs : Array β} {a b : ℕ} (ha : a < xs.size) (hb : b < xs.size)
    (i : ℕ) : (xs.swap a b ha hb)[i]? = xs[Equiv.swap a b i]? := by
  rw [Array.getElem?_swap, Equiv.swap_apply_def]
  by_cases hib : i = b
  · subst hib
    by_cases hia : i = a
    · simp [hia, ha]
    · simp [hia, ha]
  · by_cases hia : i = a
    · simp [hia, hb, Ne.symm (hia ▸ hib : a ≠ b)]
    · simp [hia, hib, Ne.symm hia, Ne.symm hib]

theorem read_swap {β : Type} {xs : Array β} {a b : ℕ} (ha : a < xs.size) (hb : b < xs.size)
    (i : ℕ) : Storage.read (xs.swap a b ha hb) i = Storage.read xs (Equiv.swap a b i) := by
  unfold Storage.read
  rw [swap_getElem?]

/-- An exchange shows what was at the exchanged positions. -/
theorem Storage.ends_exchange {β : Type} {xs : Array β} {a b : ℕ} :
    Ends Always (fun ys => ys.size = xs.size ∧ ∀ i : ℕ, ys[i]? = xs[Equiv.swap a b i]?)
      (Storage.exchange xs a b) := by
  unfold Storage.exchange
  by_cases h : a < xs.size ∧ b < xs.size
  · rw [dif_pos h]
    exact ⟨Array.size_swap, swap_getElem? h.1 h.2⟩
  · rw [dif_neg h]
    exact trivial

section Later

variable {a b : Fin n} {k : ℕ} (ha : k ≤ (a : ℕ)) (hb : k ≤ (b : ℕ))

include ha hb

/-- An exchange of two positions from `k` on moves none across `k`. -/
theorem le_swap_iff (i : Fin n) : k ≤ (Equiv.swap a b i : ℕ) ↔ k ≤ (i : ℕ) := by
  rw [Equiv.swap_apply_def]
  split_ifs <;> omega

/-- It leaves the positions before in place. -/
theorem swap_of_lt {i : Fin n} (hi : (i : ℕ) < k) : Equiv.swap a b i = i :=
  Equiv.swap_apply_of_ne_of_ne (by omega) (by omega)

end Later

/-- The run has the values of the permutation as its elements. -/
structure Lists (xs : Array ℕ) (σ : Equiv.Perm (Fin n)) : Prop where
  size : xs.size = n
  element (i : Fin n) : xs[i]? = some (σ i : ℕ)

namespace Lists

variable {xs : Array ℕ} {σ : Equiv.Perm (Fin n)}

/-- All positions in their own order. -/
theorem range (n : ℕ) : Lists (Array.range n) (1 : Equiv.Perm (Fin n)) where
  size := Array.size_range
  element i := by simp

/-- The positions stand in their own order exactly if nothing was moved. -/
theorem eq_range_iff (h : Lists xs σ) : xs = Array.range n ↔ σ = 1 := by
  constructor
  · rintro rfl
    ext i
    have helement := h.element i
    simp only [Fin.getElem?_fin, Array.getElem?_range, i.isLt, if_true, Option.some_inj] at helement
    exact helement.symm
  · rintro rfl
    refine Array.ext (by rw [h.size, Array.size_range]) fun i hi hi' => ?_
    have helement := h.element ⟨i, h.size ▸ hi⟩
    rw [Fin.getElem?_fin, Array.getElem?_eq_getElem hi] at helement
    simpa using helement

theorem read (h : Lists xs σ) (i : Fin n) : Storage.read xs i = .ok (σ i : ℕ) := by
  have helement := h.element i
  rw [Fin.getElem?_fin] at helement
  unfold Storage.read
  rw [helement]

/-- An exchange of two positions. -/
theorem exchange (h : Lists xs σ) (a b : Fin n) :
    Ends E (Lists · (σ * Equiv.swap a b)) (Storage.exchange xs a b) := by
  have hlt (i : Fin n) : (i : ℕ) < xs.size := by
    rw [h.size]
    exact i.isLt
  rw [Storage.exchange_of_lt (hlt a) (hlt b)]
  refine ⟨?_, fun i => ?_⟩
  · rw [Array.size_swap, h.size]
  · have hswap : Equiv.swap (a : ℕ) b i = (Equiv.swap a b i : Fin n) :=
      Fin.val_injective.swap_apply a b i
    rw [Fin.getElem?_fin, swap_getElem?, hswap]
    exact h.element (Equiv.swap a b i)

/-- Every position stands in exactly one place. -/
theorem existsUnique (h : Lists xs σ) (j : Fin n) : ∃! i : Fin n, xs[i]? = some (j : ℕ) := by
  refine ⟨σ.symm j, ?_, fun i hi => ?_⟩
  · dsimp only
    rw [h.element, Equiv.apply_symm_apply]
  · dsimp only at hi
    rw [h.element, Option.some_inj, Fin.val_inj] at hi
    rw [← hi, Equiv.symm_apply_apply]

/-- An exchange that succeeds is one of two positions of the run. -/
theorem ends_exchange (h : Lists xs σ) (a b : ℕ) :
    Ends Always (fun ys => ∃ i j : Fin n, (i : ℕ) = a ∧ (j : ℕ) = b ∧
      Lists ys (σ * Equiv.swap i j)) (Storage.exchange xs a b) := by
  by_cases hlt : a < n ∧ b < n
  · refine (h.exchange ⟨a, hlt.1⟩ ⟨b, hlt.2⟩).imp fun ys hys => ?_
    exact ⟨_, _, rfl, rfl, hys⟩
  · unfold Storage.exchange
    rw [← h.size] at hlt
    rw [dif_neg hlt]
    exact trivial

end Lists

end DenseFactor
