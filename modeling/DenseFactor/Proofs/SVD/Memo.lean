import Mathlib
import DenseFactor.SVD.Memo
import DenseFactor.Proofs.Outcome

/-!
# DenseFactor.Proofs.SVD.Memo

What is kept of a decomposition is **what would be computed again**. So nothing that was
asked before changes an answer, and a decomposition that is used up gives the solver it
would have given in any other state.
-/

namespace DenseFactor.SVD.Memo

variable {ρ : Type} [RealScalar ρ] {s : SVD ρ} {m : Memo ρ}

/-- The memo is one of the decomposition, and keeps nothing else than what is derived from
it. -/
structure Faithful (s : SVD ρ) (m : Memo ρ) : Prop where
  svd : m.svd = s
  kept (d : Derived) (x : DenseMatrix ρ) (h : m.kept d = some x) : s.derive d = .ok x

theorem fresh_faithful (s : SVD ρ) : Faithful s (fresh s) where
  svd := rfl
  kept _ _ h := absurd h (Option.some_ne_none _).symm

/-- A derived matrix is the one that would be computed, whether it is kept or not. -/
theorem Faithful.matrix (h : Faithful s m) (d : Derived) :
    Prod.fst <$> m.matrix d = s.derive d ∧ Ends Always (fun (_, m') => Faithful s m') (m.matrix d) := by
  unfold Memo.matrix
  rw [h.svd]
  cases hkept : m.kept d with
  | some x => exact ⟨(h.kept d x hkept).symm, h⟩
  | none =>
      cases hderive : s.derive d with
      | error e => exact ⟨rfl, trivial⟩
      | ok x =>
          refine ⟨rfl, rfl, fun d' x' h' => ?_⟩
          by_cases hd : d' = d
          · obtain rfl : x = x' := by simpa [hd] using h'
            rw [hd, hderive]
          · exact h.kept d' x' (by simpa [hd] using h')

/-- The solver is that of the decomposition. -/
theorem Faithful.solver (h : Faithful s m) :
    Prod.fst <$> m.solver = s.solver ∧ Ends Always (fun (_, m') => Faithful s m') m.solver := by
  obtain ⟨hmatrix, hfaithful⟩ := h.matrix .pseudoInverse
  have hderive : s.derive .pseudoInverse = s.pseudoInverse := rfl
  unfold Memo.solver SVD.solver
  rw [← hderive, ← hmatrix]
  cases hm : m.matrix .pseudoInverse with
  | error e => exact ⟨rfl, trivial⟩
  | ok found =>
      have hfound : Faithful s found.2 := hfaithful.of_ok hm
      refine ⟨?_, hfound⟩
      simp only [bind, Except.bind, pure, Except.pure, Functor.map, Except.map, hfound.svd]

/-- **One request.** No request changes what the memo stands for. -/
theorem Faithful.after (h : Faithful s m) (request : Request) : Faithful s (m.after request) := by
  cases request with
  | matrix d =>
      cases hm : m.matrix d with
      | error e => simpa [Memo.after, hm] using h
      | ok found =>
          have hfound : Faithful s found.2 := (h.matrix d).2.of_ok hm
          simpa [Memo.after, hm] using hfound
  | solver =>
      cases hm : m.solver with
      | error e => simpa [Memo.after, hm] using h
      | ok found =>
          have hfound : Faithful s found.2 := h.solver.2.of_ok hm
          simpa [Memo.after, hm] using hfound

/-- **Any requests.** -/
theorem Faithful.run (h : Faithful s m) (requests : List Request) :
    Faithful s (requests.foldl Memo.after m) := by
  induction requests generalizing m with
  | nil => exact h
  | cons request requests ih => exact ih (h.after request)

/-- A memo that is used up gives the solver of the decomposition. -/
theorem Faithful.intoSolver (h : Faithful s m) : m.intoSolver = s.solver := by
  unfold Memo.intoSolver SVD.solver
  rw [h.svd]
  cases hkept : m.kept .pseudoInverse with
  | none => rfl
  | some x =>
      have hderive : s.pseudoInverse = .ok x := h.kept .pseudoInverse x hkept
      rw [hderive]
      rfl

end DenseFactor.SVD.Memo
