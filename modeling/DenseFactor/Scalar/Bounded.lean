import DenseFactor.Scalar.Basic

/-!
# DenseFactor.Scalar.Bounded

Integers of a fixed width in two's complement whose operations **fail instead of
wrapping**.

A value is stored as an unbounded integer; `BoundedInt.checked` is the one place
where the width matters.
-/

namespace DenseFactor

/-- Whether an integer lies in the range of `bits` bits in two's complement. -/
def fits (bits : Nat) (x : Int) : Bool :=
  let bound : Nat := Nat.pow 2 (bits - 1)
  decide (-(bound : Int) ≤ x ∧ x < bound)

/-- An integer of the given width. -/
structure BoundedInt (bits : Nat) where
  value : Int
  deriving DecidableEq, Repr

namespace BoundedInt

/-- The value if it fits the width, an overflow otherwise. -/
def checked (bits : Nat) (x : Int) : Except Failure Int :=
  if fits bits x then .ok x else .error .overflow

/-- A result of the width, if the value fits. -/
def ofInt (bits : Nat) (x : Int) : Except Failure (BoundedInt bits) :=
  (checked bits x).map (⟨·⟩)

/-- Division goes toward zero. -/
instance {bits : Nat} : Scalar (BoundedInt bits) where
  zero := ⟨0⟩
  one := ⟨1⟩
  beq x y := x.value == y.value
  add x y := ofInt bits (x.value + y.value)
  sub x y := ofInt bits (x.value - y.value)
  mul x y := ofInt bits (x.value * y.value)
  div x y :=
    if y.value = 0 then .error .divisionByZero
    else ofInt bits (x.value.tdiv y.value)

end BoundedInt

end DenseFactor
