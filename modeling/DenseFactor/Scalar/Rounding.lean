/-!
# DenseFactor.Scalar.Rounding

Real functions on binary floating-point numbers, **rounded once**.

Design points:

* A number is taken apart into sign, mantissa and exponent, the exact result is
  formed in integers, and the format rounds it once, to nearest with ties to
  even. Nothing here depends on the precision of an intermediate format.
* The length of a vector, `hypotenuse`, is the root of an exact sum of squares,
  so no square overflows or underflows on the way.
* The logarithm, `logarithm`, is summed in fixed point with `logBits` binary
  places. The result differs from the true value by less than `2 ^ (-230)`, far
  less than the distance of any logarithm of a binary64 number from a number
  where rounding changes.
-/

namespace DenseFactor.Rounding

open Float.Model Float.Model.UnpackedFloat

/-- The number of the format nearest to an unpacked number. -/
def nearest (format : Format) : UnpackedFloat → UnpackedFloat
  | .finite sign mantissa exponent _ => round format sign mantissa exponent
  | other => other

/-- The binary64 number nearest to a binary32 one, which is that number. -/
def widen (x : Float32) : Float :=
  .ofModel (.pack (nearest .binary64 x.toModel.unpack))

/-- The binary32 number nearest to a binary64 one. -/
def narrow (x : Float) : Float32 :=
  .ofModel (.pack (nearest .binary32 x.toModel.unpack))

/-- The binary64 number nearest to an integer. -/
def ofInteger (n : Int) : Float := .ofModel (.ofInt n)

/-! ### Length of a vector -/

/-- The length of the vector with the two coordinates. An infinite coordinate
makes it infinite, even beside a NaN. -/
def hypotenuse (format : Format) : UnpackedFloat → UnpackedFloat → UnpackedFloat
  | .infinity _, _ => .infinity .positive
  | _, .infinity _ => .infinity .positive
  | .notANumber, _ => .notANumber
  | _, .notANumber => .notANumber
  | .zero _, .zero _ => .zero .positive
  | .zero _, .finite _ m e h => .finite .positive m e h
  | .finite _ m e h, .zero _ => .finite .positive m e h
  | .finite _ m₁ e₁ _, .finite _ m₂ e₂ _ =>
    let exponent := min e₁ e₂
    let x := m₁ <<< (e₁ - exponent).toNat
    let y := m₂ <<< (e₂ - exponent).toNat
    let (root, rootExponent, accuracy) :=
      sqrtCore format (x * x + y * y) (2 * exponent)
    roundWithAccuracy format .positive root rootExponent accuracy

/-! ### Logarithm -/

/-- Binary places of the fixed-point sums. -/
def logBits : Nat := 256

/-- Terms of the series that are summed; with `z ≤ 1/3` the rest is below one
unit in the last place. -/
def logTerms : Nat := 90

/-- The sum of `power · square ^ i / (2·i + degree)` for the next `terms` values
of `i`, in fixed point. -/
def oddSeries (square : Nat) : (terms degree power : Nat) → Nat
  | 0, _, _ => 0
  | terms + 1, degree, power =>
    power / degree + oddSeries square terms (degree + 2) ((power * square) >>> logBits)

/-- The value of `2 · artanh (numerator / denominator)` in fixed point, for a
fraction of at most one third. -/
def twiceArtanh (numerator denominator : Nat) : Nat :=
  let z := (numerator <<< logBits) / denominator
  2 * oddSeries ((z * z) >>> logBits) logTerms 1 z

/-- The logarithm of two in fixed point. -/
def logTwo : Nat := twiceArtanh 1 3

/-- The logarithm of `mantissa · 2 ^ exponent` in fixed point: the mantissa is
scaled into `[1, 2)`, where `log y = 2 · artanh ((y - 1) / (y + 1))`. -/
def fixedLog (mantissa : Nat) (exponent : Int) : Int :=
  let unit := Nat.pow 2 mantissa.log2
  (exponent + mantissa.log2) * logTwo +
    twiceArtanh (mantissa - unit) (mantissa + unit)

/-- The natural logarithm: minus infinity at zero, not a number below it. -/
def logarithm (format : Format) : UnpackedFloat → UnpackedFloat
  | .notANumber => .notANumber
  | .infinity .positive => .infinity .positive
  | .infinity .negative => .notANumber
  | .zero _ => .infinity .negative
  | .finite .negative _ _ _ => .notANumber
  | .finite .positive mantissa exponent _ =>
    normalize format (fixedLog mantissa exponent) (-logBits) .positive

end DenseFactor.Rounding
