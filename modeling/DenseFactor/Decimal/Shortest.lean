/-!
# DenseFactor.Decimal.Shortest

The **shortest decimal text** of a binary64 number: the fewest significant
digits that read back as the same number, written without an exponent.

Design points:

* A finite number is decoded exactly. The reals that round to it form an
  interval around it (`Span`), whose ends belong to it iff the mantissa is even,
  because a tie rounds to the even mantissa.
* The digits are searched grid by grid: one digit, two digits, and so on. On
  each grid only the two neighbours of the number can matter, since the interval
  holds the number and is convex. Seventeen digits always suffice.
* Of two neighbours in the interval the nearer one is taken, and of two equally
  near ones the larger.
* All arithmetic is on natural numbers over a common denominator, so nothing is
  rounded on the way.
-/

namespace DenseFactor.Decimal

open Float.Model

/-- A positive number `value / den` inside the interval from `low / den` to
`high / den` of the reals that round to it. -/
structure Span where
  low : Nat
  value : Nat
  high : Nat
  den : Nat
  /-- Whether the two ends belong to the interval. -/
  closed : Bool

namespace Span

/-- The interval of `mantissa · 2 ^ exponent`. The gap to the next smaller
number is half as wide at a power of two, unless the exponent is already the
least one. -/
def ofBinary (mantissa : Nat) (exponent : Int) : Span :=
  let scale := Nat.pow 2 exponent.toNat
  let below :=
    if mantissa = Nat.pow 2 52 ∧ Format.binary64.minExponent < exponent then 1 else 2
  { low := (4 * mantissa - below) * scale
    value := 4 * mantissa * scale
    high := (4 * mantissa + 2) * scale
    den := 4 * Nat.pow 2 (-exponent).toNat
    closed := mantissa % 2 = 0 }

/-- The exponent `e` with `10 ^ (e - 1) ≤ value / den < 10 ^ e`. -/
def decimalExponent (s : Span) : Int :=
  if s.den ≤ s.value then ((Nat.toDigits 10 (s.value / s.den)).length : Int)
  else 1 - (Nat.toDigits 10 ((s.den - 1) / s.value)).length

/-- Whether `digits · 10 ^ exponent` lies in the interval. -/
def admits (s : Span) (exponent : Int) (digits : Nat) : Bool :=
  let point := digits * Nat.pow 10 exponent.toNat * s.den
  let unit := Nat.pow 10 (-exponent).toNat
  if s.closed then s.low * unit ≤ point && point ≤ s.high * unit
  else s.low * unit < point && point < s.high * unit

/-- The point of the grid with step `10 ^ exponent` that stands for the number,
if one of its two neighbours there lies in the interval. -/
def onGrid? (s : Span) (exponent : Int) : Option Nat :=
  let step := Nat.pow 10 exponent.toNat * s.den
  let scaled := s.value * Nat.pow 10 (-exponent).toNat
  let below := scaled / step
  match s.admits exponent below, s.admits exponent (below + 1) with
  | true, true => if 2 * (scaled % step) < step then some below else some (below + 1)
  | true, false => some below
  | false, true => some (below + 1)
  | false, false => none

/-- The first hit among the grids of one to seventeen digits, as digits and a
power of ten. -/
def shortest (s : Span) : Nat × Int :=
  let top := s.decimalExponent
  let found := (List.range 17).findSome? fun (n : Nat) =>
    let exponent := top - (n + 1)
    (s.onGrid? exponent).map fun digits => (digits, exponent)
  match found with
  | some (digits, exponent) =>
    if digits % 10 = 0 then (digits / 10, exponent + 1) else (digits, exponent)
  | none => (s.value / s.den, 0)

end Span

/-- The number `digits · 10 ^ exponent` written positionally: trailing zeros for a
non-negative exponent, a point and leading zeros for a negative one. -/
def positional (digits : Nat) (exponent : Int) : String :=
  let text := Nat.toDigits 10 digits
  match exponent with
  | .ofNat k => String.ofList (text ++ List.replicate k '0')
  | .negSucc k =>
    let padded := List.replicate (k + 2 - text.length) '0' ++ text
    let whole := padded.length - (k + 1)
    String.ofList (padded.take whole ++ '.' :: padded.drop whole)

/-- The sign a decimal text opens with. -/
def signText : UnpackedFloat.Sign → String
  | .positive => ""
  | .negative => "-"

/-- The shortest decimal text that reads back as the number. A whole number has
no point, and a zero keeps its sign. -/
def ofFloat (x : Float) : String :=
  match x.toModel.unpack with
  | .notANumber => "NaN"
  | .infinity sign => signText sign ++ "inf"
  | .zero sign => signText sign ++ "0"
  | .finite sign mantissa exponent _ =>
    let (digits, power) := (Span.ofBinary mantissa exponent).shortest
    signText sign ++ positional digits power

end DenseFactor.Decimal
