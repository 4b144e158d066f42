import EnvCompose.Decimal.Binary64

/-!
# The shortest decimal of a double

Of all decimals that round to the double, those with the fewest digits are taken, and of these the
nearest to the double; between two equally near ones the even digit wins.
-/
namespace EnvCompose.Decimal

structure Scientific where
  digits : Nat
  exponent : Int
  deriving DecidableEq, Repr

namespace Shortest

/-- Four times the mantissa and the two ends of the interval that rounds to the double, all as
multiples of `2 ^ (exponent - 2)`. Below a power of two the grid is finer. -/
structure Interval where
  low : Nat
  value : Nat
  high : Nat
  closed : Bool

def intervalOf (mantissa : Nat) (exponent : Int) : Interval where
  low := if mantissa = Nat.pow 2 52 ∧ Binary64.minExponent < exponent then 4 * mantissa - 1
    else 4 * mantissa - 2
  value := 4 * mantissa
  high := 4 * mantissa + 2
  closed := mantissa % 2 == 0

/-- A fraction, its bounds and a grid step over one denominator. -/
structure Grid where
  low : Nat
  value : Nat
  high : Nat
  step : Nat
  closed : Bool

/-- All quantities of the interval and the step `10 ^ k` times one common factor. -/
def gridOf (i : Interval) (exponent k : Int) : Grid :=
  let two := exponent - 2
  let up : Nat := if two < 0 then 1 else Nat.pow 2 two.natAbs
  let down : Nat := if two < 0 then Nat.pow 2 two.natAbs else 1
  let tenUp : Nat := if k < 0 then 1 else Nat.pow 10 k.natAbs
  let tenDown : Nat := if k < 0 then Nat.pow 10 k.natAbs else 1
  { low := i.low * up * tenDown, value := i.value * up * tenDown, high := i.high * up * tenDown,
    step := down * tenUp, closed := i.closed }

def Grid.holds (g : Grid) (point : Nat) : Bool :=
  let p := point * g.step
  if g.closed then g.low ≤ p && p ≤ g.high else g.low < p && p < g.high

/-- The grid point next to the value that lies in the interval, the nearer of two. -/
def Grid.nearest? (g : Grid) : Option Nat :=
  let below := g.value / g.step
  let above := below + 1
  let distanceBelow := g.value - below * g.step
  let distanceAbove := above * g.step - g.value
  let preferBelow := distanceBelow < distanceAbove ||
    (distanceBelow == distanceAbove && below % 2 == 0)
  match 0 < below && g.holds below, g.holds above with
  | true, true => some (if preferBelow then below else above)
  | true, false => some below
  | false, true => some above
  | false, false => none

/-- The power of ten of the leading digit of `mantissa * 2 ^ exponent`, or one less. -/
def leading (mantissa : Nat) (exponent : Int) : Int :=
  if exponent < 0 then
    let scaled := mantissa * Nat.pow 10 400 / Nat.pow 2 exponent.natAbs
    (Binary64.digitCount scaled : Int) - 401
  else (Binary64.digitCount (mantissa * Nat.pow 2 exponent.natAbs) : Int) - 1

/-- Tries one digit after the other; seventeen always suffice. -/
def search (i : Interval) (exponent top : Int) (tried : Nat) : Nat → Scientific
  | 0 => ⟨i.value / 4, 0⟩
  | left + 1 =>
    let k := top - tried
    match (gridOf i exponent k).nearest? with
    | some point => ⟨point, k⟩
    | none => search i exponent top (tried + 1) left

/-- Trailing zeros move into the exponent. -/
def trim (s : Scientific) : Nat → Scientific
  | 0 => s
  | left + 1 => if s.digits ≠ 0 ∧ s.digits % 10 = 0
      then trim ⟨s.digits / 10, s.exponent + 1⟩ left else s

end Shortest

/-- The shortest decimal that reads back as `mantissa * 2 ^ exponent`. -/
def shortest (mantissa : Nat) (exponent : Int) : Scientific :=
  if mantissa = 0 then ⟨0, 0⟩ else
  let i := Shortest.intervalOf mantissa exponent
  Shortest.trim (Shortest.search i exponent (Shortest.leading mantissa exponent) 0 18) 20

end EnvCompose.Decimal
