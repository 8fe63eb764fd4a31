import Stylesheet.Number.Double
/-!
The decimal text of a double: the fewest digits that read back as the same double, and of those
the nearest, a tie going away from zero. All quantities are exact: counted in units of
`10 ^ -1076`, a double, and the ends of the interval of reals that round to it, are integers.
-/

namespace Stylesheet.Double

/-- A quarter of the least positive double, in units of `10 ^ -1076`. -/
def quarterUnit : Nat :=
  Nat.pow 5 1076

/-- The value in units of `10 ^ -1076`. -/
def exact (x : Double) : Nat :=
  4 * x.units * quarterUnit

/-- The lower end of the interval that rounds to `x`. Below a power of two doubles lie twice as
close. -/
def lowerEnd (x : Double) : Nat :=
  let gap := if x.significand = Nat.pow 2 52 && 0 < x.power then 1 else 2
  x.exact - gap * Nat.pow 2 x.power * quarterUnit

def upperEnd (x : Double) : Nat :=
  x.exact + 2 * Nat.pow 2 x.power * quarterUnit

/-- Whether a decimal rounds to `x`: the ends do if the significand is even. -/
def reads (x : Double) (decimal : Nat) : Bool :=
  if x.significand % 2 = 0 then x.lowerEnd ≤ decimal && decimal ≤ x.upperEnd
  else x.lowerEnd < decimal && decimal < x.upperEnd

/-- The multiple of `step` nearest to `x` among its two neighbours that read back, as a count of
steps. -/
def onGrid? (x : Double) (step : Nat) : Option Nat :=
  let below := x.exact / step
  let above := below + 1
  match x.reads (below * step), x.reads (above * step) with
  | false, false => none
  | true, false => some below
  | false, true => some above
  | true, true => some (if 2 * (x.exact - below * step) < step then below else above)

/-- The digits of the shortest decimal and the power of ten of its last digit. The grids are tried
from the coarsest on, the next power of ten included; the finest holds the value itself. -/
def shortest (x : Double) : Nat × Int :=
  let size := (Nat.toDigits 10 x.exact).length
  let found := (List.range (size + 1)).findSome? fun count =>
    let power := size - count
    (x.onGrid? (Nat.pow 10 power)).map fun digits => (digits, (power : Int) - 1076)
  found.getD (x.exact, -1076)

/-- A decimal without exponent: `digits * 10 ^ power`. -/
def positional (digits : Nat) (power : Int) : List Char :=
  let text := Nat.toDigits 10 digits
  if 0 ≤ power then text ++ List.replicate power.toNat '0'
  else
    let places := (-power).toNat
    if places < text.length then
      text.take (text.length - places) ++ '.' :: text.drop (text.length - places)
    else
      '0' :: '.' :: (List.replicate (places - text.length) '0' ++ text)

/-- The text of a double. Negative zero keeps its sign. -/
def toDecimal (x : Double) : String :=
  let magnitude := if x.isZero then ['0'] else positional x.shortest.1 x.shortest.2
  String.ofList (if x.negative then '-' :: magnitude else magnitude)

end Stylesheet.Double
