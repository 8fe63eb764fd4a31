import Stylesheet.Number.Decimal
import Stylesheet.Number.Shortest
import Stylesheet.Text.Ascii
/-!
The numbers a size may hold. Text yields finite ones only; sizes made by hand may also hold an
infinity or no number at all.
-/

namespace Stylesheet

inductive Number where
  | finite (value : Double)
  | infinite (negative : Bool)
  | nan
deriving DecidableEq

namespace Number

/-- Equality of values: `nan` differs from itself, and zero equals its negative. -/
def same : Number → Number → Bool
  | finite x, finite y => x.same y
  | infinite m, infinite n => m == n
  | _, _ => false

def isZero : Number → Bool
  | finite x => x.isZero
  | _ => false

/-- The number text in full: the sign of zero shows. -/
def text : Number → String
  | finite x => x.toDecimal
  | infinite negative => if negative then "-inf" else "inf"
  | nan => "NaN"

/-- The number as a style sheet has it, where zero has no sign. -/
def css (x : Number) : String :=
  if x.isZero then "0" else x.text

/-- The natural number `n`, which must be below `2 ^ 53` to be exact. -/
def ofNat (n : Nat) : Number :=
  match (Decimal.mk false n 0).toDouble? with
  | some x => finite x
  | none => infinite false

/-- Reads a number: a decimal literal, or one of the words `nan`, `inf` and `infinity`. A literal
beyond the largest double is read as an infinity. -/
def ofChars? (cs : List Char) : Option Number :=
  let (negative, word) := Decimal.splitSign cs
  let word := Text.lower (String.ofList word)
  if word = "nan" then some nan
  else if word = "inf" || word = "infinity" then some (infinite negative)
  else (Decimal.ofChars? cs).map fun d =>
    match d.toDouble? with
    | some x => finite x
    | none => infinite d.negative

/-- Whether the number lies from `low` to `high`, ends included. -/
def isBetween (low high : Nat) : Number → Bool
  | finite x =>
    let one := Nat.pow 2 1074
    (!x.negative || x.isZero) && low * one ≤ x.units && x.units ≤ high * one
  | _ => false

end Number
end Stylesheet
