import Stylesheet.Number.Double
/-!
Decimal literals: an optional sign, digits with at most one point among them, and an optional
exponent. A literal denotes the double nearest to it.
-/

namespace Stylesheet

/-- A decimal literal: `±digits * 10 ^ exponent`. -/
structure Decimal where
  negative : Bool
  digits : Nat
  exponent : Int

namespace Decimal

def digitsValue (cs : List Char) : Nat :=
  Nat.ofDigitChars 10 cs 0

/-- Splits an optional sign off a text; `true` is the minus sign. -/
def splitSign : List Char → Bool × List Char
  | '-' :: rest => (true, rest)
  | '+' :: rest => (false, rest)
  | cs => (false, cs)

/-- The exponent written behind the digits of a literal, zero if there is none. -/
def exponent? : List Char → Option Int
  | [] => some 0
  | e :: rest =>
    if e = 'e' || e = 'E' then
      let (negative, digits) := splitSign rest
      if digits.isEmpty || !digits.all Char.isDigit then none
      else some (if negative then -(digitsValue digits : Int) else digitsValue digits)
    else none

/-- Reads a whole text as a literal. Some digit must stand before or behind the point. -/
def ofChars? (cs : List Char) : Option Decimal :=
  let (negative, cs) := splitSign cs
  let whole := cs.takeWhile Char.isDigit
  let rest := cs.dropWhile Char.isDigit
  let (fraction, rest) := match rest with
    | '.' :: rest => (rest.takeWhile Char.isDigit, rest.dropWhile Char.isDigit)
    | rest => ([], rest)
  if whole.isEmpty && fraction.isEmpty then none
  else (exponent? rest).map fun exponent =>
    ⟨negative, digitsValue (whole ++ fraction), exponent - fraction.length⟩

/-- The nearest double; `none` if it lies beyond the largest. A literal below `10 ^ -330` is
nearest to zero and one from `10 ^ 310` on too large, so powers of ten that long are not formed. -/
def toDouble? (d : Decimal) : Option Double :=
  let order := ((Nat.toDigits 10 d.digits).length : Int) + d.exponent
  if d.digits = 0 || order < -330 then some (.zero d.negative)
  else if 310 < order then none
  else if 0 ≤ d.exponent then
    Double.ofRatio? d.negative (d.digits * Nat.pow 10 d.exponent.toNat * Nat.pow 2 1074) 1
  else
    Double.ofRatio? d.negative (d.digits * Nat.pow 2 1074) (Nat.pow 10 (-d.exponent).toNat)

end Decimal
end Stylesheet
