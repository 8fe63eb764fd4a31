/-!
Finite double precision numbers, `±m · 2 ^ (p - 1074)` with a significand `m` of at most 53 bits.
The encoding is normal, so that two numbers are equal exactly if their fields are, zero and its
negative apart. `roundEven` is the nearest integer to a quotient, and `ofRatio?` the nearest
double to one.
-/

namespace Stylesheet

/-- A finite double. Its magnitude is `significand * 2 ^ power`, counted in units of `2 ^ -1074`. -/
structure Double where
  negative : Bool
  significand : Nat
  power : Nat
  significand_lt : significand < Nat.pow 2 53
  normal : Nat.pow 2 52 ≤ significand ∨ power = 0
  power_le : power ≤ 2045
deriving DecidableEq

namespace Double

/-- The nearest integer to `a / d`; of two equally near the even one. -/
def roundEven (a d : Nat) : Nat :=
  let q := a / d
  let twice := 2 * (a % d)
  if twice < d then q
  else if d < twice then q + 1
  else if q % 2 = 0 then q
  else q + 1

def zero (negative : Bool) : Double :=
  ⟨negative, 0, 0, by decide, .inr rfl, by decide⟩

/-- The double of these fields, if they encode one. -/
def ofFields? (negative : Bool) (significand power : Nat) : Option Double :=
  if h : significand < Nat.pow 2 53 ∧ (Nat.pow 2 52 ≤ significand ∨ power = 0) ∧
      power ≤ 2045 then
    some ⟨negative, significand, power, h.1, h.2.1, h.2.2⟩
  else
    none

/-- The least power for which the significand of `a / d` units has at most 53 bits. -/
def powerOf (a d : Nat) : Nat :=
  (a / d).log2 - 52

/-- The double nearest to `a / d` units of `2 ^ -1074`, of two equally near the one with an even
significand; `none` if that lies beyond the largest double. -/
def ofRatio? (negative : Bool) (a d : Nat) : Option Double :=
  let p := powerOf a d
  let m := roundEven a (d * Nat.pow 2 p)
  -- Rounding up may yield one bit more, of a power of two.
  if m = Nat.pow 2 53 then ofFields? negative (Nat.pow 2 52) (p + 1) else ofFields? negative m p

def isZero (x : Double) : Bool :=
  x.significand == 0

/-- Equality of values, for which the sign of zero does not count. -/
def same (x y : Double) : Bool :=
  x == y || (x.isZero && y.isZero)

/-- The magnitude in units of `2 ^ -1074`. -/
def units (x : Double) : Nat :=
  x.significand * Nat.pow 2 x.power

end Double
end Stylesheet
