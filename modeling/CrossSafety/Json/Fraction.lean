import CrossSafety.Json.Number

/-!
# Numbers with a fraction or an exponent

The digits of a number are read into a significand of 64 bits and a power of ten. Digits that find
no place in the significand only count towards the power if they stand in front of the point, and
are dropped behind it. The floating-point number for it is that of the significand, multiplied or
divided by powers of ten with a rounding at each step, and has to be finite.
-/
namespace CrossSafety.Json

/-- The number `significand * 10 ^ exponent`. -/
structure Scaled where
  significand : Nat
  exponent : Int
deriving DecidableEq

namespace Scaled

def maxSignificand : Nat := 18446744073709551615

def digitOf (c : UInt8) : Nat := c.toNat - 48

/-- Reads one more digit in front of the point. After one that found no place, none does. -/
def addDigit (n : Scaled) (c : UInt8) : Scaled :=
  let next := 10 * n.significand + digitOf c
  if n.exponent = 0 ∧ next ≤ maxSignificand then { n with significand := next }
  else { n with exponent := n.exponent + 1 }

def ofDigits (digits : Bytes) : Scaled := digits.foldl addDigit ⟨0, 0⟩

/-- Reads digits behind the point, up to the first one that finds no place. -/
def withFraction (n : Scaled) : Bytes → Scaled
  | [] => n
  | c :: rest =>
    let next := 10 * n.significand + digitOf c
    if next ≤ maxSignificand then withFraction ⟨next, n.exponent - 1⟩ rest else n

/-- The highest power of ten that is a floating-point number. -/
def maxPower : Nat := 308

/-- A power of ten, not above `10 ^ maxPower`. -/
def power (n : Nat) : Float := .ofScientific 1 false n

/-- Divides by `10 ^ n`, in steps if that is too high. -/
def divided (value : Float) (n : Nat) : Float :=
  if n ≤ maxPower then value / power n
  else if value == 0 then value
  else divided (value / power maxPower) (n - maxPower)
termination_by n
decreasing_by simp only [maxPower] at *; omega

def float? (n : Scaled) : Option Float :=
  let value := (UInt64.ofNat n.significand).toFloat
  match n.exponent with
  | .ofNat exponent =>
    if exponent ≤ maxPower then
      let product := value * power exponent
      if product.isInf then none else some product
    else if value == 0 then some value
    else none
  | .negSucc exponent => some (divided value (exponent + 1))

def bits? (n : Scaled) (negative : Bool) : Option UInt64 :=
  n.float?.map fun value => (if negative then -value else value).toBits

end Scaled

end CrossSafety.Json
