import CrossSafety.Bytes.Basic

/-!
# Decimal numerals

Numbers are written in decimal without leading zeroes, and only such numerals are read.
-/
namespace CrossSafety.Bytes

def digit (n : Nat) : UInt8 := UInt8.ofNat (48 + n)

def digitValue? (c : UInt8) : Option Nat :=
  if 48 ≤ c.toNat ∧ c.toNat ≤ 57 then some (c.toNat - 48) else none

/-- Puts the numeral of `n` in front of `tail`, highest digit first, using at most `fuel` digits. -/
def decimalBefore : Nat → Nat → Bytes → Bytes
  | 0, _, tail => tail
  | fuel + 1, n, tail =>
    if n < 10 then digit n :: tail
    else decimalBefore fuel (n / 10) (digit (n % 10) :: tail)

/-- The decimal numeral of a number. A number has no more digits than its successor counts. -/
def decimal (n : Nat) : Bytes := decimalBefore (n + 1) n []

/-- Reads digits one after the other, after the value read so far, which stays below `bound`. -/
def readDigits (bound : Nat) : Nat → Bytes → Option Nat
  | value, [] => some value
  | value, c :: rest => do
    let next := 10 * value + (← digitValue? c)
    if next < bound then readDigits bound next rest else none

/-- Reads the decimal numeral of a number below `bound`: digits only, at least one, and no zero in
front of another digit. -/
def naturalBelow? (bound : Nat) : Bytes → Option Nat
  | [] => none
  | c :: d :: rest => if c = digit 0 then none else readDigits bound 0 (c :: d :: rest)
  | [c] => readDigits bound 0 [c]

end CrossSafety.Bytes
