import CrossSafety.Bytes.Basic

/-!
# Hexadecimal text

Bytes are written as two lower-case digits each. Digits of both cases are read.
-/
namespace CrossSafety.Bytes

/-- The character of a value below sixteen, in lower case. -/
def hexDigit (n : Nat) : UInt8 := UInt8.ofNat (if n < 10 then 48 + n else 87 + n)

/-- The value of a hexadecimal digit of either case. -/
def hexValue? (c : UInt8) : Option Nat :=
  let n := c.toNat
  if 48 ≤ n ∧ n ≤ 57 then some (n - 48)
  else if 65 ≤ n ∧ n ≤ 70 then some (n - 55)
  else if 97 ≤ n ∧ n ≤ 102 then some (n - 87)
  else none

/-- Two digits for every byte. -/
def hex : Bytes → Bytes
  | [] => []
  | b :: rest => hexDigit (b.toNat / 16) :: hexDigit (b.toNat % 16) :: hex rest

/-- Reads two digits for every byte. Fails at an odd digit or at anything that is no digit. -/
def unhex? : Bytes → Option Bytes
  | [] => some []
  | high :: low :: rest => do
    let h ← hexValue? high
    let l ← hexValue? low
    return UInt8.ofNat (16 * h + l) :: (← unhex? rest)
  | [_] => none

/-- Drops `0x` or `0X` in front of hexadecimal text. -/
def dropHexMark : Bytes → Bytes
  | 48 :: 120 :: rest => rest
  | 48 :: 88 :: rest => rest
  | text => text

end CrossSafety.Bytes
