/-!
# Byte strings

Files, records and texts are lists of bytes. This module holds the type, the bytes of a text, fields
of a fixed width, and fixed-width little-endian numbers: `little` writes one, `littleValue` reads
one back, and the two undo each other on numbers that fit.
-/
namespace CrossSafety

/-- A sequence of bytes: the content of a file or of a part of one. -/
abbrev Bytes := List UInt8

namespace Bytes

def ofText (text : String) : Bytes := text.toUTF8.data.toList

def text? (bytes : Bytes) : Option String := String.fromUTF8? ⟨bytes.toArray⟩

/-- The first `width` bytes, with zeroes behind them if there are fewer. -/
def fit : Nat → Bytes → Bytes
  | 0, _ => []
  | width + 1, [] => 0 :: fit width []
  | width + 1, b :: rest => b :: fit width rest

@[simp] theorem length_fit (width : Nat) (bytes : Bytes) : (fit width bytes).length = width := by
  induction width generalizing bytes with
  | zero => rfl
  | succ width ih => cases bytes <;> simp [fit, ih]

/-- Fitting cuts off what is behind the width and fills up with zeroes what is missing. -/
theorem fit_eq (width : Nat) (bytes : Bytes) :
    fit width bytes = bytes.take width ++ List.replicate (width - bytes.length) 0 := by
  induction width generalizing bytes with
  | zero => simp [fit]
  | succ width ih => cases bytes <;> simp [fit, ih, List.replicate_succ]

/-- The lowest `width` bytes of a number, lowest first. -/
def little : Nat → Nat → Bytes
  | 0, _ => []
  | width + 1, n => UInt8.ofNat n :: little width (n / 256)

/-- The number that bytes spell, lowest byte first. -/
def littleValue : Bytes → Nat
  | [] => 0
  | b :: rest => b.toNat + 256 * littleValue rest

@[simp] theorem length_little (width n : Nat) : (little width n).length = width := by
  induction width generalizing n with
  | zero => rfl
  | succ width ih => simp [little, ih]

theorem littleValue_little (width n : Nat) :
    littleValue (little width n) = n % Nat.pow 256 width := by
  induction width generalizing n with
  | zero => simp [little, littleValue, Nat.mod_one]
  | succ width ih =>
    have byte : (UInt8.ofNat n).toNat = n % 256 := UInt8.toNat_ofNat'
    simp only [little, littleValue, byte, ih]
    have hpow : Nat.pow 256 (width + 1) = 256 * Nat.pow 256 width := Nat.mul_comm _ _
    rw [hpow, Nat.mod_mul]

/-- A number below `256 ^ width` survives being written in `width` bytes. -/
theorem littleValue_little_of_lt {width n : Nat} (h : n < Nat.pow 256 width) :
    littleValue (little width n) = n := by
  rw [littleValue_little, Nat.mod_eq_of_lt h]

end Bytes

end CrossSafety
