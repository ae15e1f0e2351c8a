import CrossSafety.Json.Attempt

/-!
# Stray items after bytes

An array of bytes may go on after its last byte with a comma, and with one stray item that is no
byte. The stray item need not be a value: it is passed over as far as an attempt to read a number
gets, and there the array has to end.
-/
namespace CrossSafety.Json

/-- Reads the bracket that closes an array and returns the text after it. -/
def closing? (input : Bytes) : Option Bytes :=
  match skipBlanks input with
  | 93 :: rest => some rest
  | _ => none

/-- The text after a stray item, unless it is a byte. -/
def afterStray? (input : Bytes) : Option Bytes :=
  match attempt input with
  | .error stop => some stop.rest
  | .ok (n, rest) => if n < 256 then none else some rest

/-- Reads the end of an array of bytes behind its last byte and returns the text after it. -/
def bytesEnd? (input : Bytes) : Option Bytes :=
  match skipBlanks input with
  | 93 :: rest => some rest
  | 44 :: rest =>
    match skipBlanks rest with
    | 93 :: rest => some rest
    | rest => afterStray? rest >>= closing?
  | _ => none

/-- Reads the items of an array of so many bytes, up to the closing bracket. -/
def byteItems? : Nat → Bytes → Option (List Json × Bytes)
  | 0, _ => none
  | count + 1, input => do
    let (item, rest) ← number? (skipBlanks input)
    if count = 0 then return ([item], ← bytesEnd? rest)
    else
      let 44 :: rest := skipBlanks rest | none
      let (items, rest) ← byteItems? count rest
      return (item :: items, rest)

end CrossSafety.Json
