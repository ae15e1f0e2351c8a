import CrossSafety.Bytes.Decimal
import CrossSafety.Bytes.Hex

/-!
# JSON values and their text

A value keeps numbers and strings as they are spelled, so that parts of a text that nobody asks
for are never judged by more than their spelling. `Json.render` writes a value without blanks.
`escape` spells any text as the inside of a JSON string, and `unescape?` reads such a spelling.
-/
namespace CrossSafety

inductive Json where
  | null
  | bool (value : Bool)
  | number (literal : Bytes)
  | string (spelling : Bytes)
  | array (items : List Json)
  /-- Members in order, each key as it is spelled between its quotes. -/
  | object (members : List (Bytes × Json))

namespace Json

instance : Inhabited Json := ⟨.null⟩

/-- Whether a byte is a character that a string has to escape: a control character. -/
def isControl (c : UInt8) : Bool := c < 32

def escape : Bytes → Bytes
  | [] => []
  | c :: rest =>
    match Char.ofUInt8 c with
    | '"' => 92 :: 34 :: escape rest
    | '\\' => 92 :: 92 :: escape rest
    | '\n' => 92 :: 110 :: escape rest
    | '\r' => 92 :: 114 :: escape rest
    | '\t' => 92 :: 116 :: escape rest
    | _ =>
      if isControl c then
        92 :: 117 :: 48 :: 48 :: (Bytes.hex [c] ++ escape rest)
      else c :: escape rest

def codeUnit? (a b c d : UInt8) : Option Nat := do
  let a ← Bytes.hexValue? a
  let b ← Bytes.hexValue? b
  let c ← Bytes.hexValue? c
  let d ← Bytes.hexValue? d
  return 4096 * a + 256 * b + 16 * c + d

/-- The byte that a backslash and one more character stand for. -/
def simpleEscape? (c : UInt8) : Option UInt8 :=
  match Char.ofUInt8 c with
  | '"' => some 34
  | '\\' => some 92
  | '/' => some 47
  | 'b' => some 8
  | 'f' => some 12
  | 'n' => some 10
  | 'r' => some 13
  | 't' => some 9
  | _ => none

def codePoint (n : Nat) : Bytes := String.utf8EncodeChar (Char.ofNat n)

/-- The bytes that a spelling stands for. A surrogate escape has to be followed by its partner. -/
def unescape? : Bytes → Option Bytes
  | [] => some []
  | 92 :: 117 :: a :: b :: c :: d :: 92 :: 117 :: e :: f :: g :: h :: rest => do
    let first ← codeUnit? a b c d
    let second ← codeUnit? e f g h
    if 0xD800 ≤ first ∧ first < 0xDC00 then
      if 0xDC00 ≤ second ∧ second < 0xE000 then
        return codePoint (0x10000 + 0x400 * (first - 0xD800) + (second - 0xDC00))
          ++ (← unescape? rest)
      else none
    else if 0xDC00 ≤ first ∧ first < 0xE000 then none
    else return codePoint first ++ (← unescape? (92 :: 117 :: e :: f :: g :: h :: rest))
  | 92 :: 117 :: a :: b :: c :: d :: rest => do
    let unit ← codeUnit? a b c d
    if 0xD800 ≤ unit ∧ unit < 0xE000 then none
    else return codePoint unit ++ (← unescape? rest)
  | 92 :: c :: rest => do return (← simpleEscape? c) :: (← unescape? rest)
  | c :: rest => do return c :: (← unescape? rest)

/-- The text that a spelling stands for, if it is valid UTF-8. -/
def spelled? (spelling : Bytes) : Option String := unescape? spelling >>= Bytes.text?

mutual

def before : Json → Bytes → Bytes
  | .null, tail => Bytes.ofText "null" ++ tail
  | .bool true, tail => Bytes.ofText "true" ++ tail
  | .bool false, tail => Bytes.ofText "false" ++ tail
  | .number literal, tail => literal ++ tail
  | .string spelling, tail => 34 :: (spelling ++ 34 :: tail)
  | .array [], tail => 91 :: 93 :: tail
  | .array (item :: rest), tail => 91 :: before item (itemsBefore rest tail)
  | .object [], tail => 123 :: 125 :: tail
  | .object ((key, value) :: rest), tail =>
    123 :: 34 :: (key ++ 34 :: 58 :: before value (membersBefore rest tail))

/-- Writes the later items of an array, each after its comma, and the closing bracket. -/
def itemsBefore : List Json → Bytes → Bytes
  | [], tail => 93 :: tail
  | item :: rest, tail => 44 :: before item (itemsBefore rest tail)

/-- Writes the later members of an object, each after its comma, and the closing brace. -/
def membersBefore : List (Bytes × Json) → Bytes → Bytes
  | [], tail => 125 :: tail
  | (key, value) :: rest, tail =>
    44 :: 34 :: (key ++ 34 :: 58 :: before value (membersBefore rest tail))

end

def render (value : Json) : Bytes := value.before []

def natural (n : Nat) : Json := .number (Bytes.decimal n)

def word (n : UInt64) : Json := natural n.toNat

def halfWord (n : UInt32) : Json := natural n.toNat

def text (value : String) : Json := .string (escape (Bytes.ofText value))

def optional {α : Type} (write : α → Json) : Option α → Json
  | none => .null
  | some value => write value

def record (fields : List (String × Json)) : Json :=
  .object (fields.map fun field => (Bytes.ofText field.1, field.2))

def list {α : Type} (write : α → Json) (values : List α) : Json := .array (values.map write)

end Json

end CrossSafety
