import CrossSafety.Json.Shape
import CrossSafety.Json.Stray

/-!
# Reading JSON text

`Json.parseAs?` reads one value for a shape and accepts nothing after it but blanks. Strings are
checked for their escapes and for control characters, numbers for their grammar. What they stand
for is left to the reader of the value.
-/
namespace CrossSafety.Json

/-- Reads the rest of a string after what was read of it, last byte first, and returns its
spelling with the text after the closing quote. -/
def stringAfter : Bytes → Bytes → Option (Bytes × Bytes)
  | _, [] => none
  | read, 34 :: rest => some (read.reverse, rest)
  | read, 92 :: 117 :: a :: b :: c :: d :: rest =>
    if (codeUnit? a b c d).isSome then
      stringAfter (d :: c :: b :: a :: 117 :: 92 :: read) rest
    else none
  | read, 92 :: c :: rest =>
    if (simpleEscape? c).isSome then stringAfter (c :: 92 :: read) rest else none
  | read, c :: rest => if isControl c then none else stringAfter (c :: read) rest

def after? : Bytes → Bytes → Option Bytes
  | [], rest => some rest
  | _, [] => none
  | c :: word, d :: rest => if c = d then after? word rest else none

def word? (word : String) (value : Json) (input : Bytes) : Option (Json × Bytes) :=
  (after? (Bytes.ofText word) input).map fun rest => (value, rest)

mutual

/-- Reads a value for a shape and returns it with the text after it. The fuel bounds the nesting. -/
def value? (shape : Shape) : Nat → Bytes → Option (Json × Bytes)
  | 0, _ => none
  | fuel + 1, input =>
    match skipBlanks input with
    | [] => none
    | c :: rest =>
      match Char.ofUInt8 c with
      | 'n' => word? "null" .null (c :: rest)
      | 't' => word? "true" (.bool true) (c :: rest)
      | 'f' => word? "false" (.bool false) (c :: rest)
      | '"' => (stringAfter [] rest).map fun (spelling, rest) => (.string spelling, rest)
      | '[' =>
        match shape, skipBlanks rest with
        | _, 93 :: rest => some (.array [], rest)
        | .bytes count, rest =>
          (byteItems? count rest).map fun (items, rest) => (.array items, rest)
        | shape, rest => (items? shape fuel rest).map fun (items, rest) => (.array items, rest)
      | '{' =>
        match skipBlanks rest with
        | 125 :: rest => some (.object [], rest)
        | rest => (members? shape fuel rest).map fun (members, rest) => (.object members, rest)
      | _ => number? (c :: rest)

/-- Reads the items of an array, at least one, up to the closing bracket. -/
def items? (shape : Shape) : Nat → Bytes → Option (List Json × Bytes)
  | 0, _ => none
  | fuel + 1, input => do
    let (item, rest) ← value? shape.head fuel input
    match skipBlanks rest with
    | 44 :: rest =>
      let (items, rest) ← items? shape.tail fuel rest
      return (item :: items, rest)
    | 93 :: rest => return ([item], rest)
    | _ => none

/-- Reads the members of an object, at least one, up to the closing brace. -/
def members? (shape : Shape) : Nat → Bytes → Option (List (Bytes × Json) × Bytes)
  | 0, _ => none
  | fuel + 1, input => do
    let 34 :: rest := skipBlanks input | none
    let (key, rest) ← stringAfter [] rest
    let 58 :: rest := skipBlanks rest | none
    let (value, rest) ← value? (shape.member key) fuel rest
    match skipBlanks rest with
    | 44 :: rest =>
      let (members, rest) ← members? shape fuel rest
      return ((key, value) :: members, rest)
    | 125 :: rest => return ([(key, value)], rest)
    | _ => none

end

/-- Reads a whole text as one value of a shape. Every step into a value consumes a byte and takes
at most two units of fuel. -/
def parseAs? (shape : Shape) (input : Bytes) : Option Json := do
  let (value, rest) ← value? shape (2 * input.length + 2) input
  if (skipBlanks rest).isEmpty then some value else none

def parse? (input : Bytes) : Option Json := parseAs? .any input

end CrossSafety.Json
