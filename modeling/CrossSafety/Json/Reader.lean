import CrossSafety.Json.Parser
import CrossSafety.Table

/-!
# Reading values out of JSON

A record is an object or the array of its fields in order. In an object unknown members are
skipped and a known one may not be repeated. An array may leave out fields at its end that have a
default. Numbers are plain decimal numerals in range. A table keyed by number is an object whose
keys are numerals; of two members with one key the later one stays.
-/
namespace CrossSafety.Json

/-- Reads a whole text for a shape, and out of that a value. -/
def decode? {α : Type} (shape : Shape) (read : Json → Option α) (text : Bytes) : Option α :=
  parseAs? shape text >>= read

def naturalBelow? (bound : Nat) : Json → Option Nat
  | .number literal => Bytes.naturalBelow? bound literal
  | _ => none

def toWord? (value : Json) : Option UInt64 := (value.naturalBelow? UInt64.size).map UInt64.ofNat

def toHalfWord? (value : Json) : Option UInt32 :=
  (value.naturalBelow? UInt32.size).map UInt32.ofNat

def toByte? (value : Json) : Option UInt8 := (value.naturalBelow? UInt8.size).map UInt8.ofNat

def toBool? : Json → Option Bool
  | .bool value => some value
  | _ => none

def toText? : Json → Option String
  | .string spelling => spelled? spelling
  | _ => none

def toList? {α : Type} (read : Json → Option α) : Json → Option (List α)
  | .array items => items.mapM read
  | _ => none

/-- The member of an object with a name, unless it is missing or `null`. -/
def member? (name : String) : Json → Option Json
  | .object members =>
    match members.find? fun member => spelled? member.1 == some name with
    | some (_, .null) => none
    | some (_, found) => some found
    | none => none
  | _ => none

/-- What was found for each field of a record. -/
structure Fields where
  /-- One entry per field, in order. -/
  found : List (Option Json)
  positional : Bool

/-- Puts `value` at position `at` of `found`, unless something is there. -/
def put? (value : Json) : Nat → List (Option Json) → Option (List (Option Json))
  | _, [] => none
  | 0, none :: rest => some (some value :: rest)
  | 0, some _ :: _ => none
  | n + 1, entry :: rest => (put? value n rest).map (entry :: ·)

/-- Sorts the members of an object by the names of the fields. Skips members of other names and
fails on a repeated one. -/
def collect? (names : List String) :
    List (Option Json) → List (Bytes × Json) → Option (List (Option Json))
  | found, [] => some found
  | found, (key, value) :: rest => do
    let name ← spelled? key
    match names.idxOf? name with
    | none => collect? names found rest
    | some index => collect? names (← put? value index found) rest

def toFields? (shape : Shape) : Json → Option Fields
  | .object members => do
    return ⟨← collect? shape.names (shape.names.map fun _ => none) members, false⟩
  | .array items =>
    if items.length ≤ shape.names.length then some ⟨items.map some, true⟩ else none
  | _ => none

namespace Fields

def entry (fields : Fields) (index : Nat) : Option Json := fields.found[index]?.join

def required {α : Type} (fields : Fields) (index : Nat) (read : Json → Option α) : Option α :=
  fields.entry index >>= read

def withDefault {α : Type} (fields : Fields) (index : Nat) (fallback : α)
    (read : Json → Option α) : Option α :=
  match fields.entry index with
  | none => some fallback
  | some value => read value

/-- A field that may be `null`, and in an object may be missing. -/
def nullable {α : Type} (fields : Fields) (index : Nat) (read : Json → Option α) :
    Option (Option α) :=
  match fields.entry index with
  | none => if fields.positional then none else some none
  | some .null => some none
  | some value => (read value).map some

end Fields

def toTable? {α : Type} (read : Json → Option α) : Json → Option (Table UInt64 α)
  | .object members => members.foldlM (fun table (key, value) => do
      let number ← Bytes.naturalBelow? UInt64.size key
      return table.insert (UInt64.ofNat number) (← read value)) .empty
  | _ => none

def toHalfTable? {α : Type} (read : Json → Option α) : Json → Option (Table UInt32 α)
  | .object members => members.foldlM (fun table (key, value) => do
      let number ← Bytes.naturalBelow? UInt32.size key
      return table.insert (UInt32.ofNat number) (← read value)) .empty
  | _ => none

/-- Writes a table as an object, lowest key first. -/
def table {κ α : Type} [Numbered κ] (write : α → Json) (entries : Table κ α) : Json :=
  .object (entries.toList.map fun (key, value) =>
    (Bytes.decimal (Numbered.number key), write value))

end CrossSafety.Json
