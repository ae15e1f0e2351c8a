import CrossSafety.Json.Basic

/-!
# Shapes

A text is read for a shape: it says where records, tables and arrays of bytes are expected. Where
the text has something else, it is read as any value, and whoever asked for the shape refuses it.
-/
namespace CrossSafety.Json

/-- What a text is read for. -/
inductive Shape where
  | any
  /-- An array of so many bytes, or a text that stands for it. -/
  | bytes (count : Nat)
  /-- A record with these fields in order. -/
  | record (fields : List (String × Shape))
  | table (entry : Shape)

namespace Shape

instance : Inhabited Shape := ⟨any⟩

def ofNames (names : List String) : Shape := .record (names.map fun name => (name, any))

def names : Shape → List String
  | .record fields => fields.map Prod.fst
  | _ => []

/-- The shape of the member of an object with this key, as it is spelled. -/
def member (shape : Shape) (key : Bytes) : Shape :=
  match shape with
  | .record fields => ((spelled? key).bind fun name => List.lookup name fields).getD any
  | .table entry => entry
  | _ => any

def head : Shape → Shape
  | .record ((_, shape) :: _) => shape
  | _ => any

def tail : Shape → Shape
  | .record (_ :: rest) => .record rest
  | _ => any

end Shape

end CrossSafety.Json
