import CrossSafety.Proofs.Json.Plain
import CrossSafety.Proofs.Table

/-!
# Records and tables read back

A record that is written with the names of its shape gives every field back, and a table gives its
entries back in their order.
-/
namespace CrossSafety

theorem Bytes.text?_ofText (text : String) : text? (ofText text) = some text := by
  have hdata : ByteArray.mk (ofText text).toArray = text.toUTF8 := by simp [ofText]
  rw [text?, hdata, String.fromUTF8?, String.toUTF8_eq_toByteArray, dif_pos text.isValidUTF8]
  rfl

namespace Json

theorem unescaped_of_allDigits {bytes : Bytes} (h : Bytes.AllDigits bytes) :
    Unescaped bytes := by
  intro c hc
  obtain ⟨hlow, hhigh⟩ := h c hc
  refine ⟨?_, ?_, ?_⟩
  · rintro rfl
    exact absurd hlow (by decide)
  · rintro rfl
    exact absurd hhigh (by decide)
  · simp only [isControl, decide_eq_false_iff_not, UInt8.lt_iff_toNat_lt]
    exact Nat.not_lt.mpr (Nat.le_trans (by decide) hlow)

theorem hexDigit_unescaped : ∀ n < 16, Bytes.hexDigit n ≠ 34 ∧ Bytes.hexDigit n ≠ 92 ∧
    isControl (Bytes.hexDigit n) = false := by
  decide

theorem unescaped_hex (bytes : Bytes) : Unescaped (Bytes.hex bytes) := by
  induction bytes with
  | nil => simp [Unescaped, Bytes.hex]
  | cons b rest ih =>
    have hb := b.toNat_lt
    intro c hc
    rw [Bytes.hex, List.mem_cons, List.mem_cons] at hc
    rcases hc with rfl | rfl | hc
    · exact hexDigit_unescaped _ (by omega)
    · exact hexDigit_unescaped _ (by omega)
    · exact ih c hc

theorem unescaped_hexText (bytes : Bytes) : Unescaped bytes.hexText := by
  intro c hc
  rw [Bytes.hexText, List.mem_cons, List.mem_cons] at hc
  rcases hc with rfl | rfl | hc
  · decide
  · decide
  · exact unescaped_hex bytes c hc

theorem spelled?_ofText {name : String} (h : Unescaped (Bytes.ofText name)) :
    spelled? (Bytes.ofText name) = some name := by
  rw [spelled?, unescape?_unescaped h, Option.bind_eq_bind, Option.bind_some, Bytes.text?_ofText]

/-! ## Records -/

/-- Whether the fields of a shape have different names that stand for themselves. -/
def Shape.WellNamed (shape : Shape) : Prop :=
  shape.names.Nodup ∧ ∀ name ∈ shape.names, Unescaped (Bytes.ofText name)

instance (shape : Shape) : Decidable shape.WellNamed := inferInstanceAs (Decidable (_ ∧ _))

theorem plain_record (shape : Shape) {fields : List (String × Json)}
    (hshape : shape.names = fields.map Prod.fst) (hnamed : shape.WellNamed)
    (hvalues : ∀ field ∈ fields, Plain field.2) : Plain (record fields) := by
  refine .object (fun member hmem => ?_) (fun member hmem => ?_)
  · obtain ⟨field, hfield, rfl⟩ := List.mem_map.mp hmem
    exact hnamed.2 field.1 (hshape ▸ List.mem_map_of_mem hfield)
  · obtain ⟨field, hfield, rfl⟩ := List.mem_map.mp hmem
    exact hvalues field hfield

theorem idxOf?_middle {name : String} {first : List String} (h : name ∉ first)
    (rest : List String) : (first ++ name :: rest).idxOf? name = some first.length := by
  induction first with
  | nil => simp [List.idxOf?_cons]
  | cons other first ih =>
    obtain ⟨hne, hrest⟩ := not_or.mp (fun hmem => h (List.mem_cons.mpr hmem))
    rw [List.cons_append, List.idxOf?_cons, ih hrest]
    simp [Ne.symm hne]

theorem put?_middle (value : Json) (first : List (Option Json)) (rest : List (Option Json)) :
    put? value first.length (first ++ none :: rest) = some (first ++ some value :: rest) := by
  induction first with
  | nil => rfl
  | cons entry first ih => rw [List.cons_append, List.length_cons, put?, ih]; rfl

theorem collect?_cons {names : List String} {found filled : List (Option Json)} {name : String}
    {value : Json} {index : Nat} (hname : Unescaped (Bytes.ofText name))
    (hindex : names.idxOf? name = some index) (hput : put? value index found = some filled)
    (rest : List (Bytes × Json)) :
    collect? names found ((Bytes.ofText name, value) :: rest) = collect? names filled rest := by
  rw [collect?, spelled?_ofText hname]
  simp only [Option.bind_eq_bind, Option.bind_some, hindex, hput]

/-- Members that come in the order of the names fill the fields one after the other. -/
theorem collect?_record {names : List String} (rest : List (String × Json)) :
    ∀ done : List (String × Json), names = (done ++ rest).map Prod.fst → names.Nodup →
      (∀ field ∈ rest, Unescaped (Bytes.ofText field.1)) →
      collect? names (done.map (fun field => some field.2) ++ rest.map fun _ => none)
        (rest.map fun field => (Bytes.ofText field.1, field.2)) =
          some ((done ++ rest).map fun field => some field.2) := by
  induction rest with
  | nil => intro done _ _ _; simp [collect?]
  | cons field rest ih =>
    intro done heq hnodup hnames
    have hsplit : names = done.map Prod.fst ++ field.1 :: rest.map Prod.fst := by
      rw [heq, List.map_append, List.map_cons]
    have hfresh : field.1 ∉ done.map Prod.fst := by
      rw [hsplit, List.nodup_append] at hnodup
      exact fun hmem => hnodup.2.2 field.1 hmem field.1 List.mem_cons_self rfl
    have hindex : names.idxOf? field.1 = some done.length := by
      rw [hsplit, idxOf?_middle hfresh, List.length_map]
    have hput := put?_middle field.2 (done.map fun field => some field.2)
      (rest.map fun _ => (none : Option Json))
    rw [List.length_map] at hput
    have hnext := ih (done ++ [field]) (by simpa using heq) hnodup
      fun other hmem => hnames other (List.mem_cons_of_mem _ hmem)
    rw [List.map_append, List.append_assoc, List.append_assoc] at hnext
    exact (collect?_cons (hnames field List.mem_cons_self) hindex hput _).trans hnext

/-- A record that has the names of its shape gives each of its fields. -/
theorem toFields?_record {shape : Shape} {fields : List (String × Json)}
    (hshape : shape.names = fields.map Prod.fst) (hnamed : shape.WellNamed) :
    (record fields).toFields? shape = some ⟨fields.map fun field => some field.2, false⟩ := by
  have hcollect := collect?_record fields [] hshape hnamed.1 fun field hmem =>
    hnamed.2 field.1 (hshape ▸ List.mem_map_of_mem hmem)
  simp only [List.nil_append, List.map_nil] at hcollect
  have hnone : (shape.names.map fun _ => (none : Option Json)) = fields.map fun _ => none := by
    rw [hshape, List.map_map]
    rfl
  rw [record, toFields?, hnone, hcollect]
  rfl

/-! ## Writers and readers -/

/-- A reader that gives back what the writer wrote, as a plain value that is not `null`. -/
structure Faithful {α : Type} (write : α → Json) (read : Json → Option α) : Prop where
  plain : ∀ value, Plain (write value)
  read_write : ∀ value, read (write value) = some value
  not_null : ∀ value, write value ≠ .null

/-- A value that may be missing is `null` or what its writer wrote. -/
theorem Faithful.plain_optional {α : Type} {write : α → Json} {read : Json → Option α}
    (h : Faithful write read) (value : Option α) : Plain (optional write value) := by
  cases value with
  | none => exact .null
  | some value => exact h.plain value

theorem Faithful.nullable_optional {α : Type} {write : α → Json} {read : Json → Option α}
    (h : Faithful write read) {fields : Fields} {index : Nat} {value : Option α}
    (hentry : fields.entry index = some (optional write value)) :
    fields.nullable index read = some value := by
  rw [Fields.nullable, hentry]
  cases value with
  | none => rfl
  | some value =>
    have hread : optional write (some value) = write value := rfl
    rw [hread]
    split
    · rename_i heq
      cases heq
    · rename_i heq
      exact absurd (Option.some.inj heq) (h.not_null value)
    · rename_i heq
      rw [← Option.some.inj heq, h.read_write]
      rfl

theorem faithful_word : Faithful word toWord? where
  plain n := .natural n.toNat
  read_write n := by
    have hread : (word n).naturalBelow? UInt64.size = some n.toNat :=
      Bytes.naturalBelow?_decimal n.toNat_lt
    rw [toWord?, hread, Option.map_some, UInt64.ofNat_toNat]
  not_null n := by simp [word, natural]

theorem faithful_halfWord : Faithful halfWord toHalfWord? where
  plain n := .natural n.toNat
  read_write n := by
    have hread : (halfWord n).naturalBelow? UInt32.size = some n.toNat :=
      Bytes.naturalBelow?_decimal n.toNat_lt
    rw [toHalfWord?, hread, Option.map_some, UInt32.ofNat_toNat]
  not_null n := by simp [halfWord, natural]

/-! ## Tables -/

section Tables

variable {κ α : Type} [Numbered κ]

theorem place_above {key : κ} {value : α} {entries : List (κ × α)}
    (h : ∀ e ∈ entries, Numbered.number e.1 < Numbered.number key) :
    Table.place key value entries = (key, value) :: entries := by
  cases entries with
  | nil => rfl
  | cons head rest =>
    have hlt := h head List.mem_cons_self
    rw [Table.place, if_neg (Nat.lt_asymm hlt), if_neg (Nat.ne_of_gt hlt)]

/-- Inserting entries in the order of their keys gives the table that they were written from. -/
theorem foldlM_entries {write : α → Json}
    {step : Table κ α → Bytes × Json → Option (Table κ α)}
    (hstep : ∀ t key value,
      step t (Bytes.decimal (Numbered.number key), write value) = some (t.insert key value))
    (entries : List (κ × α)) :
    ∀ h : entries.Pairwise Table.Above,
      (entries.reverse.map fun (key, value) =>
        (Bytes.decimal (Numbered.number key), write value)).foldlM step .empty =
          some ⟨entries, h⟩ := by
  induction entries with
  | nil => intro h; rfl
  | cons head rest ih =>
    intro h
    obtain ⟨habove, hrest⟩ := List.pairwise_cons.mp h
    rw [List.reverse_cons, List.map_append, List.foldlM_append, ih hrest]
    simp only [Option.bind_eq_bind, Option.bind_some, List.map_cons, List.map_nil,
      List.foldlM_cons, List.foldlM_nil, hstep]
    refine congrArg some (Table.ext_entries ?_)
    exact place_above habove

theorem plain_table {write : α → Json} (h : ∀ value, Plain (write value)) (t : Table κ α) :
    Plain (table write t) := by
  refine .object (fun member hmem => ?_) (fun member hmem => ?_)
  · obtain ⟨e, -, rfl⟩ := List.mem_map.mp hmem
    exact unescaped_of_allDigits (Bytes.numeral_decimal _).digits
  · obtain ⟨e, -, rfl⟩ := List.mem_map.mp hmem
    exact h e.2

theorem Faithful.table {write : α → Json} {read : Json → Option α} (h : Faithful write read) :
    Faithful (table write : Table UInt64 α → Json) (toTable? read) where
  plain := plain_table h.plain
  read_write t := by
    refine foldlM_entries (fun u key value => ?_) t.entries t.descending
    have hkey : Bytes.naturalBelow? UInt64.size (Bytes.decimal (Numbered.number key)) =
        some key.toNat := Bytes.naturalBelow?_decimal key.toNat_lt
    simp only [hkey, h.read_write, Option.bind_eq_bind, Option.bind_some, UInt64.ofNat_toNat]
    rfl
  not_null t := by simp [Json.table]

theorem Faithful.halfTable {write : α → Json} {read : Json → Option α} (h : Faithful write read) :
    Faithful (Json.table write : Table UInt32 α → Json) (toHalfTable? read) where
  plain := plain_table h.plain
  read_write t := by
    refine foldlM_entries (fun u key value => ?_) t.entries t.descending
    have hkey : Bytes.naturalBelow? UInt32.size (Bytes.decimal (Numbered.number key)) =
        some key.toNat := Bytes.naturalBelow?_decimal key.toNat_lt
    simp only [hkey, h.read_write, Option.bind_eq_bind, Option.bind_some, UInt32.ofNat_toNat]
    rfl
  not_null t := by simp [Json.table]

end Tables

end Json

end CrossSafety
