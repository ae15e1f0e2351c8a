import CrossSafety.Chain.Change
import CrossSafety.Proofs.Json.Record

/-!
# Every change reads back

Blocks, messages, whole states and changes are written as records of numerals, hashes, tables and
records. Each of them is read as what was written, for every value of its fields.
-/
namespace CrossSafety

open Json

/-- The record of a height, as changes that only name one are written. -/
abbrev Change.heightShape : Shape := .ofNames ["number"]

/-- The shapes of all records that are written. -/
def written : List Shape :=
  [BlockSeal.shape, BlockRef.shape, DerivedPair.shape, ExecutingMessage.shape, SealedBlock.shape,
    Ledger.shape, Change.heightShape]

theorem written_wellNamed : ∀ shape ∈ written, shape.WellNamed := by decide +kernel

theorem Hash.faithful : Faithful Hash.toJson Hash.ofJson? where
  plain hash := .string (unescaped_hexText hash.bytes)
  read_write hash := by
    rw [Hash.toJson, Hash.ofJson?, unescape?_unescaped (unescaped_hexText hash.bytes)]
    exact Bytes.ofHex?_hexText hash
  not_null hash := by simp [Hash.toJson]

theorem BlockSeal.faithful : Faithful BlockSeal.toJson BlockSeal.ofJson? where
  plain block := by
    refine plain_record shape rfl (written_wellNamed _ (by simp [written])) ?_
    simp [Hash.faithful.plain, faithful_word.plain]
  read_write block := by
    rw [ofJson?, toJson, toFields?_record rfl (written_wellNamed _ (by simp [written]))]
    simp [Fields.required, Fields.entry, Hash.faithful.read_write, faithful_word.read_write]
  not_null block := by simp [toJson, record]

theorem BlockRef.faithful : Faithful BlockRef.toJson BlockRef.ofJson? where
  plain block := by
    refine plain_record shape rfl (written_wellNamed _ (by simp [written])) ?_
    simp [Hash.faithful.plain, faithful_word.plain]
  read_write block := by
    rw [ofJson?, toJson, toFields?_record rfl (written_wellNamed _ (by simp [written]))]
    simp [Fields.required, Fields.entry, Hash.faithful.read_write, faithful_word.read_write]
  not_null block := by simp [toJson, record]

theorem DerivedPair.faithful : Faithful DerivedPair.toJson DerivedPair.ofJson? where
  plain pair := by
    refine plain_record shape rfl (written_wellNamed _ (by simp [written])) ?_
    simp [BlockRef.faithful.plain]
  read_write pair := by
    rw [ofJson?, toJson, toFields?_record rfl (written_wellNamed _ (by simp [written]))]
    simp [Fields.required, Fields.entry, BlockRef.faithful.read_write]
  not_null pair := by simp [toJson, record]

theorem ExecutingMessage.faithful :
    Faithful ExecutingMessage.toJson ExecutingMessage.ofJson? where
  plain message := by
    refine plain_record shape rfl (written_wellNamed _ (by simp [written])) ?_
    simp [Hash.faithful.plain, faithful_word.plain, faithful_halfWord.plain]
  read_write message := by
    rw [ofJson?, toJson, toFields?_record rfl (written_wellNamed _ (by simp [written]))]
    simp [Fields.required, Fields.entry, Hash.faithful.read_write, faithful_word.read_write,
      faithful_halfWord.read_write]
  not_null message := by simp [toJson, record]

theorem SealedBlock.faithful : Faithful SealedBlock.toJson SealedBlock.ofJson? where
  plain sealed := by
    refine plain_record shape rfl (written_wellNamed _ (by simp [written])) ?_
    simp [BlockRef.faithful.plain, faithful_halfWord.plain,
      ExecutingMessage.faithful.halfTable.plain]
  read_write sealed := by
    rw [ofJson?, toJson, toFields?_record rfl (written_wellNamed _ (by simp [written]))]
    simp [Fields.required, Fields.entry, BlockRef.faithful.read_write,
      faithful_halfWord.read_write, ExecutingMessage.faithful.halfTable.read_write]
  not_null sealed := by simp [toJson, record]

theorem Ledger.faithful : Faithful Ledger.toJson Ledger.ofJson? where
  plain state := by
    refine plain_record shape rfl (written_wellNamed _ (by simp [written])) ?_
    simp [SealedBlock.faithful.table.plain, BlockRef.faithful.table.plain,
      DerivedPair.faithful.table.plain, DerivedPair.faithful.plain_optional,
      BlockSeal.faithful.plain_optional]
  read_write state := by
    rw [ofJson?, toJson, toFields?_record rfl (written_wellNamed _ (by simp [written]))]
    simp only [List.map_cons, List.map_nil, Option.bind_eq_bind, Option.bind_some]
    rw [DerivedPair.faithful.nullable_optional rfl, BlockSeal.faithful.nullable_optional rfl,
      BlockSeal.faithful.nullable_optional rfl, BlockSeal.faithful.nullable_optional rfl]
    simp [Fields.required, Fields.entry, SealedBlock.faithful.table.read_write,
      BlockRef.faithful.table.read_write, DerivedPair.faithful.table.read_write]
  not_null state := by simp [toJson, record]

namespace Change

theorem faithful_height : Faithful toJson.heightToJson heightOfJson? where
  plain height := by
    refine plain_record heightShape rfl (written_wellNamed _ (by simp [written])) ?_
    simp [faithful_word.plain]
  read_write height := by
    rw [heightOfJson?, toJson.heightToJson,
      toFields?_record rfl (written_wellNamed _ (by simp [written]))]
    simp [Fields.required, Fields.entry, faithful_word.read_write]
  not_null height := by simp [toJson.heightToJson, record]

def kinds : List String :=
  ["snapshot", "sealBlock", "saveSource", "initialise", "saveDerived", "updateCrossSafe",
    "invalidateLocalSafe", "updateCrossUnsafe", "updateFinalized", "rewindLocalUnsafe",
    "rewindCrossUnsafe", "rewindLocalSafe", "rewindCrossSafe"]

theorem kinds_unescaped : ∀ kind ∈ kinds, Unescaped (Bytes.ofText kind) := by decide +kernel

theorem spelled?_kind {kind : String} (h : kind ∈ kinds) :
    spelled? (Bytes.ofText kind) = some kind := spelled?_ofText (kinds_unescaped kind h)

theorem plain_kind {kind : String} {value : Json} (h : kind ∈ kinds) (hvalue : Plain value) :
    Plain (record [(kind, value)]) := by
  refine .object (fun member hmem => ?_) (fun member hmem => ?_)
  · rw [List.mem_singleton.mp hmem]
    exact kinds_unescaped kind h
  · rw [List.mem_singleton.mp hmem]
    exact hvalue

theorem plain_toJson (change : Change) : Plain change.toJson := by
  match change with
  | .snapshot state => exact plain_kind (by decide) (Ledger.faithful.plain state)
  | .seal sealed => exact plain_kind (by decide) (SealedBlock.faithful.plain sealed)
  | .addSource block | .invalidate block =>
    exact plain_kind (by decide) (BlockRef.faithful.plain block)
  | .initialise pair | .addDerived pair | .setCrossSafe pair =>
    exact plain_kind (by decide) (DerivedPair.faithful.plain pair)
  | .setCrossUnsafe block | .setFinalized block | .rewindCrossUnsafe block =>
    exact plain_kind (by decide) (BlockSeal.faithful.plain block)
  | .rewindLocalUnsafe height | .rewindLocalSafe height | .rewindCrossSafe height =>
    exact plain_kind (by decide) (faithful_height.plain height)

theorem ofJson?_toJson (change : Change) : ofJson? change.toJson = some change := by
  cases change <;>
    simp (disch := decide) [toJson, record, ofJson?, spelled?_kind, Ledger.faithful.read_write,
      SealedBlock.faithful.read_write, BlockRef.faithful.read_write,
      DerivedPair.faithful.read_write, BlockSeal.faithful.read_write, faithful_height.read_write]

end Change

end CrossSafety
