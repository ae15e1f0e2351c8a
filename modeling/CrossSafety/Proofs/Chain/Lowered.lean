import CrossSafety.Proofs.Chain.Repeated

/-!
# The heads of a chain that goes back to a block

A chain goes back to one of its sealed blocks by rewinds of its heads, from the cross-safe head down.
`Ledger.backTo` is what they make of the indexes when they are put together: all indexes are cut
behind the block, and no head is left above it. `Ledger.BackTo` says this of the heads alone.
-/
namespace CrossSafety

/-- What becomes of a head when its chain goes back to a block. A head that is not below the block is
then the block itself, or it is missing if nothing is left to fall back to. -/
inductive LoweredHead (block : BlockSeal) (empty : Prop) :
    Option BlockSeal → Option BlockSeal → Prop where
  | unset : LoweredHead block empty none none
  | kept (head : BlockSeal) (below : head.number < block.number) :
      LoweredHead block empty (some head) (some head)
  | lowered (head found : BlockSeal) (above : block.number ≤ head.number)
      (same : found.id = block.id) : LoweredHead block empty (some head) (some found)
  | dropped (head : BlockSeal) (above : block.number ≤ head.number) (nothing : empty) :
      LoweredHead block empty (some head) none

namespace Ledger

/-- Whether the lowest record, if there is one, lies above a number. -/
def StartsAbove (records : Table UInt64 DerivedPair) (number : UInt64) : Prop :=
  ∀ key pair, records.get? key = some pair → number < key

/-- The heads when a chain went back to a block. -/
structure BackTo (before after : Ledger) (block : BlockSeal) : Prop where
  localUnsafe : after.heads.localUnsafe = some block
  crossUnsafe : LoweredHead block False before.heads.crossUnsafe after.heads.crossUnsafe
  localSafe : LoweredHead block (StartsAbove before.localDerived block.number)
    before.heads.localSafe after.heads.localSafe
  crossSafe : LoweredHead block (StartsAbove before.crossDerived block.number)
    before.heads.crossSafe after.heads.crossSafe
  finalized : after.heads.finalized = before.heads.finalized

/-- Whether a record at the number of a block is of this block. -/
def Agrees (records : Table UInt64 DerivedPair) (block : BlockSeal) : Prop :=
  ∀ pair, records.get? block.number = some pair → pair.derived.hash = block.hash

variable {state : Ledger} {records : Table UInt64 DerivedPair} {block head : BlockSeal}

/-! ## What rewinds check -/

theorem checkRecord_eq_ok :
    state.checkRecord records block.id = .ok () ↔
      state.requireAboveFinalized block.number = .ok () ∧ Agrees records block := by
  unfold checkRecord
  rw [Outcome.bind_eq_ok]
  refine ⟨fun ⟨_, habove, h⟩ => ⟨habove, fun pair hget => ?_⟩,
    fun ⟨habove, hagrees⟩ => ⟨(), habove, ?_⟩⟩
  · have hrecord : records.get? block.id.number = some pair := hget
    rw [hrecord] at h
    exact require_eq_ok.mp h
  · split
    · rename_i pair hget
      exact require_eq_ok.mpr (hagrees pair hget)
    · rfl

theorem agrees_of_lt (h : ∀ key pair, records.get? key = some pair → key < block.number) :
    Agrees records block :=
  fun pair hget => absurd (h _ pair hget) (UInt64.lt_irrefl _)

theorem exists_sealedBlock (hfound : state.findSealed block.number = .ok block) :
    ∃ sealed, state.sealedBlock block.id = .ok sealed := by
  obtain ⟨sealed, hget, rfl⟩ := findSealed_eq_ok.mp hfound
  refine ⟨sealed, ?_⟩
  have hnumber : state.blocks.get? sealed.block.toSeal.id.number = some sealed := hget
  rw [sealedBlock, hnumber]
  exact if_pos rfl

theorem requireKept_of_sealed {target : BlockId} {sealed : SealedBlock}
    (habove : state.requireAboveFinalized target.number = .ok ())
    (hsealed : state.sealedBlock target = .ok sealed) : state.requireKept target = .ok () := by
  rw [requireKept, habove, Outcome.ok_bind, hsealed]
  rfl

/-! ## Records -/

/-- Records that are cut behind a number end there, if one is at the number or above and one is not
above. -/
theorem get?_of_last?_below_succ (h : records.Linked DerivedPair.derived Derives) {number : UInt64}
    (hmax : number < maxNumber) {last cut : DerivedPair} (hlast : records.last? = some last)
    (hle : number ≤ last.derived.number) (hcut : (records.below (number + 1)).last? = some cut) :
    records.get? number = some cut := by
  have hbelow := h.below (number + 1)
  have hget := hbelow.get?_last hcut
  have hlow := le_of_below_succ hmax hget
  obtain ⟨found, hfound⟩ :=
    h.exists_between (fun _ _ => And.left) (Table.get?_of_below hget) hlast hlow hle
  have hkept : (records.below (number + 1)).get? number = some found := by
    rw [get?_below_succ hmax, if_pos (UInt64.le_refl _), hfound]
  have hhigh := hbelow.le_last hcut hkept
  obtain rfl := UInt64.le_antisymm hlow hhigh
  exact Table.get?_of_below hget

theorem startsAbove_of_last?_below_succ {number : UInt64} (hmax : number < maxNumber)
    (hcut : (records.below (number + 1)).last? = none) : StartsAbove records number := by
  intro key pair hget
  refine UInt64.not_le.mp fun hle => ?_
  have hnone := Table.last?_eq_none.mp hcut key
  rw [get?_below_succ hmax, if_pos hle, hget] at hnone
  cases hnone

/-- A head that is not below the block falls back to the last record that is left. -/
theorem loweredHead_below_succ (h : records.Linked DerivedPair.derived Derives)
    (hmax : block.number < maxNumber) (hagrees : Agrees records block) {last : DerivedPair}
    (hlast : records.last? = some last) (hle : block.number ≤ last.derived.number)
    (habove : block.number ≤ head.number) :
    LoweredHead block (StartsAbove records block.number) (some head)
      ((records.below (block.number + 1)).last?.map fun pair => pair.derived.toSeal) := by
  cases hcut : (records.below (block.number + 1)).last? with
  | none => exact .dropped head habove (startsAbove_of_last?_below_succ hmax hcut)
  | some cut =>
    have hget := get?_of_last?_below_succ h hmax hlast hle hcut
    refine .lowered head _ habove ?_
    rw [BlockSeal.id, BlockSeal.id, ← hagrees cut hget, ← (h.keyed _ _ hget).1]
    rfl

/-! ## Heads -/

theorem Consistent.loweredHead_localSafe (h : state.Consistent) (hmax : block.number < maxNumber)
    (hagrees : Agrees state.localDerived block) :
    LoweredHead block (StartsAbove state.localDerived block.number) state.heads.localSafe
      ((state.localDerived.below (block.number + 1)).last?.map fun pair => pair.derived.toSeal) := by
  change LoweredHead _ _ (state.localDerived.last?.map _) _
  cases hlast : state.localDerived.last? with
  | none =>
    have hsame := below_succ_eq_self hmax fun key pair hget =>
      nomatch (Table.last?_eq_none.mp hlast key).symm.trans hget
    rw [hsame, hlast]
    exact .unset
  | some last =>
    by_cases hlt : last.derived.number < block.number
    · have hsame := below_succ_eq_self hmax fun key pair hget =>
        UInt64.le_trans (h.localDerived.le_last hlast hget) (UInt64.le_of_lt hlt)
      rw [hsame, hlast]
      exact .kept _ hlt
    · have hle := UInt64.not_lt.mp hlt
      exact loweredHead_below_succ h.localDerived hmax hagrees hlast hle hle

theorem CrossConsistent.loweredHead_crossSafe (h : state.CrossConsistent)
    (hmax : block.number < maxNumber) (hagrees : Agrees state.crossDerived block) :
    LoweredHead block (StartsAbove state.crossDerived block.number) state.heads.crossSafe
      (state.dropCrossSafeAbove block.number).heads.crossSafe := by
  change LoweredHead _ _ (state.crossSafe.map _) ((state.dropCrossSafeAbove _).crossSafe.map _)
  rw [dropCrossSafeAbove_crossSafe]
  cases hhead : state.crossSafe with
  | none => exact .unset
  | some head =>
    rw [Option.bind_some, Option.map_some]
    obtain ⟨last, hlast, hid, -⟩ := h.head head hhead
    have hnumber : last.derived.number = head.derived.number := congrArg BlockId.number hid
    by_cases habove : block.number < head.derived.number
    · rw [if_pos habove]
      have hle := UInt64.le_of_lt habove
      exact loweredHead_below_succ h.crossDerived hmax hagrees hlast (hnumber ▸ hle) hle
    · rw [if_neg habove]
      by_cases hlt : head.derived.number < block.number
      · exact .kept _ hlt
      -- the head is at the number of the block, and has the record there
      · have hsame := UInt64.le_antisymm (UInt64.not_lt.mp habove) (UInt64.not_lt.mp hlt)
        obtain ⟨record, hget, hhash⟩ := h.get?_head hhead
        refine .lowered _ _ (UInt64.not_lt.mp hlt) ?_
        rw [BlockSeal.id, BlockSeal.id, ← hagrees record (hsame ▸ hget), hhash, ← hsame]
        rfl

/-- The cross-unsafe head when it was rewound to a block. -/
def lowerCrossUnsafe (state : Ledger) (block : BlockSeal) : Option BlockSeal :=
  state.crossUnsafe.map fun head => if block.number ≤ head.number then block else head

theorem loweredHead_crossUnsafe (state : Ledger) (block : BlockSeal) :
    LoweredHead block False state.crossUnsafe (state.lowerCrossUnsafe block) := by
  unfold lowerCrossUnsafe
  cases state.crossUnsafe with
  | none => exact .unset
  | some head =>
    rw [Option.map_some]
    split
    · exact .lowered head block ‹_› rfl
    · exact .kept head (UInt64.not_le.mp ‹_›)

theorem lowerCrossUnsafe_le (hhead : state.lowerCrossUnsafe block = some head) :
    head.number ≤ block.number := by
  obtain ⟨old, -, rfl⟩ := Option.map_eq_some_iff.mp hhead
  split
  · exact UInt64.le_refl _
  · exact UInt64.le_of_lt (UInt64.not_le.mp ‹_›)

/-- Rewinding a head that is below the block leaves it. -/
theorem lowerCrossUnsafe_eq
    (hbelow : ∀ head, state.crossUnsafe = some head → head.number < block.number) :
    state.lowerCrossUnsafe block = state.crossUnsafe := by
  unfold lowerCrossUnsafe
  cases hhead : state.crossUnsafe with
  | none => rfl
  | some head => rw [Option.map_some, if_neg (UInt64.not_le.mpr (hbelow head hhead))]

/-! ## All indexes -/

/-- The indexes when a chain went back to a block, with what is left of an invalidated block. -/
def backTo (state : Ledger) (block : BlockSeal) (invalidated : Option BlockSeal) : Ledger :=
  { state.dropCrossSafeAbove block.number with
    blocks := state.blocks.below (block.number + 1)
    localDerived := state.localDerived.below (block.number + 1)
    crossUnsafe := state.lowerCrossUnsafe block
    invalidated }

/-- Cross-safe records that are cut already are not cut again with the local-safe ones. -/
theorem CrossConsistent.dropLocalSafeFrom_of_dropped (h : state.CrossConsistent) {number : UInt64}
    (hmax : number < maxNumber) :
    (state.dropCrossSafeAbove number).dropLocalSafeFrom (number + 1) =
      { state.dropCrossSafeAbove number with
        localDerived := state.localDerived.below (number + 1) } := by
  have hcut := h.dropCrossSafeAbove hmax
  have hcross : ({ state.dropCrossSafeAbove number with
      localDerived := state.localDerived.below (number + 1) } : Ledger).CrossConsistent :=
    ⟨hcut.crossDerived, hcut.unset, hcut.head⟩
  rw [dropLocalSafeFrom_succ hmax]
  exact hcross.dropCrossSafeAbove_eq hmax fun key record hget => le_of_below_succ hmax hget

/-- A chain with all its heads rewound to a sealed block went back to it. -/
theorem Consistent.backTo (h : state.Consistent) (hmax : block.number < maxNumber)
    (hfound : state.findSealed block.number = .ok block) (hlocal : Agrees state.localDerived block)
    (hcross : Agrees state.crossDerived block) (invalidated : Option BlockSeal) :
    state.BackTo (state.backTo block invalidated) block where
  localUnsafe := by
    obtain ⟨sealed, hget, hsame⟩ := findSealed_eq_ok.mp hfound
    have hlatest : (state.backTo block invalidated).latest? = some sealed :=
      latest?_dropBlocksAbove hmax hget
    rw [heads, hlatest]
    exact congrArg some hsame
  crossUnsafe := state.loweredHead_crossUnsafe block
  localSafe := h.loweredHead_localSafe hmax hlocal
  crossSafe := h.loweredHead_crossSafe hmax hcross
  finalized := rfl

end Ledger

end CrossSafety
