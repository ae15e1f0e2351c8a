import CrossSafety.Proofs.Chain.Linked
import CrossSafety.Proofs.Chain.Moves

/-!
# The indexes of a chain fit together

Sealed blocks, sources and derivation records are linked, cross-safe blocks are local-safe ones, and
the heads point into their indexes. Every allowed change keeps this, also the ones that cut several
indexes at once, and so does opening the chain, whatever logs are found.

What is said of sources needs that source numbers have successors too: a source whose number wrapped
around would be recorded below the others. Nothing else depends on it.
-/
namespace CrossSafety

namespace Operation

/-- The numbers of the blocks that a write names. -/
def blockNumbers : Operation → List UInt64
  | .initialise anchor => [anchor.derived.number]
  | .seal block _ => [block.number]
  | .addSource _ => []
  | .addDerived pair => [pair.derived.number]
  | .setCrossSafe pair => [pair.derived.number]
  | .invalidate candidate => [candidate.derived.number]
  | .setCrossUnsafe block => [block.number]
  | .setFinalized block => [block.number]
  | .rewindLocalUnsafe target => [target.number]
  | .rewindCrossUnsafe target => [target.number]
  | .rewindLocalSafe target => [target.number]
  | .rewindCrossSafe target => [target.number]

/-- The numbers of the source blocks that a write names. -/
def sourceNumbers : Operation → List UInt64
  | .initialise anchor => [anchor.source.number]
  | .addSource source => [source.number]
  | .addDerived pair => [pair.source.number]
  | .setCrossSafe pair => [pair.source.number]
  | .invalidate candidate => [candidate.source.number]
  | _ => []

end Operation

namespace ChainStore.Step

/-- Whether all blocks that a step names have successors. -/
def BlocksBounded : Step → Prop
  | .write operation => ∀ number ∈ operation.blockNumbers, number < maxNumber
  | .reopen => True

/-- Whether all source blocks that a step names have successors. -/
def SourcesBounded : Step → Prop
  | .write operation => ∀ number ∈ operation.sourceNumbers, number < maxNumber
  | .reopen => True

instance : (step : Step) → Decidable step.BlocksBounded
  | .write operation => List.decidableBAll (· < maxNumber) operation.blockNumbers
  | .reopen => isTrue trivial

instance : (step : Step) → Decidable step.SourcesBounded
  | .write operation => List.decidableBAll (· < maxNumber) operation.sourceNumbers
  | .reopen => isTrue trivial

end ChainStore.Step

namespace Ledger

variable {state : Ledger}

/-- A derivation record is next to another one if its block follows that of the other and its source
is not lower. -/
def Derives (below above : DerivedPair) : Prop :=
  follows above.derived below.derived ∧ below.source.number ≤ above.source.number

/-- Sealed blocks are linked, and the cross-unsafe head is one of them. -/
structure SealedConsistent (state : Ledger) : Prop where
  blocks : state.blocks.Linked SealedBlock.block fun below above => follows above.block below.block
  crossUnsafe : ∀ head, state.crossUnsafe = some head →
    ∃ sealed, state.blocks.get? head.number = some sealed ∧ sealed.block.hash = head.hash

/-- Cross-safe records are linked, and the cross-safe head is set exactly if there is one. It is then
the last of them, in a source that is not lower. -/
structure CrossConsistent (state : Ledger) : Prop where
  crossDerived : state.crossDerived.Linked DerivedPair.derived Derives
  unset : state.crossSafe = none → state.crossDerived.last? = none
  head : ∀ head, state.crossSafe = some head → ∃ last, state.crossDerived.last? = some last ∧
    last.derived.id = head.derived.id ∧ last.source.number ≤ head.source.number

/-- The indexes fit together. -/
structure Consistent (state : Ledger) : Prop extends
    SealedConsistent state, CrossConsistent state where
  localDerived : state.localDerived.Linked DerivedPair.derived Derives
  /-- The source of a local-safe block is the recorded one of its number. -/
  recorded : ∀ number pair, state.localDerived.get? number = some pair →
    state.sources.get? pair.source.number = some pair.source
  localSafe : ∀ number pair, state.crossDerived.get? number = some pair →
    ∃ known, state.localDerived.get? number = some known ∧
      known.derived.hash = pair.derived.hash

/-- Sources are linked. -/
def SourcesLinked (state : Ledger) : Prop :=
  state.sources.Linked id fun below above => follows above below

theorem empty_consistent : empty.Consistent where
  blocks := .empty
  crossUnsafe _ hhead := nomatch hhead
  crossDerived := .empty
  unset _ := rfl
  head _ hhead := nomatch hhead
  localDerived := .empty
  recorded _ _ hget := nomatch hget
  localSafe _ _ hget := nomatch hget

/-- The cross-safe head has a record. -/
theorem CrossConsistent.get?_head (h : state.CrossConsistent) {head : DerivedPair}
    (hhead : state.crossSafe = some head) :
    ∃ record, state.crossDerived.get? head.derived.number = some record ∧
      record.derived.hash = head.derived.hash := by
  obtain ⟨last, hlast, hid, -⟩ := h.head head hhead
  have hnumber : last.derived.number = head.derived.number := congrArg BlockId.number hid
  exact ⟨last, hnumber ▸ h.crossDerived.get?_last hlast, congrArg BlockId.hash hid⟩

/-- No cross-safe record lies above the head. -/
theorem CrossConsistent.le_head (h : state.CrossConsistent) {head record : DerivedPair}
    (hhead : state.crossSafe = some head) {number : UInt64}
    (hget : state.crossDerived.get? number = some record) : number ≤ head.derived.number := by
  obtain ⟨last, hlast, hid, -⟩ := h.head head hhead
  have hnumber : last.derived.number = head.derived.number := congrArg BlockId.number hid
  exact hnumber ▸ h.crossDerived.le_last hlast hget

/-- The block of the cross-safe head is local-safe. -/
theorem Consistent.exists_localHead (h : state.Consistent) {head : DerivedPair}
    (hhead : state.crossSafe = some head) :
    ∃ known, state.localDerived.get? head.derived.number = some known ∧
      known.derived.hash = head.derived.hash := by
  obtain ⟨record, hget, hhash⟩ := h.get?_head hhead
  obtain ⟨known, hknown, hsame⟩ := h.localSafe _ _ hget
  exact ⟨known, hknown, hsame.trans hhash⟩

/-! ## Cutting the indexes -/

/-- The number in front of one that is cut from has the cut one as its successor. -/
theorem numberBefore_succ {number : UInt64} (h : number ≠ 0) : numberBefore number + 1 = number := by
  rw [numberBefore, if_neg h, UInt64.sub_add_cancel]

theorem numberBefore_lt (number : UInt64) : numberBefore number < maxNumber := by
  unfold numberBefore
  split
  · exact (by decide : (0 : UInt64) < maxNumber)
  · rename_i hne
    have hlt := number.toNat_lt
    have hmax : maxNumber.toNat = 18446744073709551615 := rfl
    rw [UInt64.lt_iff_toNat_lt, toNat_pred hne]
    omega

theorem dropBlocksAbove_crossUnsafe (state : Ledger) (number : UInt64) :
    (state.dropBlocksAbove number).crossUnsafe = state.crossUnsafe.bind fun head =>
      if number < head.number then
        ((state.blocks.below (number + 1)).get? number).map fun sealed => sealed.block.toSeal
      else some head := by
  unfold dropBlocksAbove
  cases state.crossUnsafe <;> rfl

theorem dropCrossSafeAbove_crossSafe (state : Ledger) (number : UInt64) :
    (state.dropCrossSafeAbove number).crossSafe = state.crossSafe.bind fun head =>
      if number < head.derived.number then (state.crossDerived.below (number + 1)).last?
      else some head := by
  unfold dropCrossSafeAbove
  cases state.crossSafe <;> rfl

theorem SealedConsistent.dropBlocksAbove (h : state.SealedConsistent) {number : UInt64}
    (hmax : number < maxNumber) : (state.dropBlocksAbove number).SealedConsistent where
  blocks := h.blocks.below _
  crossUnsafe head hhead := by
    rw [dropBlocksAbove_crossUnsafe] at hhead
    obtain ⟨old, hold, hhead⟩ := Option.bind_eq_some_iff.mp hhead
    rw [dropBlocksAbove_blocks]
    split at hhead
    · -- the head falls back to the block at the number, if that is sealed
      obtain ⟨sealed, hget, rfl⟩ := Option.map_eq_some_iff.mp hhead
      have hnumber := (h.blocks.keyed _ _ (Table.get?_of_below hget)).1
      exact ⟨sealed, hnumber.symm ▸ hget, rfl⟩
    · rename_i hle
      cases hhead
      obtain ⟨sealed, hget, hhash⟩ := h.crossUnsafe head hold
      exact ⟨sealed, by rwa [get?_below_succ hmax, if_pos (UInt64.not_lt.mp hle)], hhash⟩

theorem CrossConsistent.dropCrossSafeAbove (h : state.CrossConsistent) {number : UInt64}
    (hmax : number < maxNumber) : (state.dropCrossSafeAbove number).CrossConsistent := by
  have hcut : (state.dropCrossSafeAbove number).crossDerived =
      state.crossDerived.below (number + 1) := rfl
  refine ⟨hcut ▸ h.crossDerived.below _, fun hnone => ?_, fun head hsome => ?_⟩
  · rw [hcut]
    rw [dropCrossSafeAbove_crossSafe] at hnone
    cases hold : state.crossSafe with
    | none =>
      refine Table.last?_eq_none.mpr fun key => ?_
      rw [get?_below_succ hmax, Table.last?_eq_none.mp (h.unset hold), ite_self]
    | some old =>
      rw [hold, Option.bind_some] at hnone
      split at hnone
      · exact hnone
      · cases hnone
  · rw [hcut]
    rw [dropCrossSafeAbove_crossSafe] at hsome
    obtain ⟨old, hold, hsome⟩ := Option.bind_eq_some_iff.mp hsome
    split at hsome
    · exact ⟨head, hsome, rfl, UInt64.le_refl _⟩
    · rename_i hle
      cases hsome
      -- no record lies above the head, so nothing is cut
      have hsame : state.crossDerived.below (number + 1) = state.crossDerived :=
        below_succ_eq_self hmax fun key record hget =>
          UInt64.le_trans (h.le_head hold hget) (UInt64.not_lt.mp hle)
      rw [hsame]
      exact h.head head hold

theorem Consistent.dropBlocksAbove (h : state.Consistent) {number : UInt64}
    (hmax : number < maxNumber) : (state.dropBlocksAbove number).Consistent where
  toSealedConsistent := h.toSealedConsistent.dropBlocksAbove hmax
  toCrossConsistent := ⟨h.crossDerived, h.unset, h.head⟩
  localDerived := h.localDerived
  recorded := h.recorded
  localSafe := h.localSafe

theorem Consistent.dropCrossSafeAbove (h : state.Consistent) {number : UInt64}
    (hmax : number < maxNumber) : (state.dropCrossSafeAbove number).Consistent where
  toSealedConsistent := ⟨h.blocks, h.crossUnsafe⟩
  toCrossConsistent := h.toCrossConsistent.dropCrossSafeAbove hmax
  localDerived := h.localDerived
  recorded := h.recorded
  localSafe key pair hget := h.localSafe key pair (Table.get?_of_below hget)

theorem dropLocalSafeFrom_zero : state.dropLocalSafeFrom 0 =
    { state with
      localDerived := state.localDerived.below 0
      crossDerived := .empty
      crossSafe := none } := rfl

theorem dropLocalSafeFrom_of_ne {number : UInt64} (h : number ≠ 0) :
    state.dropLocalSafeFrom number = ({ state with
      localDerived := state.localDerived.below number } : Ledger).dropCrossSafeAbove
        (numberBefore number) := if_neg h

/-- Sources and the finalized head do not depend on what is local-safe. -/
theorem dropLocalSafeFrom_frame (number : UInt64) :
    (state.dropLocalSafeFrom number).sources = state.sources ∧
      (state.dropLocalSafeFrom number).finalized = state.finalized := by
  by_cases hzero : number = 0
  · subst hzero
    exact ⟨rfl, rfl⟩
  · rw [dropLocalSafeFrom_of_ne hzero]
    exact ⟨rfl, rfl⟩

theorem apply_invalidate_frame (derived : BlockRef) :
    (state.apply (.invalidate derived)).sources = state.sources ∧
      (state.apply (.invalidate derived)).finalized = state.finalized := by
  rw [apply_invalidate]
  dsimp only
  split <;> exact dropLocalSafeFrom_frame _

theorem Consistent.dropLocalSafeFrom (h : state.Consistent) (number : UInt64) :
    (state.dropLocalSafeFrom number).Consistent := by
  by_cases hzero : number = 0
  · subst hzero
    rw [dropLocalSafeFrom_zero]
    exact {
      blocks := h.blocks
      crossUnsafe := h.crossUnsafe
      crossDerived := .empty
      unset := fun _ => rfl
      head := fun _ hhead => (nomatch hhead)
      localDerived := h.localDerived.below 0
      recorded := fun key pair hget => h.recorded key pair (Table.get?_of_below hget)
      localSafe := fun _ _ hget => (nomatch hget) }
  · rw [dropLocalSafeFrom_of_ne hzero]
    have hcross : ({ state with
        localDerived := state.localDerived.below number } : Ledger).CrossConsistent :=
      ⟨h.crossDerived, h.unset, h.head⟩
    refine {
      toSealedConsistent := ⟨h.blocks, h.crossUnsafe⟩
      toCrossConsistent := hcross.dropCrossSafeAbove (numberBefore_lt number)
      localDerived := h.localDerived.below number
      recorded := fun key pair hget => h.recorded key pair (Table.get?_of_below hget)
      localSafe := fun key pair hget => ?_ }
    -- both tables are cut at the same number
    change (state.crossDerived.below (numberBefore number + 1)).get? key = some pair at hget
    change ∃ known, (state.localDerived.below number).get? key = some known ∧ _
    rw [numberBefore_succ hzero, Table.get?_below] at hget
    rw [Table.get?_below]
    split at hget
    · rename_i hlt
      rw [if_pos hlt]
      exact h.localSafe key pair hget
    · cases hget

end Ledger

end CrossSafety
