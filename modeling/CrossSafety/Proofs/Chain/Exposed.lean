import CrossSafety.Proofs.Chain.Finalized
import CrossSafety.Proofs.Chain.Invariant
import CrossSafety.Proofs.Chain.SealedLogs

/-!
# Blocks that may go with a block of another chain

A local-safe block above the cross-safe head that executes messages has to go when a block with one
of them goes. It can be dropped if it lies above the finalized head and the block below it is sealed.
The first is so above every cross-safe head, because the finalized head is never above that one. The
second is up to the chain, and stays so while blocks are dropped from above.
-/
namespace CrossSafety

namespace Ledger

variable {state after : Ledger} {pair : DerivedPair} {operation : Operation} {change : Change}
  {derived : BlockRef}

/-! ## The finalized head -/

/-- The finalized head is block zero, or its block is cross-safe. -/
def FinalizedHeld (state : Ledger) : Prop :=
  ∀ head, state.finalized = some head → head.number = 0 ∨ state.Finalizes head

/-- Only one kind of write moves the finalized head. -/
theorem finalized_apply (hallows : state.Allows operation change) :
    (state.apply change).finalized = state.finalized ∨ ∃ block, operation = .setFinalized block := by
  cases hallows with
  | setFinalized block => exact .inr ⟨block, rfl⟩
  | invalidate candidate => exact .inl (apply_invalidate_frame _).2
  | rewindLocalSafe => exact .inl (dropLocalSafeFrom_frame _).2
  | _ => exact .inl rfl

theorem FinalizedHeld.apply (h : state.FinalizedHeld) (hconsistent : state.Consistent)
    (hmax : ∀ number ∈ operation.blockNumbers, number < maxNumber)
    (hallows : state.Allows operation change) : (state.apply change).FinalizedHeld := by
  intro head hhead
  rcases finalized_apply hallows with hsame | ⟨block, rfl⟩
  · rw [hsame] at hhead
    by_cases hzero : head.number = 0
    · exact .inl hzero
    · exact .inr (((h head hhead).resolve_left hzero).apply hmax (.inl hzero) hallows)
  · cases hallows with
    | setFinalized _ known cross hash above =>
      cases hhead
      exact .inr (hconsistent.finalizes cross hash)

theorem invariant_finalizedHeld {allowed : Operation → Prop}
    (hblocks : ∀ operation, allowed operation → operation.BlocksBounded) :
    Invariant allowed fun state => state.Consistent ∧ state.FinalizedHeld where
  empty := ⟨empty_consistent, fun _ hhead => nomatch hhead⟩
  change state operation change h hallowed hallows := by
    have hmax : operation.BlocksBounded :=
      hallowed.elim (hblocks operation) fun hpromotes => h.1.blocks_bounded hpromotes hallows
    exact ⟨h.1.apply hmax hallows, h.2.apply h.1 hmax hallows⟩
  drop state number h hmax :=
    ⟨h.1.dropBlocksAbove hmax, fun head hhead => (h.2 head hhead).imp_right fun hfinal =>
      { hfinal with }⟩

/-- The block below one that lies above the cross-safe head is not below the finalized head. -/
theorem FinalizedHeld.above (h : state.FinalizedHeld) (hconsistent : state.Consistent)
    (habove : state.AboveHead derived.number) :
    state.requireAboveFinalized derived.parentId.number = .ok () := by
  refine requireAboveFinalized_eq_ok.mpr fun final hfinal => ?_
  rcases h final hfinal with hzero | hfinalizes
  · rw [hzero]
    exact UInt64.zero_le
  · obtain ⟨-, top, htop, hle⟩ := hfinalizes.heads hconsistent
    obtain ⟨head, hhead, rfl⟩ := Option.map_eq_some_iff.mp htop
    have hlt : head.derived.number < derived.number := habove head hhead
    have hne : derived.number ≠ 0 := fun hzero => UInt64.not_lt_zero (hzero ▸ hlt)
    have hle := UInt64.le_iff_toNat_le.mp hle
    have hlt := UInt64.lt_iff_toNat_lt.mp hlt
    change final.number ≤ numberBefore derived.number
    change final.number.toNat ≤ head.derived.number.toNat at hle
    rw [numberBefore, if_neg hne, UInt64.le_iff_toNat_le, toNat_pred hne]
    omega

/-! ## Blocks that execute messages -/

/-- A local-safe block above the cross-safe head is sealed with messages that it executes. -/
structure Exposed (state : Ledger) (pair : DerivedPair) : Prop where
  recorded : state.localDerived.get? pair.derived.number = some pair
  above : state.AboveHead pair.derived.number
  executes : ∃ sealed, state.blocks.get? pair.derived.number = some sealed ∧
    sealed.block.hash = pair.derived.hash ∧ sealed.messages.isEmpty = false

/-- A block that has to go with another one is exposed. -/
theorem exposed_of_firstExecuting (h : state.Headed) {chain : MemberIndex} {block : UInt64}
    (hfirst : state.firstExecuting chain block = some pair) : state.Exposed pair := by
  obtain ⟨number, sealed, hget, habove, hsealed, hexecutes, hhash⟩ := firstExecuting_some hfirst
  have hnumber := h.localKeyed number pair hget
  refine ⟨hnumber.symm ▸ hget, fun head hhead => ?_, sealed, hsealed, hhash, ?_⟩
  · rw [hnumber]
    exact UInt64.lt_of_lt_of_le (h.lt_next hhead) (habove head hhead)
  · obtain ⟨message, hmem, -⟩ := List.any_eq_true.mp hexecutes
    obtain ⟨index, hmessage⟩ := Table.mem_values.mp hmem
    refine Bool.eq_false_iff.mpr fun hempty => ?_
    rw [Table.isEmpty_iff.mp hempty] at hmessage
    cases hmessage

theorem Shrinks.exposed (h : state.Shrinks after) (hexposed : after.Exposed pair) :
    state.Exposed pair := by
  obtain ⟨sealed, hsealed, hhash, hmessages⟩ := hexposed.executes
  exact ⟨h.localDerived _ _ hexposed.recorded, h.aboveHead.mp hexposed.above, sealed,
    h.blocks _ _ hsealed, hhash, hmessages⟩

/-- Whether the block below one is sealed, unless there is none. -/
def Rooted (state : Ledger) (derived : BlockRef) : Prop :=
  derived.number ≠ 0 → ∃ parent, state.sealedBlock derived.parentId = .ok parent

/-- An exposed block on top of a sealed one can be dropped. -/
theorem Exposed.allows (h : state.Exposed pair) (hconsistent : state.Consistent)
    (hheld : state.FinalizedHeld) (hrooted : state.Rooted pair.derived) :
    state.Allows (.invalidate pair) (.invalidate pair.derived) :=
  .invalidate pair pair h.recorded rfl (hheld.above hconsistent h.above) fun hne _ => hrooted hne

/-- Sealed blocks above another one are on top of sealed blocks. -/
theorem SealedConsistent.rooted (h : state.SealedConsistent) {low number : UInt64}
    {lowest sealed : SealedBlock} (hlow : state.blocks.get? low = some lowest)
    (hsealed : state.blocks.get? number = some sealed) (hlt : low < number) :
    state.Rooted sealed.block := by
  intro hne
  have hnumber : sealed.block.number = number := (h.blocks.keyed number sealed hsealed).1
  rw [hnumber] at hne
  have hpred := toNat_pred hne
  have hlt := UInt64.lt_iff_toNat_lt.mp hlt
  obtain ⟨last, hlast⟩ := Table.Linked.exists_last hsealed
  have htop := UInt64.le_iff_toNat_le.mp (h.blocks.le_last hlast hsealed)
  obtain ⟨parent, hparent⟩ := h.blocks.exists_between (fun _ _ hfollows => hfollows) hlow hlast
    (UInt64.le_iff_toNat_le.mpr (by omega : low.toNat ≤ (number - 1).toNat))
    (UInt64.le_iff_toNat_le.mpr (by omega))
  have habove : state.blocks.get? (number - 1 + 1) = some sealed := by rwa [UInt64.sub_add_cancel]
  have hfollows := h.blocks.neighbours hparent habove
  refine ⟨parent, ?_⟩
  rw [sealedBlock, BlockRef.parentId, numberBefore, hnumber, if_neg hne, hparent]
  exact if_pos hfollows.2.symm

/-! ## Blocks below one that is dropped -/

theorem sealedBlock_invalidate {block : BlockId} (hlt : block.number < derived.number) :
    (state.apply (.invalidate derived)).sealedBlock block = state.sealedBlock block := by
  have hget : (state.apply (.invalidate derived)).blocks.get? block.number =
      state.blocks.get? block.number := by
    rw [apply_invalidate_blocks]
    split
    · exact Table.get?_below.trans (if_pos (UInt64.lt_iff_toNat_lt.mp hlt))
    · rfl
  rw [sealedBlock, sealedBlock, hget]

theorem parent_lt {block : BlockRef} (hne : block.number ≠ 0)
    (hlt : block.number < derived.number) : block.parentId.number < derived.number := by
  have hpos := toNat_pos_of_ne_zero hne
  have hlt := UInt64.lt_iff_toNat_lt.mp hlt
  change numberBefore block.number < derived.number
  rw [numberBefore, if_neg hne, UInt64.lt_iff_toNat_lt, toNat_pred hne]
  omega

/-- A block below one that is dropped stays on top of a sealed block. -/
theorem Rooted.invalidate {block : BlockRef} (h : state.Rooted block)
    (hlt : block.number < derived.number) :
    (state.apply (.invalidate derived)).Rooted block := by
  intro hne
  rw [sealedBlock_invalidate (parent_lt hne hlt)]
  exact h hne

/-- A block that can be dropped still can when a higher one was dropped. -/
theorem Allows.after_invalidate (h : state.Allows (.invalidate pair) (.invalidate pair.derived))
    (hlt : pair.derived.number < derived.number) :
    (state.apply (.invalidate derived)).Allows (.invalidate pair) (.invalidate pair.derived) := by
  cases h with
  | invalidate _ known recorded hash above parent =>
    refine .invalidate pair known ?_ hash ?_ fun hne hcontains => ?_
    · rw [apply_invalidate_localDerived]
      exact get?_below_of_lt hlt recorded
    · rwa [requireAboveFinalized, (apply_invalidate_frame derived).2]
    · rw [sealedBlock_invalidate (parent_lt hne hlt)]
      refine parent hne ?_
      obtain ⟨sealed, hget⟩ := Table.contains_iff.mp hcontains
      rw [apply_invalidate_blocks] at hget
      refine Table.contains_iff.mpr ⟨sealed, ?_⟩
      split at hget
      · exact Table.get?_of_below hget
      · exact hget

end Ledger

namespace ChainStore

variable {store : ChainStore} {logs : LogList} {pair : DerivedPair} {operation : Operation}

/-- A block that can be dropped is dropped. -/
theorem Listed.perform_invalidate (h : store.Listed logs)
    (hallows : store.state.Allows (.invalidate pair) (.invalidate pair.derived)) :
    (store.perform (.invalidate pair)).result = .ok () := by
  rw [perform, Ledger.plan_of_allows hallows]
  dsimp only
  by_cases hdrops : store.state.Drops pair.derived
  · obtain ⟨kept, observed, -, htake⟩ := takeAll_rewindLogs h.represents
      pair.derived.parentId.number (.invalidate pair.derived)
    rw [Ledger.logSteps, if_pos hdrops, List.singleton_append, htake]
  · rw [Ledger.logSteps, if_neg hdrops]
    rfl

/-- A write of a promotion that fails leaves the chain as it is. -/
theorem Listed.refused_same (h : store.Listed logs) (hpromotes : operation.Promotes)
    {error : StorageError} (hfailed : (store.perform operation).result = .error error) :
    (store.perform operation).store = store := by
  cases hplan : store.state.plan operation with
  | error refusal => rw [perform, hplan]
  | ok steps =>
    cases operation with
    | setCrossSafe pair =>
      obtain ⟨-, rfl⟩ := Ledger.planCrossSafe_cases hplan
      rw [perform, hplan] at hfailed
      cases hfailed
    | invalidate pair =>
      obtain ⟨hallows, -⟩ := Ledger.planInvalidate_cases hplan
      rw [h.perform_invalidate hallows] at hfailed
      cases hfailed
    | _ => exact hpromotes.elim

end ChainStore

end CrossSafety
