import CrossSafety.Proofs.Chain.Growth
import CrossSafety.Proofs.Chain.Keeps

/-!
# What moves a chain on

Promotions write to a chain in two ways. The cross-safe head moves to the candidate or to another
source, and nothing else changes in the indexes. A block above the head is invalidated and takes
local-safe and sealed blocks with it, but nothing that is cross-safe. A write that fails leaves the
indexes as they are.
-/
namespace CrossSafety

namespace Ledger

variable {state middle after : Ledger} {pair head : DerivedPair} {source next : BlockRef}

/-- The conditions on the cross-safe head that the checks need are among those of the indexes. -/
theorem Consistent.headed (h : state.Consistent) : state.Headed where
  localKeyed number pair hget := (h.localDerived.keyed number pair hget).1
  unset hnone := Table.last?_eq_none.mp (h.unset hnone)
  head head hhead := by
    obtain ⟨record, hget, -⟩ := h.get?_head hhead
    exact ⟨(h.crossDerived.keyed _ _ hget).2, record, hget⟩
  top head number record hhead hget := h.le_head hhead hget

/-- Whether a number lies above the cross-safe head. -/
def AboveHead (state : Ledger) (number : UInt64) : Prop :=
  ∀ head, state.crossSafe = some head → head.derived.number < number

theorem crossSafeHead_eq_ok : state.crossSafeHead = .ok head ↔ state.crossSafe = some head := by
  unfold crossSafeHead
  cases state.crossSafe <;> simp

/-! ## A new cross-safe head -/

/-- A pair is the local-safe child of a cross-safe head, in a source that is not below that of the
head or its own. -/
structure Advances (state : Ledger) (head pair : DerivedPair) : Prop where
  current : state.crossSafe = some head
  child : follows pair.derived head.derived
  above : head.derived.number < pair.derived.number
  source : head.source.number ≤ pair.source.number
  recorded : ∃ known, state.localDerived.get? pair.derived.number = some known ∧
    known.derived = pair.derived ∧ known.source.number ≤ pair.source.number

/-- The candidate of a chain is the block next to its head. -/
theorem Headed.advances (h : state.Headed) (hcandidate : state.candidate = .ok pair) :
    ∃ head, state.Advances head pair := by
  obtain ⟨-, head, known, hhead, hget, hparent, rfl⟩ := candidate_eq_ok.mp hcandidate
  have hnumber := h.localKeyed _ _ hget
  refine ⟨head, hhead, ⟨hnumber, hparent⟩, hnumber ▸ h.lt_next hhead, ?_, known, hnumber ▸ hget, rfl,
    ?_⟩
  · dsimp only
    split
    · exact UInt64.le_refl _
    · rename_i hlt
      exact UInt64.le_of_lt (UInt64.not_le.mp hlt)
  · dsimp only
    split
    · assumption
    · exact UInt64.le_refl _

theorem Advances.aboveHead (h : state.Advances head pair) :
    state.AboveHead pair.derived.number := by
  intro other hother
  rw [h.current] at hother
  cases hother
  exact h.above

/-- A new head adds its own cross-safe record and that is all. -/
theorem Advances.apply_setCrossSafe (hadvances : state.Advances head pair) (h : state.Headed) :
    state.apply (.setCrossSafe pair) =
      { state with
        crossDerived := state.crossDerived.insert pair.derived.number pair
        crossSafe := some pair } := by
  have hfree : state.crossDerived.get? pair.derived.number = none := by
    rw [hadvances.child.1]
    exact h.get?_next hadvances.current
  rw [apply, Table.insertNew_of_none hfree]

/-- The head in another source changes nothing but its source. -/
theorem Headed.apply_setCrossSafe (h : state.Headed) (hhead : state.crossSafe = some head)
    (source : BlockRef) :
    state.apply (.setCrossSafe ⟨source, head.derived⟩) =
      { state with crossSafe := some ⟨source, head.derived⟩ } := by
  obtain ⟨-, record, hrecord⟩ := h.head head hhead
  rw [apply, Table.insertNew_of_some hrecord]

theorem sourceAfter_eq_ok : state.sourceAfter source.id = .ok next ↔
    ∃ known, state.sources.get? source.number = some known ∧ known.hash = source.hash ∧
      state.sources.get? (source.number + 1) = some next := by
  have hnumber : source.id.number = source.number := rfl
  unfold sourceAfter
  rw [hnumber]
  cases state.sources.get? source.number with
  | none => simp
  | some known =>
    by_cases hhash : known.hash = source.id.hash
    · have hsame : known.hash = source.hash := hhash
      cases state.sources.get? (source.number + 1) <;> simp [hsame, BlockRef.id]
    · have hother : known.hash ≠ source.hash := hhash
      simp [hother, BlockRef.id]

/-- The recorded source behind another one is its child. -/
theorem SourcesLinked.sourceAfter (h : state.SourcesLinked)
    (hnext : state.sourceAfter source.id = .ok next) :
    state.sources.get? next.number = some next ∧ follows next source ∧
      source.number < next.number := by
  obtain ⟨known, hknown, hhash, hnext⟩ := sourceAfter_eq_ok.mp hnext
  have hnumber : next.number = source.number + 1 := (h.keyed _ _ hnext).1
  have hparent : follows next known := h.neighbours hknown hnext
  refine ⟨hnumber ▸ hnext, ⟨hnumber, hparent.2.trans hhash⟩, ?_⟩
  rw [hnumber, UInt64.lt_iff_toNat_lt, toNat_succ_of_lt_max (h.keyed _ _ hknown).2]
  exact Nat.lt_succ_self _

/-! ## Blocks that become invalid -/

/-- A state lost local-safe and sealed blocks at most. -/
structure Shrinks (state after : Ledger) : Prop where
  crossSafe : after.crossSafe = state.crossSafe
  crossDerived : after.crossDerived = state.crossDerived
  sources : after.sources = state.sources
  finalized : after.finalized = state.finalized
  localDerived : ∀ number pair, after.localDerived.get? number = some pair →
    state.localDerived.get? number = some pair
  blocks : ∀ number sealed, after.blocks.get? number = some sealed →
    state.blocks.get? number = some sealed

theorem Shrinks.refl (state : Ledger) : state.Shrinks state :=
  ⟨rfl, rfl, rfl, rfl, fun _ _ hget => hget, fun _ _ hget => hget⟩

theorem Shrinks.trans (h : state.Shrinks middle) (h' : middle.Shrinks after) :
    state.Shrinks after where
  crossSafe := h'.crossSafe.trans h.crossSafe
  crossDerived := h'.crossDerived.trans h.crossDerived
  sources := h'.sources.trans h.sources
  finalized := h'.finalized.trans h.finalized
  localDerived number pair hget := h.localDerived number pair (h'.localDerived number pair hget)
  blocks number sealed hget := h.blocks number sealed (h'.blocks number sealed hget)

theorem Shrinks.aboveHead (h : state.Shrinks after) {number : UInt64} :
    after.AboveHead number ↔ state.AboveHead number := by
  rw [AboveHead, AboveHead, h.crossSafe]

/-- A block above the cross-safe head takes only what is not cross-safe with it. -/
theorem Headed.shrinks_invalidate (h : state.Headed) {derived : BlockRef}
    (habove : state.AboveHead derived.number) :
    state.Shrinks (state.apply (.invalidate derived)) where
  crossSafe := (apply_invalidate_cross h habove).1
  crossDerived := Table.ext_get? (apply_invalidate_cross h habove).2
  sources := (apply_invalidate_frame derived).1
  finalized := (apply_invalidate_frame derived).2
  localDerived number pair hget := by
    rw [apply_invalidate_localDerived] at hget
    exact Table.get?_of_below hget
  blocks number sealed hget := by
    rw [apply_invalidate_blocks] at hget
    split at hget
    · exact Table.get?_of_below hget
    · exact hget

/-- Nothing local-safe is left from a block on that was invalidated. -/
theorem lt_of_invalidate {derived : BlockRef} {number : UInt64}
    (hget : (state.apply (.invalidate derived)).localDerived.get? number = some pair) :
    number < derived.number := by
  rw [apply_invalidate_localDerived, Table.get?_below] at hget
  split at hget
  · rename_i hlt
    exact UInt64.lt_iff_toNat_lt.mpr hlt
  · cases hget

theorem candidate_invalidate (state : Ledger) (derived : BlockRef) :
    (state.apply (.invalidate derived)).candidate = .error (.awaitingReplacement derived.id) :=
  candidate_of_marked rfl

end Ledger

namespace ChainStore

variable {store : ChainStore} {pair : DerivedPair}

/-- A cross-safe head that is set was allowed, and its change is all that is made. -/
theorem perform_setCrossSafe (h : (store.perform (.setCrossSafe pair)).result = .ok ()) :
    (store.perform (.setCrossSafe pair)).store = store.commit (.setCrossSafe pair) := by
  obtain ⟨change, -, hallows, -⟩ := perform_changes h rfl
  obtain rfl : change = .setCrossSafe pair := by
    cases hallows
    rfl
  rw [perform_of_allows hallows rfl]

/-- A block that is invalidated was local-safe, and its change is made. -/
theorem perform_invalidate (h : (store.perform (.invalidate pair)).result = .ok ()) :
    store.state.Allows (.invalidate pair) (.invalidate pair.derived) ∧
      ∃ logs, (store.perform (.invalidate pair)).store =
        { store with logs }.commit (.invalidate pair.derived) := by
  obtain ⟨change, logs, hallows, hstore⟩ := perform_changes h rfl
  obtain rfl : change = .invalidate pair.derived := by
    cases hallows
    rfl
  exact ⟨hallows, logs, hstore⟩

end ChainStore

end CrossSafety
