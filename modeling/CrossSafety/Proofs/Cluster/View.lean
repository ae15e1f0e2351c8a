import CrossSafety.Cluster.Safety
import CrossSafety.Proofs.Membership
import CrossSafety.Proofs.Chain.Lookup
import CrossSafety.Proofs.Safety.Promotion

/-!
# What the checks see of a cluster

The reads of a cluster told by the open stores. Notes only touch the metrics, which no check reads.
-/
namespace CrossSafety

/-- A sealed block, by its chain and its number. -/
structure BlockPlace where
  chain : ChainId
  number : UInt64
deriving DecidableEq

namespace Cluster

variable {cluster : Cluster} {chain : ChainId}

def sealedAt (cluster : Cluster) (place : BlockPlace) : Option SealedBlock :=
  (cluster.chains.get? place.chain).bind fun store => store.state.blocks.get? place.number

theorem sealedAt_eq_some {place : BlockPlace} {sealed : SealedBlock} :
    cluster.sealedAt place = some sealed ↔ ∃ store, cluster.chains.get? place.chain = some store ∧
      store.state.blocks.get? place.number = some sealed :=
  Option.bind_eq_some_iff

theorem ask_eq_ok {α : Type} {read : ChainStore → Except StorageError α} {answer : α} :
    cluster.ask chain read = .ok answer ↔
      ∃ store, cluster.chains.get? chain = some store ∧ read store = .ok answer := by
  unfold ask store
  cases cluster.chains.get? chain with
  | none => simp
  | some store => simp

theorem view_blockAt {number : UInt64} {opened : BlockContents} :
    cluster.view.blockAt chain number = .ok opened ↔
      ∃ sealed, cluster.sealedAt ⟨chain, number⟩ = some sealed ∧ sealed.opened = opened := by
  simp only [view, ask_eq_ok, Ledger.blockAt_eq_ok, sealedAt_eq_some]
  constructor
  · rintro ⟨store, hstore, sealed, hsealed, hopened⟩
    exact ⟨sealed, ⟨store, hstore, hsealed⟩, hopened⟩
  · rintro ⟨sealed, ⟨store, hstore, hsealed⟩, hopened⟩
    exact ⟨store, hstore, sealed, hsealed, hopened⟩

theorem view_contains {query : LogQuery} {block : BlockSeal} :
    cluster.view.contains chain query = .ok block ↔
      ∃ store, cluster.chains.get? chain = some store ∧ store.contains query = .ok block :=
  ask_eq_ok

theorem view_sourceOf {block : BlockId} {source : BlockSeal} :
    cluster.view.sourceOf chain block = .ok source ↔
      ∃ store, cluster.chains.get? chain = some store ∧ store.state.sourceOf block = .ok source :=
  ask_eq_ok

theorem view_contains_timestamp {query : LogQuery} {block : BlockSeal}
    (h : cluster.view.contains chain query = .ok block) : block.timestamp = query.timestamp := by
  obtain ⟨store, -, h⟩ := view_contains.mp h
  obtain ⟨sealed, hsealed, -, -, rfl⟩ := ChainStore.contains_eq_ok.mp h
  exact (Ledger.blockOfQuery_eq_ok.mp hsealed).2.2

/-- Taking note of something only changes the metrics. -/
theorem note_eq (cluster : Cluster) (note : PromotionNote) :
    ∃ metrics, cluster.note note = { cluster with metrics } := by
  cases note with
  | took read =>
    unfold Cluster.note noteRead
    cases cluster.metrics with
    | none => exact ⟨_, rfl⟩
    | some registry => exact ⟨_, rfl⟩
  | hazards | cycle | invalidated => exact ⟨_, rfl⟩

theorem notesUnseen : safetyStore.NotesUnseen := by
  intro note cluster
  obtain ⟨metrics, h⟩ := note_eq cluster note
  change (cluster.note note).view = cluster.view
  rw [h]
  rfl

end Cluster

end CrossSafety
