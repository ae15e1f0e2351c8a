import CrossSafety.Proofs.Chain.Messages
import CrossSafety.Proofs.Cluster.Reachable

/-!
# Clusters with the logs that were told

A property of chains that have the logs of their sealed blocks is lasting if neither a write nor
compacting the journal loses it: opening the files of such a chain gives the chain again or leaves
the same files. In a reachable cluster all sealed blocks are placed for this reason.
-/
namespace CrossSafety

variable {allowed : Operation → Prop}

/-- A chain with the logs of its sealed blocks, all of which are placed. -/
structure ChainStore.Charted (store : ChainStore) : Prop where
  traced : ∃ told, store.Traced told
  placed : store.state.Placed

/-- An allowed write or one of a promotion names blocks that have successors. -/
theorem ChainStore.Traced.blocksBounded {store : ChainStore} {told : UInt64 → List Log}
    (h : store.Traced told) (hblocks : ∀ operation, allowed operation → operation.BlocksBounded)
    {operation : Operation} (hallowed : allowed operation ∨ operation.Promotes) {change : Change}
    (hallows : store.state.Allows operation change) : operation.BlocksBounded :=
  hallowed.elim (hblocks operation) fun hpromotes => h.consistent.blocks_bounded hpromotes hallows

namespace Cluster

variable {cluster : Cluster}

/-- What chains with the logs of their sealed blocks keep is lasting. -/
theorem lasting_traced {holds : ChainStore → Prop} (hnew : holds .empty)
    (htraced : ∀ store, holds store → ∃ told, store.Traced told)
    (hcompact : ∀ store, holds store → holds store.compact)
    (hperform : ∀ store operation, holds store → allowed operation ∨ operation.Promotes →
      holds (store.perform operation).store) :
    Lasting allowed holds fun directory =>
      ∃ store : ChainStore, holds store ∧ directory = store.directory where
  new := hnew
  load := by
    rintro _ ⟨store, hstore, rfl⟩
    obtain ⟨told, htraced⟩ := htraced store hstore
    rcases htraced.load_cases with ⟨hload, -⟩ | ⟨position, -, -, hload⟩
    · rw [hload]
      exact hcompact store hstore
    · rw [hload]
      exact ⟨store, hstore, rfl⟩
  perform := hperform
  close store hstore := ⟨store, hstore, rfl⟩

/-- Chains with the logs of their sealed blocks stay so, with all blocks placed. -/
theorem lasting_charted (hblocks : ∀ operation, allowed operation → operation.BlocksBounded) :
    Lasting allowed (·.Charted) fun directory =>
      ∃ store : ChainStore, store.Charted ∧ directory = store.directory := by
  refine lasting_traced ⟨⟨_, ChainStore.empty_traced⟩, fun _ _ hget => nomatch hget⟩
    (fun _ hstore => hstore.traced) (fun store hstore => ?_) fun store operation hstore hallowed => ?_
  · obtain ⟨told, htraced⟩ := hstore.traced
    exact ⟨⟨told, htraced.compact⟩, (ChainStore.compact_eq store).1 ▸ hstore.placed⟩
  · obtain ⟨told, htraced⟩ := hstore.traced
    exact ⟨⟨_, htraced.perform fun _ => htraced.blocksBounded hblocks hallowed⟩,
      htraced.placed_perform hstore.placed operation⟩

theorem Reachable.charted (h : Reachable allowed cluster)
    (hblocks : ∀ operation, allowed operation → operation.BlocksBounded) {chain : ChainId}
    {store : ChainStore} (hstore : cluster.chains.get? chain = some store) : store.Charted := by
  refine (h.all (lasting_charted hblocks) fun _ hcharted => ?_).stores chain store hstore
  obtain ⟨told, htraced⟩ := hcharted.traced
  exact htraced.consistent

end Cluster

end CrossSafety
