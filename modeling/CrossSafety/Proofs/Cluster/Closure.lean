import CrossSafety.Proofs.Cluster.Acceptance
import CrossSafety.Proofs.Safety.Closure
import CrossSafety.Proofs.Safety.Openings

/-!
# The hazard sets of a cluster

In a cluster a log is only found in a block of the time that is asked for, and an index belongs to
one member. So the hazard set of a block is its closure, and a search opens at most one block for
each member besides the block that it starts from.
-/
namespace CrossSafety

namespace Membership

theorem mem_keys_of_idOfIndex {set : Membership} {index : MemberIndex} {chain : ChainId}
    (h : set.idOfIndex index = .ok chain) : chain ∈ set.members.keys := by
  obtain ⟨member, hmember, -⟩ := indexOfId_eq_ok.mp (indexOfId_of_idOfIndex h)
  exact Table.mem_keys.mpr ⟨member, hmember⟩

theorem build_opens (members : Membership) (view : SafetyView) (valid : OlderBlockCheck)
    (limit : Nat) (chain : ChainId) (block : BlockSeal) :
    ∃ own, OpensOwn valid
        (Hazards.build view members.lookups valid limit chain block).openings own ∧
      (own = [] ∨ ∃ others, own = (chain, block.number) :: others ∧
        (others.map Prod.fst).Subperm members.members.keys) := by
  rw [← Traversal.build_newestFirst]
  obtain ⟨own, hopens, hown⟩ := @Traversal.build_opens view members.lookups valid
    (fun _ _ hindex => indexOfId_of_idOfIndex hindex) .newestFirst limit chain block
  refine ⟨own, hopens, hown.imp_right fun ⟨others, heq, hnodup, hmember⟩ => ⟨others, heq, ?_⟩⟩
  refine hnodup.subperm fun other hmem => ?_
  obtain ⟨index, hindex⟩ := hmember other hmem
  exact mem_keys_of_idOfIndex hindex

end Membership

namespace Cluster

/-- The hazard set of a block is built exactly if the block can be closed. It is then its closure, and
every other order of the search gives it too. Whatever the chains answer, the search opens the block
it starts from first and then at most one block of each member. -/
theorem build_closure (cluster : Cluster) (valid : OlderBlockCheck) (limit : Nat)
    (chain : ChainId) (block : BlockSeal) :
    ((∃ hazards, (Hazards.build cluster.view cluster.members.lookups valid limit chain
        block).result = .ok hazards) ↔
      Closable cluster.view cluster.members.lookups (HazardSearch.Accepts valid) limit
        ⟨chain, block⟩) ∧
    (∀ hazards, (Hazards.build cluster.view cluster.members.lookups valid limit chain
        block).result = .ok hazards →
      IsClosure cluster.view cluster.members.lookups ⟨chain, block⟩ hazards) ∧
    (∀ (order : Traversal) (hazards : Hazards),
      (order.build cluster.view cluster.members.lookups valid limit chain block).result =
          .ok hazards ↔
        (Hazards.build cluster.view cluster.members.lookups valid limit chain block).result =
          .ok hazards) ∧
    ∀ view : SafetyView, ∃ own, OpensOwn valid
        (Hazards.build view cluster.members.lookups valid limit chain block).openings own ∧
      (own = [] ∨ ∃ others, own = (chain, block.number) :: others ∧
        (others.map Prod.fst).Subperm cluster.members.members.keys) := by
  have hids : ∀ index chain, cluster.members.lookups.idOfIndex index = .ok chain →
      cluster.members.lookups.indexOfId chain = .ok index :=
    fun _ _ hindex => Membership.indexOfId_of_idOfIndex hindex
  have hbuild (order : Traversal) (hazards : Hazards) :
      (order.build cluster.view cluster.members.lookups valid limit chain block).result =
          .ok hazards ↔
        Closable cluster.view cluster.members.lookups (HazardSearch.Accepts valid) limit
            ⟨chain, block⟩ ∧
          IsClosure cluster.view cluster.members.lookups ⟨chain, block⟩ hazards :=
    Traversal.build_eq_ok_iff dated hids order
  have hplain : Hazards.build cluster.view cluster.members.lookups valid limit chain block =
      Traversal.newestFirst.build cluster.view cluster.members.lookups valid limit chain block :=
    Traversal.build_newestFirst.symm
  refine ⟨⟨fun ⟨hazards, h⟩ => ?_, fun h => ?_⟩, fun hazards h => ?_, fun order hazards => ?_,
    fun view => cluster.members.build_opens view valid limit chain block⟩
  · rw [hplain, hbuild] at h
    exact h.1
  · rw [hplain]
    exact h.exists_build hids .newestFirst
  · rw [hplain, hbuild] at h
    exact h.2
  · rw [hplain, hbuild, hbuild]

/-- Two blocks execute messages of each other. The block that the search starts from is found again
as a hazard, so the limit has to allow for it twice. -/
theorem build_closure_mutual :
    let members : Membership := ⟨.ofList [(900, ⟨0, 0, 0⟩), (901, ⟨1, 0, 0⟩)]⟩
    let block (number : UInt64) (hash parent : UInt8) : BlockRef :=
      ⟨.ofBytes [hash], number, .ofBytes [parent], number⟩
    let sealing (hash parent initiated : UInt8) (message : ExecutingMessage) : Operation :=
      .seal (block 2 hash parent)
        [⟨0, .ofBytes [initiated], none⟩, ⟨1, .ofBytes [50], some message⟩]
    let opened := (((empty members false).create 900).2.create 901).2
    let cluster := [(900, .initialise ⟨block 0 9 0, block 1 1 0⟩),
      (901, .initialise ⟨block 0 9 0, block 1 2 0⟩),
      (900, sealing 11 1 40 ⟨1, 2, 0, 2, .ofBytes [41]⟩),
      (901, sealing 12 2 41 ⟨0, 2, 0, 2, .ofBytes [40]⟩)].foldl
        (fun cluster (chain, operation) => (cluster.perform chain operation).2) opened
    let valid : OlderBlockCheck := cluster.view.validInScope 0
    let hazards : Hazards := .ofList [(0, (block 2 11 1).toSeal), (1, (block 2 12 2).toSeal)]
    Closable cluster.view members.lookups (HazardSearch.Accepts valid) 3
        ⟨900, (block 2 11 1).toSeal⟩ ∧
      IsClosure cluster.view members.lookups ⟨900, (block 2 11 1).toSeal⟩ hazards ∧
      ¬Closable cluster.view members.lookups (HazardSearch.Accepts valid) 2
        ⟨900, (block 2 11 1).toSeal⟩ := by
  intro members block sealing opened cluster valid hazards
  have hbuilt : (Hazards.build cluster.view members.lookups valid 3 900
      (block 2 11 1).toSeal).result = .ok hazards := by decide +kernel
  have hlimit : (Hazards.build cluster.view members.lookups valid 2 900
      (block 2 11 1).toSeal).result = .error (.hazardLimitExceeded 2) := by decide +kernel
  have hmembers : cluster.members = members := by decide +kernel
  have hwide := build_closure cluster valid 3 900 (block 2 11 1).toSeal
  have hnarrow := build_closure cluster valid 2 900 (block 2 11 1).toSeal
  rw [hmembers] at hwide hnarrow
  refine ⟨hwide.1.mp ⟨hazards, hbuilt⟩, hwide.2.1 hazards hbuilt, fun hclosable => ?_⟩
  obtain ⟨found, hfound⟩ := hnarrow.1.mpr hclosable
  cases hlimit.symm.trans hfound

end Cluster

end CrossSafety
