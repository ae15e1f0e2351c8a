import CrossSafety.Proofs.Cluster.Joint
import CrossSafety.Proofs.Cluster.Traced
import CrossSafety.Proofs.Safety.Agreement

/-!
# The checks of a cluster agree

In a reachable cluster a log is found only in a block that counts it, and so are the executing logs
of that block. So hazards that were built within a scope pass the check of dependencies within the
same scope, and nothing but a cycle stops the check of their order.
-/
namespace CrossSafety.Cluster

variable {cluster : Cluster} {chain : ChainId} {scope : UInt64} {limit : Nat} {candidate : BlockSeal}
  {hazards : Hazards}

theorem counted (hcoherent : cluster.view.Coherent)
    (hplaced : ∀ chain store, cluster.chains.get? chain = some store → store.state.Placed) :
    cluster.view.Counted := by
  have hinside {chain : ChainId} {query : LogQuery} {block : BlockSeal} {opened : BlockContents}
      (hfound : cluster.view.contains chain query = .ok block)
      (hopened : cluster.view.blockAt chain block.number = .ok opened) :
      query.logIndex < opened.logCount ∧ ∀ logIndex message,
        opened.messages.get? logIndex = some message → logIndex < opened.logCount := by
    rw [hcoherent.numbered chain query block hfound] at hopened
    obtain ⟨store, hstore, hcontains⟩ := view_contains.mp hfound
    obtain ⟨_, hstore', hblock⟩ := ask_eq_ok.mp hopened
    cases hstore.symm.trans hstore'
    exact ChainStore.contains_placed (hplaced chain store hstore) hcontains hblock
  exact ⟨fun _ _ _ _ hfound hopened => (hinside hfound hopened).1,
    fun _ _ _ _ hfound hopened => (hinside hfound hopened).2⟩

/-- Hazards that were built within a scope are put in order or have a cycle. The check of dependencies
within the same scope passes and counts all of them. -/
theorem checks_agree (h : Reachable Operation.BlocksBounded cluster)
    (hdistinct : cluster.members.hasDistinctIndices = true)
    (hmember : cluster.members.members.contains chain = true)
    (hbuild : (Hazards.build cluster.view cluster.members.lookups (cluster.view.validInScope scope)
      limit chain candidate).result = .ok hazards) :
    ((Hazards.checkOrder cluster.view cluster.members.lookups candidate.timestamp hazards).result =
        .ok () ∨
      (Hazards.checkOrder cluster.view cluster.members.lookups candidate.timestamp hazards).result =
        .error (.conflict (.cycle candidate.timestamp))) ∧
    (cluster.view.checkDependencies cluster.members.lookups scope chain candidate hazards).result =
      .ok hazards.size := by
  have hcoherent := (h.consistent fun _ hbounded => hbounded).coherent
  have hcounted := counted hcoherent fun _ _ hstore =>
    (h.charted (fun _ hbounded => hbounded) hstore).placed
  have hids (index : MemberIndex) (other : ChainId) : cluster.members.idOfIndex index = .ok other ↔
      cluster.members.indexOfId other = .ok index :=
    ⟨Membership.indexOfId_of_idOfIndex, Membership.idOfIndex_of_indexOfId hdistinct⟩
  obtain ⟨member, hmember⟩ := Table.contains_iff.mp hmember
  have hown : cluster.members.indexOfId chain = .ok member.index :=
    Membership.indexOfId_eq_ok.mpr ⟨member, hmember, rfl⟩
  exact ⟨(answerable_of_build dated hcoherent (fun index other => (hids index other).mp) hcounted
    hbuild).checkOrder_cases, checkDependencies_of_build dated hcoherent hids hown hbuild⟩

/-- Two blocks execute messages of each other, and one of them a message of an older block too, which
is cross-safe. -/
theorem checks_agree_mutual :
    let members : Membership := ⟨.ofList [(900, ⟨0, 0, 0⟩), (901, ⟨1, 0, 0⟩)]⟩
    let block (number : UInt64) (hash parent : UInt8) : DerivedPair :=
      ⟨⟨.ofBytes [9], 0, .ofBytes [0], 0⟩, ⟨.ofBytes [hash], number, .ofBytes [parent], number⟩⟩
    let extend (chain : ChainId) (pair : DerivedPair) (logs : List Log) : List Step :=
      [.write chain (.seal pair.derived logs), .write chain (.addDerived pair)]
    let steps : List Step := [.create 900, .create 901, .write 900 (.initialise (block 1 1 0)),
      .write 901 (.initialise (block 1 2 0))] ++
      extend 900 (block 2 11 1) [⟨0, .ofBytes [40], none⟩] ++
      extend 901 (block 2 12 2) [] ++
      [.promote 10 900] ++
      extend 900 (block 3 21 11) [⟨0, .ofBytes [41], none⟩,
        ⟨1, .ofBytes [50], some ⟨1, 3, 0, 3, .ofBytes [42]⟩⟩] ++
      extend 901 (block 3 22 12) [⟨0, .ofBytes [42], none⟩,
        ⟨1, .ofBytes [51], some ⟨0, 3, 0, 3, .ofBytes [41]⟩⟩,
        ⟨2, .ofBytes [52], some ⟨0, 2, 0, 2, .ofBytes [40]⟩⟩]
    let cluster := (empty members false).run steps
    let candidate := (block 3 21 11).derived.toSeal
    let hazards : Hazards := .ofList [(0, candidate), (1, (block 3 22 12).derived.toSeal)]
    (Hazards.build cluster.view cluster.members.lookups (cluster.view.validInScope 0) 3 900
        candidate).result = .ok hazards ∧
      (Hazards.checkOrder cluster.view cluster.members.lookups 3 hazards).result = .ok () ∧
      (cluster.view.checkDependencies cluster.members.lookups 0 900 candidate hazards).result =
        .ok 2 := by
  intro members block extend steps cluster candidate hazards
  have hbounded : ∀ operation ∈ steps.filterMap Step.operation?, operation.BlocksBounded := by
    decide +kernel
  have hreachable : Reachable Operation.BlocksBounded cluster :=
    (Reachable.empty members false).run hbounded
  have hdistinct : cluster.members.hasDistinctIndices = true := by decide +kernel
  have hmember : cluster.members.members.contains 900 = true := by decide +kernel
  have hbuild : (Hazards.build cluster.view cluster.members.lookups (cluster.view.validInScope 0) 3
      900 candidate).result = .ok hazards := by decide +kernel
  obtain ⟨horder, hdependencies⟩ := checks_agree hreachable hdistinct hmember hbuild
  exact ⟨hbuild, horder.resolve_right (by decide +kernel), hdependencies⟩

end CrossSafety.Cluster
