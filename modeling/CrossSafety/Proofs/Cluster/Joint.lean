import CrossSafety.Proofs.Cluster.Effect

/-!
# Blocks that become cross-safe together

A block may become cross-safe before its hazards do. Its promotion adds the block to what is
cross-safe and leaves all that its checks looked at, so the hazards can rely on these checks: the
chain of a hazard may have to wait, or to move to a later source, when it comes to the hazard, but it
does not reject it. Nothing is claimed if the hazards include another block of the promoted block's
own chain: that one can never become cross-safe.
-/
namespace CrossSafety.Cluster

variable {cluster after : Cluster} {chain other : ChainId} {store : ChainStore} {pair : DerivedPair}
  {hazards : Hazards} {limit : Nat}

theorem Holds.coherent (h : cluster.Holds Ledger.Consistent) : cluster.view.Coherent :=
  coherent_of_keyed fun _ _ hsealed => by
    obtain ⟨store, hstore, hget⟩ := sealedAt_eq_some.mp hsealed
    exact ((h.state hstore).blocks.keyed _ _ hget).1

/-! ## What a new cross-safe head leaves -/

theorem OnlyChanges.ask_of_ne {next : ChainStore} (h : cluster.OnlyChanges chain store next after)
    {α : Type} {read : ChainStore → Except StorageError α} (hne : other ≠ chain) :
    after.ask other read = cluster.ask other read := by
  rw [ask, ask, Cluster.store, Cluster.store, h.others other hne]

/-- A read that gives the same of both stores gives the same of all chains. -/
theorem OnlyChanges.ask_eq {next : ChainStore} (h : cluster.OnlyChanges chain store next after)
    {α : Type} {read : ChainStore → Except StorageError α} (hread : read next = read store) :
    after.ask other read = cluster.ask other read := by
  rcases Decidable.em (other = chain) with rfl | hne
  · rw [ask, ask, Cluster.store, Cluster.store, h.later, h.before]
    exact hread
  · exact h.ask_of_ne hne

section Head

variable (h : cluster.OnlyChanges chain store (store.commit (.setCrossSafe pair)) after)

include h

theorem OnlyChanges.blockAt_eq (number : UInt64) :
    after.view.blockAt other number = cluster.view.blockAt other number :=
  h.ask_eq rfl

/-- Sealed blocks and logs stay, and so do cross-safe blocks. -/
theorem OnlyChanges.keeps_view : cluster.view.Keeps after.view fun _ _ => True where
  blockAt _ number _ _ hopened := (h.blockAt_eq number).trans hopened
  contains _ _ _ _ hfound := (h.ask_eq rfl).trans hfound
  crossSafe other block := by
    rintro ⟨source, hsource⟩
    obtain ⟨found, hfound, hsource⟩ := view_sourceOf.mp hsource
    obtain ⟨record, hget, hhash, -⟩ := Ledger.sourceOf_eq_ok.mp hsource
    rcases Decidable.em (other = chain) with rfl | hne
    · cases h.before.symm.trans hfound
      exact view_crossSafe h.later ⟨record, Ledger.get?_insertNew_of_some hget, hhash⟩
    · exact view_crossSafe ((h.others other hne).trans hfound) ⟨record, hget, hhash⟩

end Head

/-! ## The hazards after the promotion -/

/-- What a positive verdict says of the hazards that the checks went through. -/
theorem accepted_of_verdict (hdistinct : cluster.members.hasDistinctIndices = true)
    (hverdict : (cluster.promoter limit).verdict cluster.view chain pair = .ok ())
    (hsurvey : ((cluster.promoter limit).survey cluster.view chain pair).result = .ok hazards) :
    cluster.Approves hazards chain pair ∧ ∀ index hazard, hazards.get? index = some hazard →
      ∃ other, cluster.members.idOfIndex index = .ok other ∧
        cluster.view.Ready pair.source.number other hazard := by
  obtain ⟨found, hfound, haccepted, hready⟩ := Promoter.verdict_sound dated
    (fun _ hindex => Membership.idOfIndex_of_indexOfId hdistinct hindex) hverdict
  cases hsurvey.symm.trans hfound
  exact ⟨haccepted, hready⟩

/-- A hazard is the sealed block of its number. -/
theorem sealed_of_survey (h : cluster.Holds Ledger.Consistent)
    (hsurvey : ((cluster.promoter limit).survey cluster.view chain pair).result = .ok hazards)
    {index : MemberIndex} {hazard : BlockSeal} (hget : hazards.get? index = some hazard)
    (hother : cluster.members.idOfIndex index = .ok other) {opened : BlockContents}
    (hopened : cluster.view.blockAt other hazard.number = .ok opened) :
    opened.block.toSeal = hazard := by
  obtain ⟨_, query, hother', hstored⟩ := Promoter.survey_stored hsurvey hget
  cases hother.symm.trans hother'
  exact h.coherent.exact other query hazard opened hstored hopened

/-- A hazard of the promoted block's own chain is that block. -/
def OwnHazards (cluster : Cluster) (hazards : Hazards) (chain : ChainId) (block : BlockId) : Prop :=
  ∀ index hazard, cluster.members.indexOfId chain = .ok index →
    hazards.get? index = some hazard → hazard.id = block

/-- The hazards of a block that was promoted are relied on afterwards. -/
theorem relied_of_promoted (h : cluster.Holds Ledger.Consistent)
    (hdistinct : cluster.members.hasDistinctIndices = true)
    (hchanges : cluster.OnlyChanges chain store (store.commit (.setCrossSafe pair)) after)
    (hcandidate : store.state.candidate = .ok pair)
    (hverdict : (cluster.promoter limit).verdict cluster.view chain pair = .ok ())
    (hsurvey : ((cluster.promoter limit).survey cluster.view chain pair).result = .ok hazards)
    (hown : cluster.OwnHazards hazards chain pair.derived.id) :
    Relied after.view cluster.members.lookups hazards ⟨chain, pair.derived.toSeal⟩ := by
  obtain ⟨haccepted, hready⟩ := accepted_of_verdict hdistinct hverdict hsurvey
  refine ⟨?_, fun index hazard other opened hget hother hopened => ?_,
    fun index hazard other hget hother => ?_⟩
  · exact (haccepted.imp fun _ _ ⟨source, hsource, _⟩ => ⟨source, hsource⟩).keeps h.coherent
      ⟨fun _ _ _ => trivial, fun _ _ _ _ _ => trivial⟩ hchanges.keeps_view trivial
  · exact sealed_of_survey h hsurvey hget hother
      ((hchanges.blockAt_eq hazard.number).symm.trans hopened)
  · rcases Decidable.em (other = chain) with rfl | hne
    · -- the one that was just promoted
      have hsame := hown index hazard (Membership.indexOfId_of_idOfIndex hother) hget
      refine .inl (view_crossSafe hchanges.later (hsame ▸ ⟨pair, ?_, rfl⟩))
      exact Ledger.get?_setCrossSafe (h.state hchanges.before).headed hcandidate
    · obtain ⟨other', hother', hready⟩ := hready index hazard hget
      cases hother.symm.trans hother'
      have hsource : after.view.sourceOf other hazard.id = cluster.view.sourceOf other hazard.id :=
        hchanges.ask_of_ne hne
      have hnext : after.view.candidate other = cluster.view.candidate other :=
        hchanges.ask_of_ne hne
      have hafter : after.view.Ready pair.source.number other hazard := by
        rw [SafetyView.Ready, SafetyView.CrossSafeWithin, hsource, hnext]
        exact hready
      exact hafter.settled

/-- The candidate of a chain is among some hazards. -/
def Awaited (cluster : Cluster) (hazards : Hazards) (chain : ChainId) (candidate : DerivedPair) :
    Prop :=
  cluster.view.candidate chain = .ok candidate ∧ ∃ index hazard,
    cluster.members.indexOfId chain = .ok index ∧ hazards.get? index = some hazard ∧
    hazard.id = candidate.derived.id

/-- The sealed and local-safe blocks of the open chains. -/
def knownBlocks (cluster : Cluster) : List BlockRef :=
  cluster.chains.values.flatMap fun store =>
    store.state.blocks.values.map SealedBlock.block ++
      store.state.localDerived.values.map DerivedPair.derived

/-- Whether a hash names one block. -/
def HashesUnique (cluster : Cluster) : Prop :=
  ∀ a ∈ cluster.knownBlocks, ∀ b ∈ cluster.knownBlocks, a.hash = b.hash → a = b

instance (cluster : Cluster) : Decidable cluster.HashesUnique :=
  inferInstanceAs (Decidable (∀ a ∈ cluster.knownBlocks, ∀ b ∈ cluster.knownBlocks, _ → _))

/-- A sealed block of a chain and a local-safe one with its hash are the same block. -/
theorem HashesUnique.same (h : cluster.HashesUnique)
    (hstore : cluster.chains.get? chain = some store) {number other : UInt64} {sealed : SealedBlock}
    {known : DerivedPair} (hsealed : store.state.blocks.get? number = some sealed)
    (hknown : store.state.localDerived.get? other = some known)
    (hhash : sealed.block.hash = known.derived.hash) : sealed.block = known.derived := by
  have hmem := Table.mem_values.mpr ⟨chain, hstore⟩
  refine h _ (List.mem_flatMap.mpr ⟨store, hmem, List.mem_append_left _ ?_⟩) _
    (List.mem_flatMap.mpr ⟨store, hmem, List.mem_append_right _ ?_⟩) hhash
  · exact List.mem_map_of_mem (Table.mem_values.mpr ⟨number, hsealed⟩)
  · exact List.mem_map_of_mem (Table.mem_values.mpr ⟨other, hknown⟩)

/-- A candidate that is among the hazards of a block is the hazard itself. -/
theorem Awaited.knows {candidate : DerivedPair} (hawaited : cluster.Awaited hazards other candidate)
    (h : cluster.Holds Ledger.Consistent) (hunique : cluster.HashesUnique)
    (hdistinct : cluster.members.hasDistinctIndices = true)
    (hverdict : (cluster.promoter limit).verdict cluster.view chain pair = .ok ())
    (hsurvey : ((cluster.promoter limit).survey cluster.view chain pair).result = .ok hazards) :
    hazards.Knows cluster.members.lookups ⟨other, candidate.derived.toSeal⟩ := by
  obtain ⟨hcandidate, index, hazard, hindex, hget, hsame⟩ := hawaited
  have hother := Membership.idOfIndex_of_indexOfId hdistinct hindex
  obtain ⟨haccepted, -⟩ := accepted_of_verdict hdistinct hverdict hsurvey
  obtain ⟨_, hother', hexamined⟩ := haccepted.others index hazard hget
  cases hother.symm.trans hother'
  obtain ⟨opened, hpasses⟩ := hexamined.passes
  have hseal := sealed_of_survey h hsurvey hget hother hpasses.opens
  obtain ⟨sealed, hsealed, rfl⟩ := view_blockAt.mp hpasses.opens
  obtain ⟨store, hstore, hblock⟩ := sealedAt_eq_some.mp hsealed
  obtain ⟨_, hstore', hstate⟩ := ask_eq_ok.mp hcandidate
  cases hstore.symm.trans hstore'
  obtain ⟨-, head, next, -, hnext, -, rfl⟩ := Ledger.candidate_eq_ok.mp hstate
  have hhash : sealed.block.hash = next.derived.hash :=
    congrArg BlockId.hash (hpasses.same.trans hsame)
  refine ⟨index, ?_, hother⟩
  rw [hget, ← hseal]
  exact congrArg (some ·.toSeal) (hunique.same hstore hblock hnext hhash)

/-- A candidate that another block awaited is not invalidated after the promotion of that one, if
the hazards of that one have no other block of its own chain. -/
theorem promote_joint (h : Reachable Operation.BlocksBounded cluster)
    (hunique : cluster.HashesUnique) (hdistinct : cluster.members.hasDistinctIndices = true)
    (hpromoted : (cluster.promote limit chain).1 = .ok (.promoted pair))
    (hsurvey : ((cluster.promoter limit).survey cluster.view chain pair).result = .ok hazards)
    (hown : cluster.OwnHazards hazards chain pair.derived.id) (hother : other ≠ chain)
    {candidate : DerivedPair} (hawaited : cluster.Awaited hazards other candidate)
    (later : Nat) (blocks : List Dependent) :
    ((cluster.promote limit chain).2.promote later other).1 ≠ .ok (.invalidated blocks) := by
  intro hinvalidated
  have hconsistent := h.consistent fun _ hbounded => hbounded
  obtain ⟨noted, notes, hcandidate, hverdict, hwrite⟩ :=
    (hconsistent.updates hpromoted).exists_promotion
  obtain ⟨store, hstore, hstate⟩ := ask_eq_ok.mp hcandidate
  have hchanges := onlyChanges_of_setCrossSafe notes hstore hwrite
  have hrelied := relied_of_promoted hconsistent hdistinct hchanges hstate hverdict hsurvey hown
  have hlater := (h.promote limit chain).consistent fun _ hbounded => hbounded
  obtain ⟨found, error, hfound, hrejected, hconflict⟩ :=
    (hlater.updates hinvalidated).exists_conflict
  have hsame : (cluster.promote limit chain).2.view.candidate other =
      cluster.view.candidate other := hchanges.ask_of_ne hother
  cases hfound.symm.trans (hsame.trans hawaited.1)
  have hset : ((cluster.promote limit chain).2.promoter later).set = cluster.members.lookups :=
    congrArg Membership.lookups hchanges.members
  have htame := hrelied.tame_verdict hlater.coherent hset
    (fun _ _ hindex => Membership.indexOfId_of_idOfIndex hindex)
    (hawaited.knows hconsistent hunique hdistinct hverdict hsurvey)
  exact absurd ((htame.isConflict_eq hrejected).symm.trans hconflict) Bool.false_ne_true

/-- Two blocks execute messages of each other, of logs further up. The one that is promoted first is
a hazard of itself. -/
theorem promote_joint_mutual :
    let members : Membership := ⟨.ofList [(900, ⟨0, 0, 0⟩), (901, ⟨1, 0, 0⟩)]⟩
    let block (number : UInt64) (hash parent : UInt8) : DerivedPair :=
      ⟨⟨.ofBytes [9], 0, .ofBytes [0], 0⟩, ⟨.ofBytes [hash], number, .ofBytes [parent], number⟩⟩
    let extend (chain : ChainId) (pair : DerivedPair) (hash : UInt8)
        (message : ExecutingMessage) : List Step :=
      [.write chain (.seal pair.derived
          [⟨0, .ofBytes [hash], none⟩, ⟨1, .ofBytes [50], some message⟩]),
        .write chain (.addDerived pair)]
    let steps : List Step := [.create 900, .create 901, .write 900 (.initialise (block 1 1 0)),
      .write 901 (.initialise (block 1 2 0))] ++
      extend 900 (block 2 11 1) 40 ⟨1, 2, 0, 2, .ofBytes [41]⟩ ++
      extend 901 (block 2 12 2) 41 ⟨0, 2, 0, 2, .ofBytes [40]⟩
    let cluster := (empty members false).run steps
    let hazards : Hazards := .ofList
      [(0, (block 2 11 1).derived.toSeal), (1, (block 2 12 2).derived.toSeal)]
    (cluster.promote 10 900).1 = .ok (.promoted (block 2 11 1)) ∧
      ((cluster.promoter 10).survey cluster.view 900 (block 2 11 1)).result = .ok hazards ∧
      ∀ blocks, ((cluster.promote 10 900).2.promote 10 901).1 ≠ .ok (.invalidated blocks) := by
  intro members block extend steps cluster hazards
  have hbounded : ∀ operation ∈ steps.filterMap Step.operation?, operation.BlocksBounded := by
    decide +kernel
  have hreachable : Reachable Operation.BlocksBounded cluster :=
    (Reachable.empty members false).run hbounded
  have hunique : cluster.HashesUnique := by decide +kernel
  have hdistinct : cluster.members.hasDistinctIndices = true := by decide +kernel
  have hpromoted : (cluster.promote 10 900).1 = .ok (.promoted (block 2 11 1)) := by decide +kernel
  have hsurvey : ((cluster.promoter 10).survey cluster.view 900 (block 2 11 1)).result =
      .ok hazards := by decide +kernel
  have hown : cluster.OwnHazards hazards 900 (block 2 11 1).derived.id := by
    intro index hazard hindex hget
    have hmember : cluster.members.indexOfId 900 = .ok 0 := by decide +kernel
    cases hmember.symm.trans hindex
    have hself : hazards.get? 0 = some (block 2 11 1).derived.toSeal := by decide +kernel
    cases hself.symm.trans hget
    rfl
  have hawaited : cluster.Awaited hazards 901 (block 2 12 2) :=
    ⟨by decide +kernel, 1, (block 2 12 2).derived.toSeal, by decide +kernel, by decide +kernel,
      rfl⟩
  exact ⟨hpromoted, hsurvey,
    promote_joint hreachable hunique hdistinct hpromoted hsurvey hown (by decide) hawaited 10⟩

end CrossSafety.Cluster
