import CrossSafety.Proofs.Cluster.Cascade

/-!
# What a successful update changes

A promotion and a wider scope change one open store, and in its indexes only what says where the
cross-safe head is. An invalidation may reach any chain, but it takes only blocks above the
cross-safe heads and leaves a chain alone if none of the blocks it reports are on it. Metrics are not
looked at here.
-/
namespace CrossSafety.Cluster

variable {cluster after noted : Cluster} {chain : ChainId} {limit : Nat}

/-- The open store of one chain is another one afterwards, and that is all. -/
structure OnlyChanges (cluster : Cluster) (chain : ChainId) (store next : ChainStore)
    (after : Cluster) : Prop where
  members : after.members = cluster.members
  files : after.files = cluster.files
  before : cluster.chains.get? chain = some store
  later : after.chains.get? chain = some next
  others : ∀ other, other ≠ chain → after.chains.get? other = cluster.chains.get? other

/-- The changes of an update of a chain that succeeds, by its outcome. -/
inductive Effect (cluster : Cluster) (limit : Nat) (chain : ChainId) (after : Cluster) :
    PromotionOutcome → Prop where
  /-- The head moves to its child. -/
  | promoted {pair head : DerivedPair} {store next : ChainStore}
      (changes : cluster.OnlyChanges chain store next after)
      (advances : store.state.Advances head pair)
      (moved : next.state =
        { store.state with
          crossDerived := store.state.crossDerived.insert pair.derived.number pair
          crossSafe := some pair })
      (logs : next.logs = store.logs) : Effect cluster limit chain after (.promoted pair)
  /-- The head stays, in the recorded source behind the scope of the candidate. -/
  | widened {candidate head : DerivedPair} {source : BlockRef} {error : CrossSafetyError}
      {store next : ChainStore} (changes : cluster.OnlyChanges chain store next after)
      (checked : cluster.view.candidate chain = .ok candidate)
      (verdict : (cluster.promoter limit).verdict cluster.view chain candidate = .error error)
      (scope : error.isOutOfScope = true) (advances : store.state.Advances head candidate)
      (recorded : store.state.sources.get? source.number = some source)
      (behind : Ledger.follows source candidate.source)
      (higher : candidate.source.number < source.number)
      (moved : next.state = { store.state with crossSafe := some ⟨source, head.derived⟩ })
      (logs : next.logs = store.logs) :
      Effect cluster limit chain after (.scopeWidened ⟨source, head.derived⟩)
  /-- Local-safe and sealed blocks are gone, among them the candidate, and only on the chains of
  blocks that are listed. -/
  | invalidated {candidate : DerivedPair} {blocks : List Dependent} (shrinks : cluster.Shrinks after)
      (checked : cluster.view.candidate chain = .ok candidate)
      (gone : after.EndsBelow chain candidate.derived.number)
      (others : ∀ other, (∀ block ∈ blocks, block.chain ≠ other) →
        after.chains.get? other = cluster.chains.get? other) :
      Effect cluster limit chain after (.invalidated blocks)

/-- A cross-safe head that is set on an open store changes that store. -/
theorem onlyChanges_of_setCrossSafe (hnoted : safetyStore.Noted cluster noted) {store : ChainStore}
    (hstore : cluster.chains.get? chain = some store) {pair : DerivedPair}
    (hwrite : safetyStore.setCrossSafe chain pair noted = (.ok (), after)) :
    cluster.OnlyChanges chain store (store.commit (.setCrossSafe pair)) after := by
  obtain ⟨metrics, rfl⟩ := noted_eq hnoted
  change Cluster.perform _ chain (.setCrossSafe pair) = _ at hwrite
  have hopen : ({ cluster with metrics } : Cluster).chains.get? chain = some store := hstore
  obtain ⟨later, hperform⟩ := perform_eq hopen (.setCrossSafe pair)
  rw [hperform, Prod.mk.injEq] at hwrite
  obtain ⟨hresult, rfl⟩ := hwrite
  rw [ChainStore.perform_setCrossSafe hresult]
  exact ⟨rfl, rfl, hstore, Table.get?_insert_self, fun _ hne => Table.get?_insert_of_ne hne⟩

theorem Reachable.linked (h : Reachable Operation.Bounded cluster) :
    cluster.Holds fun state => state.Consistent ∧ state.SourcesLinked :=
  h.invariant ((Ledger.invariant_consistent fun _ hbounded => hbounded.1).and
    (Ledger.invariant_sourcesLinked fun _ hbounded => hbounded.2)) fun _ hstate => hstate.1

/-- An update that fails takes local-safe and sealed blocks at most. -/
theorem shrinks_of_failed (h : cluster.Holds Ledger.Consistent) {error : CrossSafetyError}
    (hfailed : (cluster.promote limit chain).1 = .error error) :
    cluster.Shrinks (cluster.promote limit chain).2 := by
  rcases (h.updates hfailed).failed_cases with notes | ⟨noted, pair, cause, notes, write⟩ |
    ⟨noted, candidate, conflict, run, cause, notes, hcandidate, -, -, hrun, -, last⟩
  · exact shrinks_noted notes
  · exact (shrinks_noted notes).trans (shrinks_of_refused write)
  · exact (shrinks_noted notes).trans
      ((hrun.shrinks (ready_candidate h notes hcandidate)).trans (shrinks_noted last))

theorem effect_of_done (h : cluster.Holds fun state => state.Consistent ∧ state.SourcesLinked)
    {outcome : PromotionOutcome} (hdone : (cluster.promote limit chain).1 = .ok outcome) :
    cluster.Effect limit chain (cluster.promote limit chain).2 outcome := by
  have hconsistent : cluster.Holds Ledger.Consistent := h.imp fun _ hstate => hstate.1
  have hupdates := hconsistent.updates hdone
  cases outcome with
  | promoted pair =>
    obtain ⟨noted, notes, hcandidate, -, hwrite⟩ := hupdates.exists_promotion
    obtain ⟨store, hstore, hstate⟩ := ask_eq_ok.mp hcandidate
    have hheaded := (hconsistent.state hstore).headed
    obtain ⟨head, hadvances⟩ := hheaded.advances hstate
    exact .promoted (onlyChanges_of_setCrossSafe notes hstore hwrite) hadvances
      (hadvances.apply_setCrossSafe hheaded) rfl
  | scopeWidened pair =>
    obtain ⟨noted, candidate, error, head, source, notes, hcandidate, hverdict, hscope, hnext, hhead,
      rfl, hwrite⟩ := hupdates.exists_widening
    obtain ⟨store, hstore, hstate⟩ := ask_eq_ok.mp hcandidate
    obtain ⟨_, hstore', hcurrent⟩ := ask_eq_ok.mp hhead
    cases hstore.symm.trans hstore'
    obtain ⟨_, hstore', hbehind⟩ := ask_eq_ok.mp hnext
    cases hstore.symm.trans hstore'
    rw [Ledger.crossSafeHead_eq_ok] at hcurrent
    have hheaded := (hconsistent.state hstore).headed
    obtain ⟨_, hadvances⟩ := hheaded.advances hstate
    cases hcurrent.symm.trans hadvances.current
    obtain ⟨hrecorded, hfollows, hhigher⟩ := (h.state hstore).2.sourceAfter hbehind
    exact .widened (onlyChanges_of_setCrossSafe notes hstore hwrite) hcandidate hverdict hscope
      hadvances hrecorded hfollows hhigher (hheaded.apply_setCrossSafe hcurrent source) rfl
  | invalidated blocks =>
    obtain ⟨noted, candidate, run, notes, hcandidate, hrun, hends, rfl, hlast⟩ :=
      hupdates.exists_cascade
    have hready := ready_candidate hconsistent notes hcandidate
    have hgone := hrun.ends hready hends (fun _ _ hfloor => (nomatch hfloor)) ⟨chain, candidate⟩
      List.mem_cons_self
    refine .invalidated ?_ hcandidate ((shrinks_noted hlast).endsBelow hgone) fun other hothers => ?_
    · exact (shrinks_noted notes).trans ((hrun.shrinks hready).trans (shrinks_noted hlast))
    · have huntouched := hrun.untouched hready hends hothers
      obtain ⟨metrics, hfirst⟩ := noted_eq notes
      obtain ⟨later, hafter⟩ := noted_eq hlast
      rw [hafter]
      rw [hfirst] at huntouched
      exact huntouched

/-- What a successful update changes is what its outcome says, and nothing else. -/
theorem promote_effect (h : Reachable Operation.Bounded cluster) {outcome : PromotionOutcome}
    (hdone : (cluster.promote limit chain).1 = .ok outcome) :
    cluster.Effect limit chain (cluster.promote limit chain).2 outcome :=
  effect_of_done h.linked hdone

/-- A candidate depends on a block that became cross-safe in a later source. Its chain first moves to
that source, and then takes the candidate. -/
theorem promote_effect_later_source :
    let members : Membership := ⟨.ofList [(900, ⟨0, 0, 0⟩), (901, ⟨1, 0, 0⟩)]⟩
    let source (number : UInt64) (hash parent : UInt8) : BlockRef :=
      ⟨.ofBytes [hash], number, .ofBytes [parent], number⟩
    let block (number timestamp : UInt64) (hash parent : UInt8) : BlockRef :=
      ⟨.ofBytes [hash], number, .ofBytes [parent], timestamp⟩
    let steps : List Step := [.create 900, .create 901,
      .write 900 (.initialise ⟨source 0 8 0, block 1 1 1 0⟩),
      .write 901 (.initialise ⟨source 0 8 0, block 1 1 2 0⟩),
      .write 900 (.addSource (source 1 9 8)), .write 901 (.addSource (source 1 9 8)),
      .write 901 (.seal (block 2 2 12 2) [⟨0, .ofBytes [40], none⟩]),
      .write 901 (.addDerived ⟨source 1 9 8, block 2 2 12 2⟩), .promote 10 901,
      .write 900 (.seal (block 2 3 11 1) [⟨0, .ofBytes [41], some ⟨1, 2, 0, 2, .ofBytes [40]⟩⟩]),
      .write 900 (.addDerived ⟨source 0 8 0, block 2 3 11 1⟩)]
    let cluster := (empty members false).run steps
    let wider := (cluster.promote 10 900).2
    cluster.Effect 10 900 wider (.scopeWidened ⟨source 1 9 8, block 1 1 1 0⟩) ∧
      wider.Effect 10 900 (wider.promote 10 900).2 (.promoted ⟨source 1 9 8, block 2 3 11 1⟩) := by
  intro members source block steps cluster wider
  have hbounded : ∀ operation ∈ steps.filterMap Step.operation?, operation.Bounded := by
    decide +kernel
  have hreachable : Reachable Operation.Bounded cluster :=
    (Reachable.empty members false).run hbounded
  have hwidened : (cluster.promote 10 900).1 =
      .ok (.scopeWidened ⟨source 1 9 8, block 1 1 1 0⟩) := by decide +kernel
  have hpromoted : (wider.promote 10 900).1 =
      .ok (.promoted ⟨source 1 9 8, block 2 3 11 1⟩) := by decide +kernel
  exact ⟨promote_effect hreachable hwidened, promote_effect (hreachable.promote 10 900) hpromoted⟩

end CrossSafety.Cluster
