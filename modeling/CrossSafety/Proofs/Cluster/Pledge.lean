import CrossSafety.Proofs.Chain.Keeps
import CrossSafety.Proofs.Cluster.Acceptance
import CrossSafety.Proofs.Safety.Lasting

/-!
# What the cross-safe blocks of a cluster rely on

Each cross-safe block above an anchor comes with a pledge: its hazards at the time of its promotion.
The pledges of a cluster guard all places up to the cross-safe heads and those of the hazards. A
change that leaves the guarded places as they are upholds all pledges, and a hazard of a pledge that
is not cross-safe yet is the next block of its chain.
-/
namespace CrossSafety

/-- A block that became cross-safe, and the hazards that it had then. -/
structure Pledge where
  start : PendingBlock
  hazards : Hazards

def Pledge.Backs (pledge : Pledge) (chain : ChainId) (number : UInt64) (record : DerivedPair) :
    Prop :=
  pledge.start.chain = chain ∧ pledge.start.block.number = number ∧
    pledge.start.block.hash = record.derived.hash

namespace Cluster

variable {cluster after : Cluster} {known : BlockRef → Prop} {kept : BlockPlace → Prop}
  {pledge : Pledge} {pledges : List Pledge} {chain : ChainId}

/-! ## Changes of the stores -/

/-- Every open store keeps what it has at some places. -/
structure Keeps (cluster after : Cluster) (kept : BlockPlace → Prop) : Prop where
  members : after.members = cluster.members
  stores : ∀ chain store, cluster.chains.get? chain = some store →
    ∃ next, after.chains.get? chain = some next ∧
      store.Keeps next fun number => kept ⟨chain, number⟩

theorem Keeps.view (h : cluster.Keeps after kept) :
    cluster.view.Keeps after.view fun chain number => kept ⟨chain, number⟩ where
  blockAt chain number opened hkept hopened := by
    obtain ⟨sealed, hsealed, rfl⟩ := view_blockAt.mp hopened
    obtain ⟨store, hstore, hget⟩ := sealedAt_eq_some.mp hsealed
    obtain ⟨next, hnext, hkeeps⟩ := h.stores chain store hstore
    have hget := hkeeps.ledger.blocks number sealed hkept hget
    exact view_blockAt.mpr ⟨sealed, sealedAt_eq_some.mpr ⟨next, hnext, hget⟩, rfl⟩
  contains chain query block hkept hfound := by
    obtain ⟨store, hstore, hfound⟩ := view_contains.mp hfound
    obtain ⟨next, hnext, hkeeps⟩ := h.stores chain store hstore
    exact view_contains.mpr ⟨next, hnext, hkeeps.contains query block hkept hfound⟩
  crossSafe chain block hsafe := by
    obtain ⟨source, hsource⟩ := hsafe
    obtain ⟨store, hstore, hsource⟩ := view_sourceOf.mp hsource
    obtain ⟨record, hget, hrecord⟩ := Ledger.sourceOf_eq_ok.mp hsource
    obtain ⟨next, hnext, hkeeps⟩ := h.stores chain store hstore
    have hget := hkeeps.ledger.cross _ record hget
    exact ⟨source, view_sourceOf.mpr ⟨next, hnext,
      Ledger.sourceOf_eq_ok.mpr ⟨record, hget, hrecord⟩⟩⟩

def Steady (cluster : Cluster) (known : BlockRef → Prop) : Prop :=
  ∀ chain store, cluster.chains.get? chain = some store → store.Steady known

theorem Steady.keyed (h : cluster.Steady known) {place : BlockPlace} {sealed : SealedBlock}
    (hsealed : cluster.sealedAt place = some sealed) :
    sealed.block.number = place.number ∧ place.number < maxNumber := by
  obtain ⟨store, hstore, hget⟩ := sealedAt_eq_some.mp hsealed
  obtain ⟨logs, haligned⟩ := (h place.chain store hstore).aligned
  exact haligned.keyed place.number sealed hget

theorem Steady.known_sealed (h : cluster.Steady known) {place : BlockPlace} {sealed : SealedBlock}
    (hsealed : cluster.sealedAt place = some sealed) : known sealed.block := by
  obtain ⟨store, hstore, hget⟩ := sealedAt_eq_some.mp hsealed
  exact (h place.chain store hstore).knows.sealed place.number sealed hget

theorem sealedAt_of_contains {query : LogQuery} {block : BlockSeal}
    (h : cluster.view.contains chain query = .ok block) :
    ∃ sealed, cluster.sealedAt ⟨chain, query.blockNumber⟩ = some sealed ∧
      sealed.block.toSeal = block := by
  obtain ⟨store, hstore, h⟩ := view_contains.mp h
  obtain ⟨sealed, hsealed, -, -, hblock⟩ := ChainStore.contains_eq_ok.mp h
  have hget := (Ledger.blockOfQuery_eq_ok.mp hsealed).2.1
  exact ⟨sealed, sealedAt_eq_some.mpr ⟨store, hstore, hget⟩, hblock⟩

/-- If sealed blocks have their own numbers, logs are found in the blocks that queries name. -/
theorem coherent_of_keyed (hkeyed : ∀ place sealed, cluster.sealedAt place = some sealed →
    sealed.block.number = place.number) : cluster.view.Coherent where
  numbered chain query block hfound := by
    obtain ⟨sealed, hsealed, rfl⟩ := sealedAt_of_contains hfound
    exact hkeyed _ sealed hsealed
  exact chain query block opened hfound hopened := by
    obtain ⟨sealed, hsealed, rfl⟩ := sealedAt_of_contains hfound
    obtain ⟨other, hother, rfl⟩ := view_blockAt.mp hopened
    have hnumber : sealed.block.toSeal.number = query.blockNumber := hkeyed _ sealed hsealed
    rw [hnumber, hsealed] at hother
    cases hother
    rfl

theorem Steady.coherent (h : cluster.Steady known) : cluster.view.Coherent :=
  coherent_of_keyed fun _ _ hsealed => (h.keyed hsealed).1

/-! ## Pledges -/

/-- A pledge that holds: its block would still be accepted, and each of its hazards is sealed as it
was found, and cross-safe or next on its chain. -/
structure Upheld (cluster : Cluster) (pledge : Pledge) : Prop where
  accepted : Accepted cluster.view cluster.members.lookups cluster.view.CrossSafe pledge.hazards
    pledge.start
  exact : ∀ index hazard chain opened, pledge.hazards.get? index = some hazard →
    cluster.members.idOfIndex index = .ok chain →
    cluster.view.blockAt chain hazard.number = .ok opened → opened.block.toSeal = hazard
  settled : ∀ index hazard chain, pledge.hazards.get? index = some hazard →
    cluster.members.idOfIndex index = .ok chain →
    ∃ store, cluster.chains.get? chain = some store ∧ store.state.Settled hazard.id

/-- A place up to the cross-safe head of its chain, or of a hazard of a pledge. -/
def Guards (cluster : Cluster) (pledges : List Pledge) (place : BlockPlace) : Prop :=
  (∃ store head, cluster.chains.get? place.chain = some store ∧
    store.state.crossSafe = some head ∧ place.number ≤ head.derived.number) ∨
  ∃ pledge ∈ pledges, cluster.IsHazard pledge.hazards place

theorem Steady.guards_crossSafe (h : cluster.Steady known) {block : BlockSeal}
    (hsafe : cluster.view.CrossSafe chain block) :
    cluster.Guards pledges ⟨chain, block.number⟩ := by
  obtain ⟨source, hsource⟩ := hsafe
  obtain ⟨store, hstore, hsource⟩ := view_sourceOf.mp hsource
  obtain ⟨record, hget, -⟩ := Ledger.sourceOf_eq_ok.mp hsource
  have hheaded := (h chain store hstore).headed
  obtain ⟨head, hhead⟩ := hheaded.exists_head hget
  exact .inl ⟨store, head, hstore, hhead, hheaded.top head _ record hhead hget⟩

theorem Steady.covers (h : cluster.Steady known) (hmem : pledge ∈ pledges) :
    cluster.view.Covers cluster.members.lookups pledge.hazards fun chain number =>
      cluster.Guards pledges ⟨chain, number⟩ where
  crossSafe _ _ hsafe := h.guards_crossSafe hsafe
  hazards index hazard _ hget hchain := .inr ⟨pledge, hmem, index, hazard, hget, hchain, rfl⟩

/-- A pledge holds as long as its block, its hazards and all cross-safe blocks stay. -/
theorem Upheld.keeps (h : cluster.Upheld pledge) (hsteady : cluster.Steady known)
    (hkeeps : cluster.Keeps after kept)
    (hcovers : cluster.view.Covers cluster.members.lookups pledge.hazards fun chain number =>
      kept ⟨chain, number⟩)
    (hstart : kept ⟨pledge.start.chain, pledge.start.block.number⟩) : after.Upheld pledge := by
  refine ⟨?_, fun index hazard chain opened hget hchain hopened => ?_,
    fun index hazard chain hget hchain => ?_⟩
  · rw [hkeeps.members]
    exact h.accepted.keeps hsteady.coherent hcovers hkeeps.view hstart
  · rw [hkeeps.members] at hchain
    obtain ⟨chain', hchain', hexamined⟩ := h.accepted.others index hazard hget
    have heq := hchain.symm.trans hchain'
    cases heq
    obtain ⟨before, hpasses⟩ := hexamined.passes
    have hbefore := hkeeps.view.blockAt chain hazard.number before
      (hcovers.hazards index hazard chain hget hchain) hpasses.opens
    rw [hopened] at hbefore
    cases hbefore
    exact h.exact index hazard chain opened hget hchain hpasses.opens
  · rw [hkeeps.members] at hchain
    obtain ⟨store, hstore, hsettled⟩ := h.settled index hazard chain hget hchain
    obtain ⟨next, hnext, hstores⟩ := hkeeps.stores chain store hstore
    exact ⟨next, hnext, hstores.ledger.settled hazard.id
      (hcovers.hazards index hazard chain hget hchain) hsettled⟩

theorem view_crossSafe {store : ChainStore} (hstore : cluster.chains.get? chain = some store)
    {block : BlockSeal} (h : store.state.IsCrossSafe block.id) :
    cluster.view.CrossSafe chain block := by
  obtain ⟨record, hget, hhash⟩ := h
  exact ⟨record.source.toSeal, view_sourceOf.mpr ⟨store, hstore,
    Ledger.sourceOf_eq_ok.mpr ⟨record, hget, hhash, rfl⟩⟩⟩

theorem view_awaits {store : ChainStore} (hstore : cluster.chains.get? chain = some store)
    (hheaded : store.state.Headed) {block : BlockSeal} (h : store.state.IsNext block.id) :
    cluster.view.Awaits chain block := by
  have hcandidate : cluster.view.candidate chain = store.state.candidate := by
    change cluster.ask chain _ = _
    rw [ask, Cluster.store, hstore]
    rfl
  have hsource : cluster.view.sourceOf chain block.id = store.state.sourceOf block.id := by
    change cluster.ask chain _ = _
    rw [ask, Cluster.store, hstore]
    rfl
  refine ⟨hsource.trans (h.sourceOf hheaded), fun pair hpair _ => ?_, ?_⟩
  · exact h.candidate.1 pair (hcandidate.symm.trans hpair)
  · rw [hcandidate]
    exact h.candidate.2

/-- The hazards of a pledge that holds are relied on. -/
theorem Upheld.relied (h : cluster.Upheld pledge) (hsteady : cluster.Steady known) :
    Relied cluster.view cluster.members.lookups pledge.hazards pledge.start := by
  refine ⟨h.accepted, h.exact, fun index hazard chain hget hchain => ?_⟩
  obtain ⟨store, hstore, hsettled⟩ := h.settled index hazard chain hget hchain
  exact hsettled.imp (view_crossSafe hstore)
    (view_awaits hstore (hsteady chain store hstore).headed)

/-- A guarded place lies up to the cross-safe head of its chain, or is the one next to it and of a
hazard. -/
theorem guards_cases (hsteady : cluster.Steady known)
    (hupheld : ∀ pledge ∈ pledges, cluster.Upheld pledge) {place : BlockPlace}
    (h : cluster.Guards pledges place) :
    ∃ store, cluster.chains.get? place.chain = some store ∧
      ((∃ head, store.state.crossSafe = some head ∧ place.number ≤ head.derived.number) ∨
      ∃ pledge ∈ pledges, ∃ index hazard, pledge.hazards.get? index = some hazard ∧
        cluster.members.idOfIndex index = .ok place.chain ∧ hazard.number = place.number ∧
        store.state.IsNext hazard.id) := by
  rcases h with ⟨store, head, hstore, hhead, hle⟩ |
    ⟨pledge, hmem, index, hazard, hget, hchain, hnumber⟩
  · exact ⟨store, hstore, .inl ⟨head, hhead, hle⟩⟩
  · obtain ⟨store, hstore, hsettled⟩ := (hupheld pledge hmem).settled index hazard _ hget hchain
    refine ⟨store, hstore, ?_⟩
    rcases hsettled with ⟨record, hrecord, -⟩ | hnext
    · have hheaded := (hsteady place.chain store hstore).headed
      obtain ⟨head, hhead⟩ := hheaded.exists_head hrecord
      exact .inl ⟨head, hhead, hnumber ▸ hheaded.top head _ record hhead hrecord⟩
    · exact .inr ⟨pledge, hmem, index, hazard, hget, hchain, hnumber, hnext⟩

end Cluster

end CrossSafety
