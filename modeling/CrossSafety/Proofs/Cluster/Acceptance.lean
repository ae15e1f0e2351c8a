import CrossSafety.Proofs.Arrangement
import CrossSafety.Proofs.Cluster.View
import CrossSafety.Proofs.LogStore.Represents

/-!
# What it takes to become cross-safe

`Promotable` is the meaning of cross-safety at the moment of a promotion, told by the sealed blocks
alone: the block, and every block that can be reached from it by messages of its timestamp, only
executes messages that are permitted and stored, older ones come from blocks that are cross-safe in
scope, and the logs of all these blocks fit into one order. A candidate that is accepted is
promotable.
-/
namespace CrossSafety

/-- A log, by the place of its block and its index. -/
structure LogPlace where
  block : BlockPlace
  index : UInt32
deriving DecidableEq

namespace Cluster

/-- A block executes a message of this time that points to another block. -/
def Points (cluster : Cluster) (timestamp : UInt64) (executor initiator : BlockPlace) : Prop :=
  ∃ sealed logIndex message, cluster.sealedAt executor = some sealed ∧
    sealed.messages.get? logIndex = some message ∧ message.timestamp = timestamp ∧
    cluster.members.idOfIndex message.chain = .ok initiator.chain ∧
    message.blockNumber = initiator.number

/-- A block can be reached from another one by messages of this time. -/
def Reaches (cluster : Cluster) (timestamp : UInt64) : BlockPlace → BlockPlace → Prop :=
  Relation.TransGen (cluster.Points timestamp)

def HasLog (cluster : Cluster) (log : LogPlace) : Prop :=
  ∃ sealed, cluster.sealedAt log.block = some sealed ∧ log.index < sealed.logCount

/-- What a message needs to be executed in a block that is promoted with a pair: `store` is the
store of the chain that initiated it and `block` the block of the initiating log. -/
structure Supports (cluster : Cluster) (pair : DerivedPair) (executor : ChainId)
    (message : ExecutingMessage) (initiator : ChainId) (store : ChainStore) (block : SealedBlock) :
    Prop where
  executes : cluster.members.mayExecuteAt executor pair.derived.timestamp = .ok true
  member : cluster.members.idOfIndex message.chain = .ok initiator
  initiates : cluster.members.mayInitiateAt initiator message.timestamp = .ok true
  notNewer : message.timestamp ≤ pair.derived.timestamp
  isOpen : cluster.chains.get? initiator = some store
  sealed : store.state.blocks.get? message.blockNumber = some block
  time : block.block.timestamp = message.timestamp
  inside : message.logIndex < block.logCount
  stored : store.logs.contains ⟨message.blockNumber, message.logIndex⟩ message.hash = .ok true
  /-- The log is on the list of positions and first 20 hash bytes that the log store stands for. -/
  listed : ∀ logs, store.logs.Represents logs →
    ⟨⟨message.blockNumber, message.logIndex⟩, message.hash.short⟩ ∈ logs
  older : message.timestamp < pair.derived.timestamp →
    ∃ record, store.state.crossDerived.get? block.block.number = some record ∧
      record.derived.hash = block.block.hash ∧ record.source.number ≤ pair.source.number

/-- All logs of a block and of the blocks it reaches, in an order that keeps each block's own order
and has every initiating log of this time before the executing one. -/
structure Orders (cluster : Cluster) (timestamp : UInt64) (start : BlockPlace)
    (order : List LogPlace) : Prop where
  nodup : order.Nodup
  mem : ∀ log, log ∈ order ↔
    (log.block = start ∨ cluster.Reaches timestamp start log.block) ∧ cluster.HasLog log
  inBlock : ∀ a ∈ order, ∀ b ∈ order, a.block = b.block → a.index < b.index →
    [a, b].Sublist order
  messages : ∀ executing ∈ order, ∀ sealed message initiator,
    cluster.sealedAt executing.block = some sealed →
    sealed.messages.get? executing.index = some message → message.timestamp = timestamp →
    cluster.members.idOfIndex message.chain = .ok initiator →
    [⟨⟨initiator, message.blockNumber⟩, message.logIndex⟩, executing].Sublist order

/-- What has to hold of a pair's block, and of all blocks it depends on at its own timestamp, when
the pair becomes the cross-safe head. -/
structure Promotable (cluster : Cluster) (chain : ChainId) (pair : DerivedPair) : Prop where
  sealed : ∃ sealed, cluster.sealedAt ⟨chain, pair.derived.number⟩ = some sealed ∧
    sealed.block.id = pair.derived.id
  reached : ∀ place,
    cluster.Reaches pair.derived.timestamp ⟨chain, pair.derived.number⟩ place →
    ∃ sealed, cluster.sealedAt place = some sealed ∧ sealed.block.number = place.number ∧
      sealed.block.timestamp = pair.derived.timestamp ∧
      ∀ logIndex message, sealed.messages.get? logIndex = some message →
        logIndex < sealed.logCount
  unique : ∀ a b, cluster.Reaches pair.derived.timestamp ⟨chain, pair.derived.number⟩ a →
    cluster.Reaches pair.derived.timestamp ⟨chain, pair.derived.number⟩ b →
    a.chain = b.chain → a = b
  supported : ∀ place,
    place = ⟨chain, pair.derived.number⟩ ∨
      cluster.Reaches pair.derived.timestamp ⟨chain, pair.derived.number⟩ place →
    ∀ sealed logIndex message, cluster.sealedAt place = some sealed →
      sealed.messages.get? logIndex = some message →
      ∃ initiator store block, cluster.Supports pair place.chain message initiator store block
  ordered : ∃ order, cluster.Orders pair.derived.timestamp ⟨chain, pair.derived.number⟩ order

/-! ## The blocks that were examined -/

section Accepted

variable {cluster : Cluster} {chain : ChainId} {pair : DerivedPair} {hazards : Hazards}

theorem dated : cluster.view.Dated := fun _ _ _ => view_contains_timestamp

/-- The checks of a candidate came out well. -/
abbrev Approves (cluster : Cluster) (hazards : Hazards) (chain : ChainId) (pair : DerivedPair) :
    Prop :=
  Accepted cluster.view cluster.members.lookups
    (cluster.view.CrossSafeWithin pair.source.number) hazards ⟨chain, pair.derived.toSeal⟩

/-- A block went through the checks of a candidate. -/
abbrev Passed (cluster : Cluster) (hazards : Hazards) (pair : DerivedPair)
    (executor : PendingBlock) : Prop :=
  Examined cluster.view cluster.members.lookups
    (cluster.view.CrossSafeWithin pair.source.number) pair.derived.timestamp hazards executor

/-- A place is that of a hazard. -/
def IsHazard (cluster : Cluster) (hazards : Hazards) (place : BlockPlace) : Prop :=
  ∃ index hazard, hazards.get? index = some hazard ∧
    cluster.members.idOfIndex index = .ok place.chain ∧ hazard.number = place.number

theorem Passed.sealed {executor : PendingBlock} (h : cluster.Passed hazards pair executor) :
    ∃ sealed, cluster.sealedAt ⟨executor.chain, executor.block.number⟩ = some sealed ∧
      sealed.block.id = executor.block.id := by
  obtain ⟨opened, hpasses⟩ := h.passes
  obtain ⟨sealed, hsealed, rfl⟩ := view_blockAt.mp hpasses.opens
  exact ⟨sealed, hsealed, hpasses.same⟩

theorem Passed.points {executor : PendingBlock} (h : cluster.Passed hazards pair executor)
    {other : BlockPlace}
    (hpoints : cluster.Points pair.derived.timestamp ⟨executor.chain, executor.block.number⟩
      other) : cluster.IsHazard hazards other := by
  obtain ⟨sealed, logIndex, message, hsealed, hmessage, htime, hchain, hnumber⟩ := hpoints
  obtain ⟨hazard, hget, hhazard⟩ := h.joint sealed.opened
    (view_blockAt.mpr ⟨sealed, hsealed, rfl⟩) logIndex message hmessage htime
  exact ⟨message.chain, hazard, hget, hchain, hhazard.trans hnumber⟩

/-- A message of a block that went through the checks has all it needs. -/
theorem Passed.supports {executor : PendingBlock} (h : cluster.Passed hazards pair executor)
    {sealed : SealedBlock}
    (hsealed : cluster.sealedAt ⟨executor.chain, executor.block.number⟩ = some sealed)
    {logIndex : UInt32} {message : ExecutingMessage}
    (hmessage : sealed.messages.get? logIndex = some message) :
    ∃ initiator store block,
      cluster.Supports pair executor.chain message initiator store block := by
  obtain ⟨opened, hpasses⟩ := h.passes
  obtain ⟨found, hfound, rfl⟩ := view_blockAt.mp hpasses.opens
  rw [hsealed] at hfound
  cases hfound
  obtain ⟨ownIndex, initiator, holder, hmessages, -⟩ := hpasses.messages logIndex message hmessage
  obtain ⟨store, hstore, hcontains⟩ := view_contains.mp hmessages.stored
  obtain ⟨block, hquery, hinside, hstored, rfl⟩ := ChainStore.contains_eq_ok.mp hcontains
  obtain ⟨-, hblock, htime⟩ := Ledger.blockOfQuery_eq_ok.mp hquery
  refine ⟨initiator, store, block, ?_⟩
  exact {
    executes := h.time ▸ hmessages.executes
    member := hmessages.member
    initiates := hmessages.initiates
    notNewer := h.time ▸ hmessages.notNewer
    isOpen := hstore
    sealed := hblock
    time := htime
    inside := hinside
    stored := hstored
    listed := fun logs hlogs => by
      have heq := hstored.symm.trans (LogStore.Represents.contains_eq hlogs _ _)
      exact of_decide_eq_true (Except.ok.inj heq).symm
    older := fun hlt => by
      obtain ⟨source, hsource, hle⟩ := hmessages.older (h.time.symm ▸ hlt)
      obtain ⟨_, hopen, hsource⟩ := view_sourceOf.mp hsource
      rw [hstore] at hopen
      cases hopen
      obtain ⟨record, hrecord, hhash, rfl⟩ := Ledger.sourceOf_eq_ok.mp hsource
      exact ⟨record, hrecord, hhash, hle⟩ }

theorem Approves.isHazard (h : cluster.Approves hazards chain pair) {place : BlockPlace}
    (hreaches : cluster.Reaches pair.derived.timestamp ⟨chain, pair.derived.number⟩ place) :
    cluster.IsHazard hazards place := by
  induction hreaches with
  | single hpoints => exact Passed.points h.first hpoints
  | tail _ hpoints ih =>
    obtain ⟨index, hazard, hget, hchain, hnumber⟩ := ih
    obtain ⟨other, hother, hexamined⟩ := h.others index hazard hget
    change cluster.members.idOfIndex index = _ at hother
    rw [hchain] at hother
    cases hother
    refine Passed.points hexamined ?_
    dsimp only
    rw [hnumber]
    exact hpoints

/-- The candidate and every block it reaches went through the checks. -/
theorem Approves.passed (h : cluster.Approves hazards chain pair) {place : BlockPlace}
    (hplace : place = ⟨chain, pair.derived.number⟩ ∨ cluster.IsHazard hazards place) :
    ∃ executor : PendingBlock, place = ⟨executor.chain, executor.block.number⟩ ∧
      cluster.Passed hazards pair executor := by
  rcases hplace with rfl | ⟨index, hazard, hget, hchain, hnumber⟩
  · exact ⟨_, rfl, h.first⟩
  · obtain ⟨other, hother, hexamined⟩ := h.others index hazard hget
    change cluster.members.idOfIndex index = _ at hother
    rw [hchain] at hother
    cases hother
    exact ⟨_, by rw [hnumber], hexamined⟩

theorem Approves.time_eq (h : cluster.Approves hazards chain pair) {place : BlockPlace}
    (hreaches : cluster.Reaches pair.derived.timestamp ⟨chain, pair.derived.number⟩ place)
    {sealed : SealedBlock} (hsealed : cluster.sealedAt place = some sealed) :
    sealed.block.timestamp = pair.derived.timestamp := by
  have hlast : ∃ before, (before = ⟨chain, pair.derived.number⟩ ∨
      cluster.IsHazard hazards before) ∧ cluster.Points pair.derived.timestamp before place := by
    cases hreaches with
    | single hpoints => exact ⟨_, .inl rfl, hpoints⟩
    | tail hreaches hpoints => exact ⟨_, .inr (h.isHazard hreaches), hpoints⟩
  obtain ⟨before, hbefore, found, logIndex, message, hfound, hmessage, htime, hchain, hnumber⟩ :=
    hlast
  obtain ⟨executor, rfl, hexecutor⟩ := h.passed hbefore
  obtain ⟨initiator, store, block, hsupports⟩ := hexecutor.supports hfound hmessage
  have heq := hchain.symm.trans hsupports.member
  cases heq
  have hblock := hsupports.sealed
  rw [hnumber] at hblock
  rw [sealedAt_eq_some.mpr ⟨store, hsupports.isOpen, hblock⟩] at hsealed
  cases hsealed
  exact hsupports.time.trans htime

/-! ## The order -/

theorem exists_logs (cluster : Cluster) (places : List BlockPlace) :
    ∃ logs : List LogPlace, ∀ log, log ∈ logs ↔ log.block ∈ places ∧ cluster.HasLog log := by
  refine ⟨places.flatMap fun place => ((cluster.sealedAt place).map fun sealed =>
    (List.range sealed.logCount.toNat).map fun index => ⟨place, .ofNat index⟩).getD [], ?_⟩
  rintro ⟨block, index⟩
  simp only [List.mem_flatMap, HasLog]
  constructor
  · rintro ⟨place, hplace, hmem⟩
    cases hsealed : cluster.sealedAt place with
    | none =>
      rw [hsealed] at hmem
      exact absurd hmem List.not_mem_nil
    | some sealed =>
      rw [hsealed, Option.map_some, Option.getD_some, List.mem_map] at hmem
      obtain ⟨i, hi, heq⟩ := hmem
      cases heq
      have hlt := List.mem_range.mp hi
      refine ⟨hplace, sealed, hsealed, UInt32.lt_iff_toNat_lt.mpr ?_⟩
      rw [UInt32.toNat_ofNat', Nat.mod_eq_of_lt (Nat.lt_trans hlt sealed.logCount.toNat_lt)]
      exact hlt
  · rintro ⟨hplace, sealed, hsealed, hlt⟩
    refine ⟨block, hplace, ?_⟩
    rw [hsealed, Option.map_some, Option.getD_some, List.mem_map]
    exact ⟨index.toNat, List.mem_range.mpr (UInt32.lt_iff_toNat_lt.mp hlt),
      by rw [UInt32.ofNat_toNat]⟩

/-- The rank of a log. The logs of a block that is no hazard come last. -/
def logRank (cluster : Cluster) (hazards : Hazards) (rank : MemberIndex → Nat → Nat)
    (bound : Nat) (log : LogPlace) : Nat :=
  match cluster.members.indexOfId log.block.chain with
  | .ok index =>
    if (hazards.get? index).any fun hazard => hazard.number = log.block.number then
      rank index log.index.toNat
    else bound + 1
  | .error _ => bound + 1

section Ranks

variable {rank : MemberIndex → Nat → Nat} {bound : Nat}

theorem logRank_hazard {log : LogPlace} {index : MemberIndex} {hazard : BlockSeal}
    (hget : hazards.get? index = some hazard)
    (hchain : cluster.members.idOfIndex index = .ok log.block.chain)
    (hnumber : hazard.number = log.block.number) :
    cluster.logRank hazards rank bound log = rank index log.index.toNat := by
  rw [logRank, Membership.indexOfId_of_idOfIndex hchain]
  dsimp only
  rw [hget, Option.any_some, if_pos (decide_eq_true hnumber)]

theorem logRank_cases (hdistinct : cluster.members.hasDistinctIndices = true) (log : LogPlace) :
    cluster.logRank hazards rank bound log = bound + 1 ∨ ∃ index hazard,
      hazards.get? index = some hazard ∧
      cluster.members.idOfIndex index = .ok log.block.chain ∧
      hazard.number = log.block.number ∧
      cluster.logRank hazards rank bound log = rank index log.index.toNat := by
  cases hindex : cluster.members.indexOfId log.block.chain with
  | error error => exact .inl (by rw [logRank, hindex])
  | ok index =>
    by_cases hany : (hazards.get? index).any fun hazard => hazard.number = log.block.number
    · obtain ⟨hazard, hget, hnumber⟩ := (Option.any_eq_true _ _).mp hany
      have hchain := Membership.idOfIndex_of_indexOfId hdistinct hindex
      have hnumber : hazard.number = log.block.number := of_decide_eq_true hnumber
      exact .inr ⟨index, hazard, hget, hchain, hnumber, logRank_hazard hget hchain hnumber⟩
    · exact .inl (by rw [logRank, hindex]; exact if_neg hany)

theorem logRank_mono (hmono : ∀ index a b, a ≤ b → rank index a ≤ rank index b)
    {a b : LogPlace} (hblock : a.block = b.block) (hle : a.index ≤ b.index) :
    cluster.logRank hazards rank bound a ≤ cluster.logRank hazards rank bound b := by
  rw [logRank, logRank, hblock]
  split
  · split
    · exact hmono _ _ _ (UInt32.le_iff_toNat_le.mp hle)
    · exact Nat.le_refl _
  · exact Nat.le_refl _

/-- The log that initiates a message of a block that went through the checks ranks below the log
that executes it. -/
theorem Passed.logRank_lt (hdistinct : cluster.members.hasDistinctIndices = true)
    {blocks : Table MemberIndex BlockContents}
    (hordered : Hazards.Ordered cluster.view cluster.members.lookups pair.derived.timestamp hazards
      blocks rank) (hbound : ∀ index log, rank index log ≤ bound) {executing : LogPlace}
    {sealed : SealedBlock} {message : ExecutingMessage} {initiator : ChainId}
    {executor : PendingBlock} (h : cluster.Passed hazards pair executor)
    (hplace : executing.block = ⟨executor.chain, executor.block.number⟩)
    (hsealed : cluster.sealedAt executing.block = some sealed)
    (hmessage : sealed.messages.get? executing.index = some message)
    (htime : message.timestamp = pair.derived.timestamp)
    (hinitiator : cluster.members.idOfIndex message.chain = .ok initiator) :
    cluster.logRank hazards rank bound ⟨⟨initiator, message.blockNumber⟩, message.logIndex⟩ <
      cluster.logRank hazards rank bound executing := by
  have hopened : cluster.view.blockAt executing.block.chain executing.block.number =
      .ok sealed.opened := view_blockAt.mpr ⟨sealed, hsealed, rfl⟩
  obtain ⟨hazard, hget, hnumber⟩ := h.joint sealed.opened (by rw [hplace] at hopened; exact hopened)
    executing.index message hmessage htime
  rw [logRank_hazard hget hinitiator hnumber]
  rcases logRank_cases hdistinct executing with hlast | ⟨index, own, hown, hchain, hsame, hrank⟩
  · rw [hlast]
    exact Nat.lt_succ_of_le (hbound _ _)
  · rw [hrank]
    obtain ⟨contents, hcontents⟩ := hordered.opened.all index own hown
    obtain ⟨initiating, hinitiating⟩ := hordered.opened.all message.chain hazard hget
    obtain ⟨_, hhazard, hopens⟩ := hordered.opened.opens _ _ hinitiating
    rw [hget] at hhazard
    cases hhazard
    obtain ⟨_, hhazard, ⟨chain', hchain', hblock⟩, -, -⟩ := hordered.opened.opens _ _ hcontents
    rw [hown] at hhazard
    cases hhazard
    -- the executing block is the hazard of its chain
    change cluster.members.idOfIndex index = _ at hchain'
    rw [hchain] at hchain'
    cases hchain'
    change cluster.view.blockAt executing.block.chain own.number = _ at hblock
    rw [hsame, hopened] at hblock
    cases hblock
    refine hordered.inOrder.before index _ executing.index message initiating hcontents hmessage
      htime hinitiating ?_
    exact hnumber.symm.trans (congrArg BlockId.number hopens.same).symm

end Ranks

/-- The places of a candidate and of its hazards can be listed. -/
theorem Approves.exists_places (h : cluster.Approves hazards chain pair) :
    ∃ places : List BlockPlace, ∀ place, place = ⟨chain, pair.derived.number⟩ ∨
      cluster.Reaches pair.derived.timestamp ⟨chain, pair.derived.number⟩ place →
      place ∈ places := by
  refine ⟨⟨chain, pair.derived.number⟩ :: hazards.toList.filterMap fun entry =>
    (cluster.members.idOfIndex entry.1).toOption.map fun chain => ⟨chain, entry.2.number⟩,
    fun place hplace => ?_⟩
  rcases hplace with rfl | hreaches
  · exact List.mem_cons_self
  · obtain ⟨index, hazard, hget, hchain, hnumber⟩ := h.isHazard hreaches
    refine List.mem_cons_of_mem _ (List.mem_filterMap.mpr ⟨(index, hazard),
      Table.mem_toList.mpr hget, ?_⟩)
    simp only [hchain, hnumber]
    rfl

theorem Approves.exists_order (h : cluster.Approves hazards chain pair)
    (hdistinct : cluster.members.hasDistinctIndices = true) :
    ∃ order, cluster.Orders pair.derived.timestamp ⟨chain, pair.derived.number⟩ order := by
  classical
  obtain ⟨blocks, rank, bound, hordered, hbound⟩ := h.ordered
  let start : BlockPlace := ⟨chain, pair.derived.number⟩
  let belongs (place : BlockPlace) : Prop :=
    place = start ∨ cluster.Reaches pair.derived.timestamp start place
  have hpassed {place : BlockPlace} (hplace : belongs place) :
      ∃ executor : PendingBlock, place = ⟨executor.chain, executor.block.number⟩ ∧
        cluster.Passed hazards pair executor :=
    h.passed (hplace.imp_right h.isHazard)
  obtain ⟨places, hplaces⟩ := h.exists_places
  obtain ⟨logs, hlogs⟩ := exists_logs cluster places
  let key (log : LogPlace) : Nat :=
    cluster.logRank hazards rank bound log * 4294967296 + log.index.toNat
  obtain ⟨order, hnodup, hmem, hkeys⟩ :=
    exists_sorted (logs.filter fun log => belongs log.block) key
  have hall (log : LogPlace) : log ∈ order ↔ belongs log.block ∧ cluster.HasLog log := by
    rw [hmem, List.mem_filter, hlogs, decide_eq_true_iff]
    exact ⟨fun h => ⟨h.2, h.1.2⟩, fun h => ⟨⟨hplaces _ h.1, h.2⟩, h.1⟩⟩
  refine ⟨order, hnodup, hall, fun a ha b hb hblock hlt => hkeys a ha b hb ?_, ?_⟩
  · have hmono : cluster.logRank hazards rank bound a ≤ cluster.logRank hazards rank bound b :=
      logRank_mono hordered.inOrder.mono hblock (UInt32.le_of_lt hlt)
    have hindex := UInt32.lt_iff_toNat_lt.mp hlt
    simp only [key]
    omega
  · intro executing hexecuting sealed message initiator hsealed hmessage htime hinitiator
    obtain ⟨hbelongs, -⟩ := (hall executing).mp hexecuting
    obtain ⟨executor, hplace, hexecutor⟩ := hpassed hbelongs
    have hlt := hexecutor.logRank_lt hdistinct hordered hbound hplace hsealed hmessage htime
      hinitiator
    -- the initiating log is one of the logs that are put in order
    obtain ⟨chain', store, block, hsupports⟩ :=
      hexecutor.supports (hplace ▸ hsealed) hmessage
    have hchain := hinitiator.symm.trans hsupports.member
    cases hchain
    have hpoints : cluster.Points pair.derived.timestamp executing.block
        ⟨initiator, message.blockNumber⟩ :=
      ⟨sealed, executing.index, message, hsealed, hmessage, htime, hinitiator, rfl⟩
    have hreaches : cluster.Reaches pair.derived.timestamp start
        ⟨initiator, message.blockNumber⟩ := by
      rcases hbelongs with heq | hreaches
      · exact .single (heq ▸ hpoints)
      · exact hreaches.tail hpoints
    have hinitiating : ⟨⟨initiator, message.blockNumber⟩, message.logIndex⟩ ∈ order :=
      (hall _).mpr ⟨.inr hreaches, block,
        sealedAt_eq_some.mpr ⟨store, hsupports.isOpen, hsupports.sealed⟩, hsupports.inside⟩
    refine hkeys _ hinitiating _ hexecuting ?_
    have hindex := message.logIndex.toNat_lt
    simp only [key]
    omega

theorem Approves.promotable (h : cluster.Approves hazards chain pair)
    (hdistinct : cluster.members.hasDistinctIndices = true) : cluster.Promotable chain pair where
  sealed := Passed.sealed h.first
  reached := by
    intro place hreaches
    obtain ⟨index, hazard, hget, hchain, hnumber⟩ := h.isHazard hreaches
    obtain ⟨blocks, rank, bound, hordered, -⟩ := h.ordered
    obtain ⟨opened, hopened⟩ := hordered.opened.all index hazard hget
    obtain ⟨_, hhazard, ⟨chain', hchain', hblock⟩, hsame, hinside⟩ :=
      hordered.opened.opens index opened hopened
    rw [hget] at hhazard
    cases hhazard
    change cluster.members.idOfIndex index = _ at hchain'
    rw [hchain] at hchain'
    cases hchain'
    obtain ⟨sealed, hsealed, rfl⟩ := view_blockAt.mp hblock
    rw [hnumber] at hsealed
    exact ⟨sealed, hsealed, (congrArg BlockId.number hsame).trans hnumber,
      h.time_eq hreaches hsealed, hinside⟩
  unique := by
    intro a b ha hb hchain
    obtain ⟨index, hazard, hget, hindex, hnumber⟩ := h.isHazard ha
    obtain ⟨index', hazard', hget', hindex', hnumber'⟩ := h.isHazard hb
    have heq := (Membership.indexOfId_of_idOfIndex hindex).symm.trans
      (hchain ▸ Membership.indexOfId_of_idOfIndex hindex')
    cases heq
    rw [hget] at hget'
    cases hget'
    rw [show a = ⟨a.chain, a.number⟩ from rfl, ← hnumber, hnumber', hchain]
  supported := by
    intro place hplace sealed logIndex message hsealed hmessage
    obtain ⟨executor, rfl, hexecutor⟩ := h.passed (hplace.imp_right h.isHazard)
    exact hexecutor.supports hsealed hmessage
  ordered := h.exists_order hdistinct

end Accepted

/-- If a pair is accepted, it was promotable in the state before. -/
theorem accept_sound (cluster : Cluster) (limit : Nat) (chain : ChainId) (pair : DerivedPair)
    (hdistinct : cluster.members.hasDistinctIndices = true)
    (haccept : (((cluster.promoter limit).accept chain pair).from cluster).1 = .ok ()) :
    cluster.Promotable chain pair := by
  obtain ⟨noted, -, hfrom⟩ := (cluster.promoter limit).accept_from notesUnseen chain pair cluster
  rw [hfrom] at haccept
  split at haccept
  · rename_i hverdict
    obtain ⟨hazards, -, happroves, -⟩ := Promoter.verdict_sound dated
      (fun index hindex => Membership.idOfIndex_of_indexOfId hdistinct hindex) hverdict
    exact Approves.promotable happroves hdistinct
  · cases haccept

/-- A block whose first log executes a message of the block that the other chain promotes next, both
of one timestamp. -/
theorem accept_sound_joint :
    let block (number : UInt64) (hash parent : UInt8) : BlockRef :=
      ⟨.ofBytes [hash], number, .ofBytes [parent], number⟩
    let initiated : DerivedPair := ⟨block 0 9 0, block 2 3 2⟩
    let executed : DerivedPair := ⟨block 0 9 0, block 2 4 1⟩
    let opened := (((empty ⟨.ofList [(900, ⟨0, 0, 0⟩), (901, ⟨1, 0, 0⟩)]⟩ false).create
      900).2.create 901).2
    let cluster := [(900, .initialise ⟨block 0 9 0, block 1 1 0⟩),
      (901, .initialise ⟨block 0 9 0, block 1 2 0⟩),
      (901, .seal initiated.derived [⟨0, .ofBytes [7], none⟩]), (901, .addDerived initiated),
      (900, .seal executed.derived [⟨0, .ofBytes [8], some ⟨1, 2, 0, 2, .ofBytes [7]⟩⟩]),
      (900, .addDerived executed)].foldl
        (fun cluster (chain, operation) => (cluster.perform chain operation).2) opened
    cluster.members.hasDistinctIndices = true ∧
      (((cluster.promoter 10).accept 900 executed).from cluster).1 = .ok () ∧
      cluster.Promotable 900 executed := by
  intro block initiated executed opened cluster
  have hdistinct : cluster.members.hasDistinctIndices = true := by decide +kernel
  have haccept : (((cluster.promoter 10).accept 900 executed).from cluster).1 = .ok () := by
    decide +kernel
  exact ⟨hdistinct, haccept, accept_sound cluster 10 900 executed hdistinct haccept⟩

end Cluster

end CrossSafety
