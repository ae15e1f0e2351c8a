import CrossSafety.Proofs.Safety.Verdict

/-!
# What an acceptance rests on

The checks of a block look at the block and at its hazards, as they are sealed, and at the logs that
initiated their messages. All these lie in cross-safe blocks and in hazards, so while those stay the
block would be accepted again.
-/
namespace CrossSafety

/-- A view that still has the blocks and logs of some numbers, and all cross-safe blocks. -/
structure SafetyView.Keeps (view after : SafetyView) (kept : ChainId → UInt64 → Prop) : Prop where
  blockAt : ∀ chain number opened, kept chain number → view.blockAt chain number = .ok opened →
    after.blockAt chain number = .ok opened
  contains : ∀ chain query block, kept chain query.blockNumber →
    view.contains chain query = .ok block → after.contains chain query = .ok block
  crossSafe : ∀ chain block, view.CrossSafe chain block → after.CrossSafe chain block

/-- Block numbers that include those of all cross-safe blocks and of some hazards. -/
structure SafetyView.Covers (view : SafetyView) (set : DependencySet) (hazards : Hazards)
    (kept : ChainId → UInt64 → Prop) : Prop where
  crossSafe : ∀ chain block, view.CrossSafe chain block → kept chain block.number
  hazards : ∀ index hazard chain, hazards.get? index = some hazard →
    set.idOfIndex index = .ok chain → kept chain hazard.number

variable {view after : SafetyView} {set : DependencySet} {hazards : Hazards} {timestamp : UInt64}
  {executor start : PendingBlock} {kept : ChainId → UInt64 → Prop}

/-- A message of a block that passed comes from a cross-safe block or from a hazard. -/
theorem BlockPasses.source {opened : BlockContents}
    (h : BlockPasses view set view.CrossSafe hazards executor opened) (hcoherent : view.Coherent)
    (hcovers : view.Covers set hazards kept) {logIndex : UInt32} {message : ExecutingMessage}
    (hmessage : opened.messages.get? logIndex = some message) {chain : ChainId}
    (hchain : set.idOfIndex message.chain = .ok chain) : kept chain message.blockNumber := by
  obtain ⟨ownIndex, chain', holder, hpasses, hhas⟩ := h.messages logIndex message hmessage
  have heq := hchain.symm.trans hpasses.member
  cases heq
  have hnumber : holder.number = message.blockNumber :=
    hcoherent.numbered chain message.query holder hpasses.stored
  rcases Decidable.em (message.timestamp < executor.block.timestamp) with hlt | hnot
  · exact hnumber ▸ hcovers.crossSafe chain holder (hpasses.older hlt)
  · have htime := UInt64.le_antisymm hpasses.notNewer (UInt64.not_lt.mp hnot)
    obtain ⟨hazard, hget, hsame⟩ := hhas htime
    have hhazard : hazard.number = holder.number := congrArg BlockId.number hsame
    exact hnumber ▸ hhazard ▸ hcovers.hazards message.chain hazard chain hget hchain

theorem Examined.keeps
    (h : Examined view set view.CrossSafe timestamp hazards executor) (hcoherent : view.Coherent)
    (hcovers : view.Covers set hazards kept) (hkeeps : view.Keeps after kept)
    (hown : kept executor.chain executor.block.number) :
    Examined after set after.CrossSafe timestamp hazards executor := by
  obtain ⟨opened, hpasses⟩ := h.passes
  have hopens := hkeeps.blockAt _ _ opened hown hpasses.opens
  refine ⟨h.time, ⟨opened, hopens, hpasses.same, fun logIndex message hmessage => ?_⟩, ?_⟩
  · obtain ⟨ownIndex, chain, holder, hmessages, hhas⟩ :=
      hpasses.messages logIndex message hmessage
    have hsource := hpasses.source hcoherent hcovers hmessage hmessages.member
    exact ⟨ownIndex, chain, holder,
      { hmessages with
        stored := hkeeps.contains chain message.query holder hsource hmessages.stored
        older := fun hlt => hkeeps.crossSafe chain holder (hmessages.older hlt) }, hhas⟩
  · intro found hfound
    rw [hopens] at hfound
    cases hfound
    exact h.joint opened hpasses.opens

/-- An acceptance lasts as long as the block, its hazards and all cross-safe blocks stay. -/
theorem Accepted.keeps (h : Accepted view set view.CrossSafe hazards start)
    (hcoherent : view.Coherent) (hcovers : view.Covers set hazards kept)
    (hkeeps : view.Keeps after kept) (hstart : kept start.chain start.block.number) :
    Accepted after set after.CrossSafe hazards start := by
  refine ⟨h.first.keeps hcoherent hcovers hkeeps hstart, fun index hazard hget => ?_, ?_⟩
  · obtain ⟨chain, hchain, hexamined⟩ := h.others index hazard hget
    exact ⟨chain, hchain, hexamined.keeps hcoherent hcovers hkeeps
      (hcovers.hazards index hazard chain hget hchain)⟩
  · obtain ⟨blocks, rank, bound, hordered, hbound⟩ := h.ordered
    refine ⟨blocks, rank, bound, { hordered with opened := ⟨?_, hordered.opened.all⟩ }, hbound⟩
    intro index opened hopened
    obtain ⟨hazard, hget, hopens⟩ := hordered.opened.opens index opened hopened
    obtain ⟨chain, hchain, hblock⟩ := hopens.member
    have hblock := hkeeps.blockAt chain hazard.number opened
      (hcovers.hazards index hazard chain hget hchain) hblock
    exact ⟨hazard, hget, { hopens with member := ⟨chain, hchain, hblock⟩ }⟩

theorem Examined.imp {valid accepted : ChainId → BlockSeal → Prop}
    (h : Examined view set valid timestamp hazards executor)
    (hvalid : ∀ chain block, valid chain block → accepted chain block) :
    Examined view set accepted timestamp hazards executor :=
  ⟨h.time, h.passes.imp fun _ hpasses => hpasses.imp hvalid, h.joint⟩

theorem Accepted.imp {valid accepted : ChainId → BlockSeal → Prop}
    (h : Accepted view set valid hazards start)
    (hvalid : ∀ chain block, valid chain block → accepted chain block) :
    Accepted view set accepted hazards start where
  first := h.first.imp hvalid
  others index hazard hget := (h.others index hazard hget).imp fun _ hother =>
    ⟨hother.1, hother.2.imp hvalid⟩
  ordered := h.ordered

end CrossSafety
