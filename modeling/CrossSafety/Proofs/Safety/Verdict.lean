import CrossSafety.Proofs.Safety.Promotion

/-!
# Blocks that are relied on are not rejected

When a block was accepted, it relies on its hazards, which need not be cross-safe yet. As long as
all that was checked then still holds, and each of these hazards is cross-safe or awaits its
promotion, no check of such a hazard ends in a conflict: it may have to wait, or its scope may have to
widen, but it is never rejected.
-/
namespace CrossSafety

/-- A result that is no conflict. What it gives satisfies a condition. -/
def Tame {α : Type} (post : α → Prop) : Except CrossSafetyError α → Prop
  | .ok value => post value
  | .error error => error.isConflict = false

theorem Tame.isConflict_eq {α : Type} {post : α → Prop} {result : Except CrossSafetyError α}
    (h : Tame post result) {error : CrossSafetyError} (hresult : result = .error error) :
    error.isConflict = false := by
  rwa [hresult] at h

theorem Tame.bind {α β : Type} {middle : α → Prop} {post : β → Prop}
    {first : Except CrossSafetyError α} {next : α → Except CrossSafetyError β}
    (h : Tame middle first) (hnext : ∀ value, middle value → Tame post (next value)) :
    Tame post (first >>= next) := by
  cases first with
  | ok value => exact hnext value h
  | error error => exact h

namespace SafetyView

/-- A view in which a log is found in the sealed block of the number that is asked for. -/
structure Coherent (view : SafetyView) : Prop where
  numbered : ∀ chain query block, view.contains chain query = .ok block →
    block.number = query.blockNumber
  exact : ∀ chain query block opened, view.contains chain query = .ok block →
    view.blockAt chain block.number = .ok opened → opened.block.toSeal = block

def CrossSafe (view : SafetyView) (chain : ChainId) (block : BlockSeal) : Prop :=
  ∃ source, view.sourceOf chain block.id = .ok source

/-- A block is ahead of the cross-safe head, and its chain promotes no other one of its number
next. -/
structure Awaits (view : SafetyView) (chain : ChainId) (block : BlockSeal) : Prop where
  ahead : view.sourceOf chain block.id = .error .futureData
  next : ∀ pair, view.candidate chain = .ok pair → pair.derived.number = block.number →
    pair.derived.id = block.id
  tame : view.candidate chain ≠ .error .conflict

/-- A hazard that is ready is cross-safe or awaits its promotion. -/
theorem Ready.settled {view : SafetyView} {scope : UInt64} {chain : ChainId} {block : BlockSeal}
    (h : view.Ready scope chain block) : view.CrossSafe chain block ∨ view.Awaits chain block := by
  rcases h with ⟨source, hsource, -⟩ | ⟨hahead, next, hnext, -, hsame⟩
  · exact .inl ⟨source, hsource⟩
  · refine .inr ⟨hahead, fun pair hpair => ?_, fun herror => ?_⟩
    · cases hnext.symm.trans hpair
      exact hsame
    · cases hnext.symm.trans herror

end SafetyView

/-- What the promotion of a block relied on: the block and its hazards passed their checks, and each
hazard is as it was found, and cross-safe or awaiting its promotion. -/
structure Relied (view : SafetyView) (set : DependencySet) (hazards : Hazards)
    (start : PendingBlock) : Prop where
  accepted : Accepted view set view.CrossSafe hazards start
  exact : ∀ index hazard chain opened, hazards.get? index = some hazard →
    set.idOfIndex index = .ok chain → view.blockAt chain hazard.number = .ok opened →
    opened.block.toSeal = hazard
  settled : ∀ index hazard chain, hazards.get? index = some hazard →
    set.idOfIndex index = .ok chain → view.CrossSafe chain hazard ∨ view.Awaits chain hazard

section Relied

variable {view : SafetyView} {set : DependencySet} {hazards : Hazards} {start : PendingBlock}
  {scope : UInt64} {executor : PendingBlock}

theorem tame_requireInScope {chain : ChainId} {number source : UInt64} :
    Tame (fun _ => True) (SafetyView.requireInScope chain number source scope).result := by
  unfold SafetyView.requireInScope
  split
  · rfl
  · trivial

/-- A block that became cross-safe may be out of scope, and that is all. -/
theorem tame_validInScope {chain : ChainId} {block : BlockSeal} (h : view.CrossSafe chain block) :
    Tame (fun _ => True) (view.validInScope scope chain block).result := by
  obtain ⟨source, hsource⟩ := h
  unfold SafetyView.validInScope
  simp only [Check.result_bind, Check.result_attempt, Outcome.ok_bind, hsource]
  exact tame_requireInScope

def Hazards.Knows (set : DependencySet) (hazards : Hazards) (block : PendingBlock) : Prop :=
  ∃ index, hazards.get? index = some block.block ∧ set.idOfIndex index = .ok block.chain

theorem Relied.examined (h : Relied view set hazards start) (executor : PendingBlock)
    (hknows : hazards.Knows set executor) :
    Examined view set view.CrossSafe start.block.timestamp hazards executor := by
  obtain ⟨index, hget, hchain⟩ := hknows
  obtain ⟨chain, hchain', hexamined⟩ := h.accepted.others index executor.block hget
  rw [hchain] at hchain'
  cases hchain'
  exact hexamined

/-- The block that a message of the block's own time comes from is a hazard, as it is stored. -/
theorem Relied.holder (h : Relied view set hazards start) (hcoherent : view.Coherent)
    {message : ExecutingMessage} {chain : ChainId} {holder : BlockSeal}
    (hmember : set.idOfIndex message.chain = .ok chain)
    (hstored : view.contains chain message.query = .ok holder)
    (hhas : hazards.Has message.chain holder) : hazards.get? message.chain = some holder := by
  obtain ⟨known, hget, hsame⟩ := hhas
  have hexamined := h.examined ⟨chain, known⟩ ⟨message.chain, hget, hmember⟩
  obtain ⟨opened, hpasses⟩ := hexamined.passes
  have hknown := h.exact _ known chain opened hget hmember hpasses.opens
  have hnumber : known.number = holder.number := congrArg BlockId.number hsame
  have hholder := hcoherent.exact chain message.query holder opened hstored
    (hnumber ▸ hpasses.opens)
  rw [hget, ← hknown, hholder]

namespace HazardSearch

/-- A search that only knows blocks that are relied on. -/
structure Inside (set : DependencySet) (hazards : Hazards) (search : HazardSearch) : Prop where
  found : search.found.Within hazards
  pending : ∀ block ∈ search.pending, hazards.Knows set block

variable {search : HazardSearch}

theorem tame_add (hinside : search.Inside set hazards) {index : MemberIndex} {chain : ChainId}
    {block : BlockSeal} (hget : hazards.get? index = some block)
    (hchain : set.idOfIndex index = .ok chain) :
    Tame (Inside set hazards) (search.add index chain block).result := by
  unfold add
  cases hfound : search.found.get? index with
  | some existing =>
    have hexisting := hinside.found index existing hfound
    rw [hget] at hexisting
    cases hexisting
    dsimp only
    rw [if_pos rfl]
    exact hinside
  | none =>
    refine ⟨fun other found hother => ?_, fun pending hmem => ?_⟩
    · by_cases heq : other = index
      · subst heq
        rw [Table.get?_insert_self] at hother
        cases hother
        exact hget
      · rw [Table.get?_insert_of_ne heq] at hother
        exact hinside.found other found hother
    · rcases List.mem_cons.mp hmem with rfl | hmem
      · exact ⟨index, hget, hchain⟩
      · exact hinside.pending pending hmem

theorem tame_checkMessage (h : Relied view set hazards start) (hcoherent : view.Coherent)
    (hinside : search.Inside set hazards) {ownIndex : MemberIndex} {logIndex : UInt32}
    {message : ExecutingMessage} {chain : ChainId} {holder : BlockSeal}
    (hpasses : MessagePasses view set view.CrossSafe executor ownIndex logIndex message chain
      holder)
    (hhas : message.timestamp = executor.block.timestamp → hazards.Has message.chain holder) :
    Tame (Inside set hazards) (checkMessage view set (view.validInScope scope) ownIndex
      executor.block logIndex message search).result := by
  unfold checkMessage
  rw [if_neg hpasses.notSelf]
  simp only [Check.result_bind, Check.result_ofResult, Check.lookup, hpasses.member,
    hpasses.initiates, Outcome.mapError_ok, Outcome.ok_bind, if_true,
    if_neg (UInt64.not_lt.mpr hpasses.notNewer), Check.result_require, hpasses.stored]
  by_cases hlt : message.timestamp < executor.block.timestamp
  · rw [if_pos hlt, Check.result_bind]
    exact (tame_validInScope (hpasses.older hlt)).bind fun _ _ => hinside
  · rw [if_neg hlt]
    have htime := UInt64.le_antisymm hpasses.notNewer (UInt64.not_lt.mp hlt)
    exact tame_add hinside (h.holder hcoherent hpasses.member hpasses.stored (hhas htime))
      hpasses.member

theorem tame_checkMessages (h : Relied view set hazards start) (hcoherent : view.Coherent)
    {ownIndex : MemberIndex} (hown : set.indexOfId executor.chain = .ok ownIndex)
    {opened : BlockContents}
    (hpasses : BlockPasses view set view.CrossSafe hazards executor opened)
    {messages : List (UInt32 × ExecutingMessage)}
    (hmessages : ∀ entry ∈ messages, opened.messages.get? entry.1 = some entry.2)
    (hinside : search.Inside set hazards) :
    Tame (Inside set hazards) (checkMessages view set (view.validInScope scope) ownIndex
      executor.block messages search).result := by
  induction messages generalizing search with
  | nil => exact hinside
  | cons entry rest ih =>
    obtain ⟨logIndex, message⟩ := entry
    obtain ⟨index, chain, holder, hmessage, hhas⟩ :=
      hpasses.messages logIndex message (hmessages _ List.mem_cons_self)
    have hindex := hown.symm.trans hmessage.own
    cases hindex
    rw [checkMessages, Check.result_bind]
    exact (tame_checkMessage h hcoherent hinside hmessage hhas).bind fun next hnext =>
      ih (fun other hmem => hmessages other (List.mem_cons_of_mem _ hmem)) hnext

theorem tame_visit (h : Relied view set hazards start) (hcoherent : view.Coherent)
    (hknows : hazards.Knows set executor) (hinside : search.Inside set hazards) :
    Tame (Inside set hazards)
      (visit view set (view.validInScope scope) executor search).result := by
  obtain ⟨opened, hpasses⟩ := (h.examined _ hknows).passes
  unfold visit
  rw [Check.result_bind, SafetyView.openExactly_eq_ok.mpr ⟨hpasses.opens, hpasses.same⟩,
    Outcome.ok_bind]
  split
  · exact hinside
  · rename_i hsome
    -- a block with messages had its permission checked with the first of them
    rw [Table.isEmpty_iff, Classical.not_forall] at hsome
    obtain ⟨logIndex, hne⟩ := hsome
    obtain ⟨message, hmessage⟩ := Option.ne_none_iff_exists'.mp hne
    obtain ⟨ownIndex, chain, holder, hfirst, -⟩ := hpasses.messages logIndex message hmessage
    simp only [Check.result_bind, Check.result_ofResult, Check.lookup, hfirst.executes, hfirst.own,
      Outcome.mapError_ok, Outcome.ok_bind, if_true]
    exact tame_checkMessages h hcoherent hfirst.own hpasses
      (fun entry hmem => Table.mem_toList.mp hmem) hinside

theorem tame_run (h : Relied view set hazards start) (hcoherent : view.Coherent)
    {limit left : Nat} (hinside : search.Inside set hazards) :
    Tame (fun found => found.Within hazards)
      (run view set (view.validInScope scope) limit left search).result := by
  induction left generalizing search with
  | zero =>
    obtain ⟨pending, found⟩ := search
    cases pending with
    | nil => exact hinside.found
    | cons => rfl
  | succ left ih =>
    obtain ⟨pending, found⟩ := search
    cases pending with
    | nil => exact hinside.found
    | cons next pending =>
      have hrest : Inside set hazards ⟨pending, found⟩ :=
        ⟨hinside.found, fun block hmem => hinside.pending block (List.mem_cons_of_mem next hmem)⟩
      rw [run, Check.result_bind]
      exact (tame_visit h hcoherent (hinside.pending next List.mem_cons_self) hrest).bind
        fun _ hnext => ih hnext

end HazardSearch

/-! ## The checks of what was found -/

/-- A hazard that is relied on may be out of scope or have to wait, and that is all. -/
theorem Relied.tame_checkReadyBlock (h : Relied view set hazards start) {index : MemberIndex}
    {hazard : BlockSeal} (hget : hazards.get? index = some hazard) :
    Tame (fun _ => True) (view.checkReadyBlock set scope index hazard).result := by
  obtain ⟨chain, hchain, -⟩ := h.accepted.others index hazard hget
  unfold SafetyView.checkReadyBlock
  simp only [Check.result_bind, Check.result_ofResult, Check.result_attempt, hchain,
    Outcome.mapError_ok, Outcome.ok_bind]
  rcases h.settled index hazard chain hget hchain with ⟨source, hsource⟩ | hawaits
  · rw [hsource]
    exact tame_requireInScope
  · rw [hawaits.ahead]
    simp only [Check.result_bind, Check.result_require]
    cases hcandidate : view.candidate chain with
    | error error =>
      change CrossSafetyError.isConflict (.storage error) = false
      have htame := hawaits.tame
      rw [hcandidate] at htame
      cases error with
      | conflict => exact absurd rfl htame
      | _ => rfl
    | ok next =>
      rw [Outcome.mapError_ok, Outcome.ok_bind,
        if_neg fun hother => hother.2 (hawaits.next next hcandidate hother.1)]
      exact tame_requireInScope

theorem Relied.tame_checkReadiness (h : Relied view set hazards start) {found : Hazards}
    (hwithin : found.Within hazards) :
    Tame (fun _ => True) (view.checkReadiness set scope found).result := by
  have hlist (entries : List (MemberIndex × BlockSeal))
      (hentries : ∀ entry ∈ entries, hazards.get? entry.1 = some entry.2) :
      Tame (fun _ => True)
        (entries.forM fun entry => view.checkReadyBlock set scope entry.1 entry.2).result := by
    induction entries with
    | nil => trivial
    | cons entry rest ih =>
      change Tame _ (_ >>= fun _ => _ : Check Unit).result
      rw [Check.result_bind]
      exact (h.tame_checkReadyBlock (hentries entry List.mem_cons_self)).bind fun _ _ =>
        ih fun other hmem => hentries other (List.mem_cons_of_mem _ hmem)
  exact hlist _ fun entry hmem => hwithin _ _ (Table.mem_toList.mp hmem)

/-- Hazards that lead to nothing but each other, all of them relied on, can be put in order. -/
theorem Relied.checkOrder_eq_ok (h : Relied view set hazards start) {found : Hazards}
    (hwithin : found.Within hazards)
    (hclosed : ∀ index hazard, found.get? index = some hazard → ∀ chain opened logIndex message,
      set.idOfIndex index = .ok chain → view.blockAt chain hazard.number = .ok opened →
      opened.messages.get? logIndex = some message →
      message.timestamp = start.block.timestamp → ∃ other, found.get? message.chain = some other) :
    (Hazards.checkOrder view set start.block.timestamp found).result = .ok () := by
  obtain ⟨blocks, rank, bound, hordered, -⟩ := h.accepted.ordered
  obtain ⟨fewer, hfewer⟩ : ∃ fewer,
      (Hazards.openHazards view set found.toList .empty).result = .ok fewer := by
    refine Hazards.exists_openHazards fun entry hmem => ?_
    have hget := hwithin _ _ (Table.mem_toList.mp hmem)
    obtain ⟨opened, hopened⟩ := hordered.opened.all _ _ hget
    obtain ⟨known, hknown, hopens⟩ := hordered.opened.opens _ opened hopened
    rw [hget] at hknown
    cases hknown
    exact ⟨opened, hopens⟩
  have hopened := Hazards.openedAs_of_openHazards hfewer
  have hsame {index : MemberIndex} {opened : BlockContents}
      (hget : fewer.get? index = some opened) : blocks.get? index = some opened :=
    hopened.within hordered.opened hwithin hget
  refine Hazards.checkOrder_complete hfewer ?_ ⟨hordered.inOrder.mono, ?_⟩
  · intro index opened hget logIndex message hmessage htime
    obtain ⟨initiating, hinitiating, hother, hinside⟩ :=
      hordered.mayWait index opened (hsame hget) logIndex message hmessage htime
    obtain ⟨hazard, hhazard, ⟨chain, hchain, hblock⟩, -, -⟩ := hopened.opens index opened hget
    obtain ⟨other, hfound⟩ := hclosed index hazard hhazard chain opened logIndex message hchain
      hblock hmessage htime
    obtain ⟨contents, hcontents⟩ := hopened.all message.chain other hfound
    have heq := (hsame hcontents).symm.trans hinitiating
    cases heq
    exact ⟨_, hcontents, hother, hinside⟩
  · intro index opened logIndex message initiating hget hmessage htime hinitiating hnumber
    exact hordered.inOrder.before index opened logIndex message initiating (hsame hget) hmessage
      htime (hsame hinitiating) hnumber

theorem tame_checkDependency {message : ExecutingMessage} {chain : ChainId} {holder : BlockSeal}
    (hmember : set.idOfIndex message.chain = .ok chain)
    (hstored : view.contains chain message.query = .ok holder) (h : view.CrossSafe chain holder) :
    Tame (fun _ => True) (view.checkDependency set scope message).result := by
  obtain ⟨source, hsource⟩ := h
  unfold SafetyView.checkDependency
  simp only [Check.result_bind, Check.result_ofResult, Check.result_require, Check.result_attempt,
    hmember, hstored, hsource, Outcome.mapError_ok, Outcome.ok_bind]
  exact tame_requireInScope

/-- The messages of a block that is relied on point to hazards that were found, or to blocks that
became cross-safe. -/
theorem tame_dependencyMessages {found : Hazards}
    (hpasses : Examined view set view.CrossSafe start.block.timestamp hazards executor)
    (hjoint : view.OnlyJoint start.block.timestamp found executor)
    {opened : BlockContents} (hopened : view.blockAt executor.chain executor.block.number =
      .ok opened) {messages : List ExecutingMessage}
    (hmessages : ∀ message ∈ messages, ∃ logIndex, opened.messages.get? logIndex = some message)
    (met : Table MemberIndex UInt64) :
    Tame (fun _ => True) (view.checkMessages set scope start.block.timestamp found messages
      met).result := by
  induction messages generalizing met with
  | nil => trivial
  | cons message rest ih =>
    have hrest := ih fun other hmem => hmessages other (List.mem_cons_of_mem _ hmem)
    obtain ⟨logIndex, hmessage⟩ := hmessages message List.mem_cons_self
    unfold SafetyView.checkMessages
    rw [Check.result_bind, Check.result_ofResult]
    rcases Hazards.isJoint_cases (hjoint opened hopened logIndex message hmessage) with
      htrue | ⟨hfalse, hother⟩
    · rw [htrue]
      exact hrest _
    · rw [hfalse]
      simp only [Outcome.mapError_ok, Outcome.ok_bind, Bool.false_eq_true, if_false,
        Check.result_bind]
      obtain ⟨contents, hcontents⟩ := hpasses.passes
      have heq := hopened.symm.trans hcontents.opens
      cases heq
      obtain ⟨ownIndex, chain, holder, hmessage, -⟩ := hcontents.messages logIndex message hmessage
      have hlt : message.timestamp < executor.block.timestamp :=
        UInt64.lt_of_le_of_ne hmessage.notNewer (hpasses.time ▸ hother)
      exact (tame_checkDependency hmessage.member hmessage.stored (hmessage.older hlt)).bind
        fun _ _ => hrest met

theorem Relied.tame_checkBlocks (h : Relied view set hazards start) {found : Hazards}
    {blocks : List PendingBlock} (hknown : ∀ block ∈ blocks, hazards.Knows set block)
    (hjoint : ∀ block ∈ blocks, view.OnlyJoint start.block.timestamp found block)
    (met : Table MemberIndex UInt64) :
    Tame (fun _ => True) (view.checkBlocks set scope start.block.timestamp found blocks
      met).result := by
  induction blocks generalizing met with
  | nil => trivial
  | cons block rest ih =>
    have hexamined := h.examined block (hknown block List.mem_cons_self)
    obtain ⟨opened, hpasses⟩ := hexamined.passes
    unfold SafetyView.checkBlocks
    simp only [Check.result_bind, Check.result_require, hpasses.opens, Outcome.mapError_ok,
      Outcome.ok_bind]
    refine (tame_dependencyMessages hexamined (hjoint block List.mem_cons_self) hpasses.opens
      (fun message hmem => Table.mem_values.mp hmem) met).bind fun next _ => ?_
    exact ih (fun other hmem => hknown other (List.mem_cons_of_mem _ hmem))
      (fun other hmem => hjoint other (List.mem_cons_of_mem _ hmem)) next

/-- The blocks that are checked besides the candidate: the hazards other than the candidate itself. -/
theorem exists_pendingHazards (hplaced : ∀ index hazard, hazards.get? index = some hazard →
      ∃ chain, set.idOfIndex index = .ok chain) (ownIndex : MemberIndex) (candidate : BlockSeal) :
    ∃ blocks, (hazards.toList.filter fun entry =>
        ¬(entry.1 = ownIndex ∧ entry.2.id = candidate.id)).mapM (pendingHazard set) = .ok blocks ∧
      ∀ block, block ∈ blocks ↔ ∃ index, hazards.get? index = some block.block ∧
        set.idOfIndex index = .ok block.chain ∧
        ¬(index = ownIndex ∧ block.block.id = candidate.id) := by
  have hentries : ∀ entry ∈ hazards.toList.filter fun entry =>
      ¬(entry.1 = ownIndex ∧ entry.2.id = candidate.id),
      ∃ block, pendingHazard set entry = .ok block := by
    rintro ⟨index, hazard⟩ hmem
    obtain ⟨other, hother⟩ := hplaced index hazard (Table.mem_toList.mp (List.mem_filter.mp hmem).1)
    exact ⟨⟨other, hazard⟩, pendingHazard_eq_ok.mpr ⟨hother, rfl⟩⟩
  obtain ⟨blocks, hblocks⟩ := Outcome.exists_mapM_eq_ok hentries
  refine ⟨blocks, hblocks, fun block => ⟨fun hmem => ?_, ?_⟩⟩
  · obtain ⟨⟨index, hazard⟩, hentry, hplace⟩ := (Outcome.mapM_mem hblocks).2 block hmem
    obtain ⟨hother, rfl⟩ := pendingHazard_eq_ok.mp hplace
    obtain ⟨hget, hkept⟩ := List.mem_filter.mp hentry
    exact ⟨index, Table.mem_toList.mp hget, hother, of_decide_eq_true hkept⟩
  · rintro ⟨index, hget, hother, hkept⟩
    obtain ⟨next, hmem, hplace⟩ := (Outcome.mapM_mem hblocks).1 (index, block.block)
      (List.mem_filter.mpr ⟨Table.mem_toList.mpr hget, decide_eq_true hkept⟩)
    cases hplace.symm.trans (pendingHazard_eq_ok.mpr ⟨hother, rfl⟩)
    exact hmem

theorem Relied.tame_checkDependencies (h : Relied view set hazards start) {found : Hazards}
    (hwithin : found.Within hazards) {chain : ChainId} {candidate : BlockSeal}
    (hindex : ∃ index, set.indexOfId chain = .ok index)
    (htime : candidate.timestamp = start.block.timestamp)
    (hknows : hazards.Knows set ⟨chain, candidate⟩)
    (hjoint : view.OnlyJoint start.block.timestamp found ⟨chain, candidate⟩)
    (hjoints : ∀ index hazard other, found.get? index = some hazard →
      set.idOfIndex index = .ok other →
      view.OnlyJoint start.block.timestamp found ⟨other, hazard⟩) :
    Tame (fun _ => True)
      (view.checkDependencies set scope chain candidate found).result := by
  obtain ⟨ownIndex, hown⟩ := hindex
  unfold SafetyView.checkDependencies
  simp only [Check.result_bind, Check.lookup, Check.result_ofResult, hown, Outcome.mapError_ok,
    Outcome.ok_bind, htime]
  change Tame _ (((found.toList.filter fun entry =>
    ¬(entry.1 = ownIndex ∧ entry.2.id = candidate.id)).mapM (pendingHazard set)) >>= _)
  have hplaced (index : MemberIndex) (hazard : BlockSeal) (hget : found.get? index = some hazard) :
      ∃ other, set.idOfIndex index = .ok other := by
    obtain ⟨other, hother, -⟩ := h.accepted.others index hazard (hwithin _ _ hget)
    exact ⟨other, hother⟩
  obtain ⟨blocks, hblocks, hmem⟩ := exists_pendingHazards hplaced ownIndex candidate
  rw [hblocks, Outcome.ok_bind]
  refine (h.tame_checkBlocks ?_ ?_ .empty).bind fun _ _ => trivial
  · refine List.forall_mem_cons.mpr ⟨hknows, fun block hblock => ?_⟩
    obtain ⟨index, hget, hother, -⟩ := (hmem block).mp hblock
    exact ⟨index, hwithin _ _ hget, hother⟩
  · refine List.forall_mem_cons.mpr ⟨hjoint, fun block hblock => ?_⟩
    obtain ⟨index, hget, hother, -⟩ := (hmem block).mp hblock
    exact hjoints index block.block block.chain hget hother

/-- A message of a block that passed leads to a hazard of the number that it names. -/
theorem BlockPasses.onlyJoint {valid : ChainId → BlockSeal → Prop} {found : Hazards}
    {opened : BlockContents} (hcoherent : view.Coherent)
    (h : BlockPasses view set valid found executor opened) {timestamp : UInt64}
    (htime : executor.block.timestamp = timestamp) : view.OnlyJoint timestamp found executor := by
  intro contents hcontents logIndex message hmessage hsame
  have heq := hcontents.symm.trans h.opens
  cases heq
  obtain ⟨ownIndex, chain, holder, hpasses, hhas⟩ := h.messages logIndex message hmessage
  obtain ⟨hazard, hget, hhazard⟩ := hhas (hsame.trans htime.symm)
  exact ⟨hazard, hget, (congrArg BlockId.number hhazard).trans
    (hcoherent.numbered chain message.query holder hpasses.stored)⟩

/-- The search that starts from a hazard that is relied on finds hazards that are known. -/
theorem Relied.tame_survey (h : Relied view set hazards start) (hcoherent : view.Coherent)
    {σ : Type} {promoter : Promoter σ} (hset : promoter.set = set) {chain : ChainId}
    {candidate : DerivedPair} (hknows : hazards.Knows set ⟨chain, candidate.derived.toSeal⟩) :
    Tame (fun found => found.Within hazards) (promoter.survey view chain candidate).result := by
  subst hset
  obtain ⟨opened, hpasses⟩ := (h.examined _ hknows).passes
  unfold Promoter.survey
  rw [Check.result_bind, SafetyView.openExactly_eq_ok.mpr ⟨hpasses.opens, hpasses.same⟩,
    Outcome.ok_bind]
  have hinside : HazardSearch.Inside promoter.set hazards
      ⟨[⟨chain, candidate.derived.toSeal⟩], .empty⟩ :=
    ⟨fun _ _ hnone => (nomatch hnone), fun block hmem => List.mem_singleton.mp hmem ▸ hknows⟩
  exact HazardSearch.tame_run h hcoherent hinside

/-- The checks of a hazard that is relied on, and of the hazards found from it, do not end in a
conflict. -/
theorem Relied.tame_approve (h : Relied view set hazards start) {σ : Type}
    {promoter : Promoter σ} (hset : promoter.set = set)
    (hids : ∀ index chain, set.idOfIndex index = .ok chain → set.indexOfId chain = .ok index)
    {chain : ChainId} {candidate : DerivedPair}
    (hknows : hazards.Knows set ⟨chain, candidate.derived.toSeal⟩) {found : Hazards}
    (hwithin : found.Within hazards)
    (hjoint : view.OnlyJoint start.block.timestamp found ⟨chain, candidate.derived.toSeal⟩)
    (hjoints : ∀ index hazard other, found.get? index = some hazard →
      set.idOfIndex index = .ok other →
      view.OnlyJoint start.block.timestamp found ⟨other, hazard⟩) :
    Tame (fun _ => True) (promoter.approve view chain candidate found).result := by
  subst hset
  have htime : candidate.derived.timestamp = start.block.timestamp := (h.examined _ hknows).time
  have hclosed : ∀ index hazard, found.get? index = some hazard →
      ∀ chain opened logIndex message, promoter.set.idOfIndex index = .ok chain →
      view.blockAt chain hazard.number = .ok opened →
      opened.messages.get? logIndex = some message →
      message.timestamp = start.block.timestamp →
      ∃ other, found.get? message.chain = some other := by
    intro index hazard hget other contents logIndex message hother hcontents hmessage hsame
    obtain ⟨next, hnext, -⟩ := hjoints index hazard other hget hother contents hcontents
      logIndex message hmessage hsame
    exact ⟨next, hnext⟩
  obtain ⟨index, -, hchain⟩ := id hknows
  unfold Promoter.approve
  simp only [Check.result_bind]
  refine (h.tame_checkReadiness hwithin).bind fun _ _ => ?_
  rw [htime, h.checkOrder_eq_ok hwithin hclosed, Outcome.ok_bind]
  exact h.tame_checkDependencies hwithin ⟨index, hids _ _ hchain⟩ htime hknows hjoint hjoints

/-- The checks of a hazard that is relied on do not end in a conflict. -/
theorem Relied.tame_verdict (h : Relied view set hazards start) (hcoherent : view.Coherent)
    {σ : Type} {promoter : Promoter σ} (hset : promoter.set = set)
    (hids : ∀ index chain, set.idOfIndex index = .ok chain → set.indexOfId chain = .ok index)
    {chain : ChainId} {candidate : DerivedPair}
    (hknows : hazards.Knows set ⟨chain, candidate.derived.toSeal⟩) :
    Tame (fun _ => True) (promoter.verdict view chain candidate) := by
  have hsurvey := h.tame_survey hcoherent hset hknows
  unfold Promoter.verdict
  cases hfound : (promoter.survey view chain candidate).result with
  | error error =>
    rw [hfound] at hsurvey
    exact hsurvey
  | ok found =>
    rw [hfound] at hsurvey
    have hwithin : found.Within hazards := hsurvey
    simp only [Promoter.survey, Check.result_bind, Outcome.bind_eq_ok] at hfound
    obtain ⟨_, -, hbuild⟩ := hfound
    obtain ⟨⟨_, hstart⟩, hall⟩ := Hazards.build_sound hbuild
    have hjoint := hstart.onlyJoint hcoherent (h.examined _ hknows).time
    have hjoints (index : MemberIndex) (hazard : BlockSeal) (other : ChainId)
        (hget : found.get? index = some hazard) (hother : set.idOfIndex index = .ok other) :
        view.OnlyJoint start.block.timestamp found ⟨other, hazard⟩ := by
      obtain ⟨chain', hchain', -, _, hblock⟩ := hall index hazard hget
      rw [hset, hother] at hchain'
      cases hchain'
      exact hblock.onlyJoint hcoherent
        (h.examined ⟨other, hazard⟩ ⟨index, hwithin _ _ hget, hother⟩).time
    rw [Outcome.ok_bind]
    exact (h.tame_approve hset hids hknows hwithin hjoint hjoints).bind fun _ _ => trivial

end Relied

end CrossSafety
