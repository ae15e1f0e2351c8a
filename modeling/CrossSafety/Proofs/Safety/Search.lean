import CrossSafety.Proofs.Outcome
import CrossSafety.Proofs.Table
import CrossSafety.Safety.Hazard

/-!
# What the messages of a block lead to

A message passes its checks if it is permitted, not newer than its block and stored, and comes from
a block that is accepted if it is older. A message that carries the timestamp of its block leads to
the block it comes from, which a search has found or goes on with.
-/
namespace CrossSafety

@[simp] theorem Check.result_fail {α : Type} (error : CrossSafetyError) :
    (fail error : Check α).result = .error error := rfl

@[simp] theorem Check.result_reject {α : Type} (violation : RuleViolation) :
    (reject violation : Check α).result = .error (.conflict violation) := rfl

/-- A message that a block executes passes its checks, `holder` being the block of the log that
initiated it. -/
structure MessagePasses (view : SafetyView) (set : DependencySet)
    (valid : ChainId → BlockSeal → Prop) (executor : PendingBlock) (ownIndex : MemberIndex)
    (logIndex : UInt32) (message : ExecutingMessage) (chain : ChainId) (holder : BlockSeal) :
    Prop where
  executes : set.mayExecuteAt executor.chain executor.block.timestamp = .ok true
  own : set.indexOfId executor.chain = .ok ownIndex
  notSelf : ¬(message.chain = ownIndex ∧ message.blockNumber = executor.block.number ∧
    message.logIndex = logIndex)
  member : set.idOfIndex message.chain = .ok chain
  initiates : set.mayInitiateAt chain message.timestamp = .ok true
  notNewer : message.timestamp ≤ executor.block.timestamp
  stored : view.contains chain message.query = .ok holder
  older : message.timestamp < executor.block.timestamp → valid chain holder

/-- The hazard of a chain is a block with this number and hash. -/
def Hazards.Has (hazards : Hazards) (index : MemberIndex) (block : BlockSeal) : Prop :=
  ∃ known, hazards.get? index = some known ∧ known.id = block.id

def Hazards.Within (hazards others : Hazards) : Prop :=
  ∀ index block, hazards.get? index = some block → others.get? index = some block

theorem Hazards.Has.within {hazards others : Hazards} (hwithin : hazards.Within others)
    {index : MemberIndex} {block : BlockSeal} (h : hazards.Has index block) :
    others.Has index block :=
  h.imp fun known hknown => ⟨hwithin index known hknown.1, hknown.2⟩

/-- A block passes its checks, and what it depends on at its own timestamp are hazards. -/
structure BlockPasses (view : SafetyView) (set : DependencySet)
    (valid : ChainId → BlockSeal → Prop) (hazards : Hazards) (next : PendingBlock)
    (opened : BlockContents) : Prop where
  opens : view.blockAt next.chain next.block.number = .ok opened
  same : opened.block.id = next.block.id
  messages : ∀ logIndex message, opened.messages.get? logIndex = some message →
    ∃ ownIndex chain holder,
      MessagePasses view set valid next ownIndex logIndex message chain holder ∧
        (message.timestamp = next.block.timestamp → hazards.Has message.chain holder)

theorem BlockPasses.within {view : SafetyView} {set : DependencySet}
    {valid : ChainId → BlockSeal → Prop} {hazards others : Hazards} {next : PendingBlock}
    {opened : BlockContents} (h : BlockPasses view set valid hazards next opened)
    (hwithin : hazards.Within others) : BlockPasses view set valid others next opened where
  opens := h.opens
  same := h.same
  messages logIndex message hmessage := by
    obtain ⟨ownIndex, chain, holder, hpasses, hhas⟩ := h.messages logIndex message hmessage
    exact ⟨ownIndex, chain, holder, hpasses, fun heq => (hhas heq).within hwithin⟩

theorem BlockPasses.imp {view : SafetyView} {set : DependencySet}
    {valid accepted : ChainId → BlockSeal → Prop} {hazards : Hazards} {next : PendingBlock}
    {opened : BlockContents} (h : BlockPasses view set valid hazards next opened)
    (hvalid : ∀ chain block, valid chain block → accepted chain block) :
    BlockPasses view set accepted hazards next opened where
  opens := h.opens
  same := h.same
  messages logIndex message hmessage := by
    obtain ⟨ownIndex, chain, holder, hpasses, hhas⟩ := h.messages logIndex message hmessage
    exact ⟨ownIndex, chain, holder,
      { hpasses with older := fun hlt => hvalid _ _ (hpasses.older hlt) }, hhas⟩

/-- A block executes a message that carries its own timestamp and comes from another block. -/
def SafetyView.Refers (view : SafetyView) (set : DependencySet) (executor other : PendingBlock) :
    Prop :=
  ∃ opened logIndex message, view.blockAt executor.chain executor.block.number = .ok opened ∧
    opened.messages.get? logIndex = some message ∧
    message.timestamp = executor.block.timestamp ∧
    set.idOfIndex message.chain = .ok other.chain ∧
    view.contains other.chain message.query = .ok other.block

theorem SafetyView.openExactly_eq_ok {view : SafetyView} {chain : ChainId} {block : BlockSeal}
    {opened : BlockContents} : (view.openExactly chain block).result = .ok opened ↔
      view.blockAt chain block.number = .ok opened ∧ opened.block.id = block.id := by
  simp only [openExactly, Check.result_bind, Check.result_require, Outcome.bind_eq_ok,
    Outcome.mapError_eq_ok]
  constructor
  · rintro ⟨found, hfound, h⟩
    split at h
    · cases h
      exact ⟨hfound, ‹_›⟩
    · cases h
  · rintro ⟨hfound, hsame⟩
    refine ⟨opened, hfound, ?_⟩
    rw [if_pos hsame]
    rfl

namespace HazardSearch

variable {view : SafetyView} {set : DependencySet} {check : OlderBlockCheck}
  {search next : HazardSearch}

/-- What the check of older blocks accepts. -/
def Accepts (check : OlderBlockCheck) (chain : ChainId) (block : BlockSeal) : Prop :=
  (check chain block).result = .ok ()

/-- A search goes on. The hazards it finds on the way come from `origin` and are still pending. -/
structure Grows (set : DependencySet) (origin : PendingBlock → Prop)
    (search next : HazardSearch) : Prop where
  found : search.found.Within next.found
  pending : ∀ block ∈ search.pending, block ∈ next.pending
  all : ∀ block ∈ next.pending, block ∈ search.pending ∨ origin block
  fresh : ∀ index block, next.found.get? index = some block →
    search.found.get? index = some block ∨ ∃ chain, set.idOfIndex index = .ok chain ∧
      ⟨chain, block⟩ ∈ next.pending ∧ origin ⟨chain, block⟩

theorem Grows.refl {origin : PendingBlock → Prop} (search : HazardSearch) :
    Grows set origin search search :=
  ⟨fun _ _ h => h, fun _ h => h, fun _ h => .inl h, fun _ _ h => .inl h⟩

theorem Grows.trans {origin : PendingBlock → Prop} {last : HazardSearch}
    (h : Grows set origin search next) (h' : Grows set origin next last) :
    Grows set origin search last where
  found index block hfound := h'.found index block (h.found index block hfound)
  pending block hmem := h'.pending block (h.pending block hmem)
  all block hmem := (h'.all block hmem).elim (h.all block) .inr
  fresh index block hfound := by
    rcases h'.fresh index block hfound with hfound | hnew
    · rcases h.fresh index block hfound with hfound | ⟨chain, hchain, hmem, horigin⟩
      · exact .inl hfound
      · exact .inr ⟨chain, hchain, h'.pending _ hmem, horigin⟩
    · exact .inr hnew

theorem add_eq_ok {index : MemberIndex} {chain : ChainId} {block : BlockSeal} :
    (search.add index chain block).result = .ok next ↔
      (∃ existing, search.found.get? index = some existing ∧ existing.id = block.id ∧
        next = search) ∨
      search.found.get? index = none ∧
        next = ⟨⟨chain, block⟩ :: search.pending, search.found.insert index block⟩ := by
  unfold add
  cases search.found.get? index with
  | none => simp [eq_comm]
  | some existing =>
    by_cases hsame : existing.id = block.id
    · simp [hsame, eq_comm]
    · simp only [hsame, if_false, Option.some.injEq, exists_eq_left', false_and, reduceCtorEq,
        or_self, iff_false]
      exact fun h => nomatch h

theorem add_grows {origin : PendingBlock → Prop} {index : MemberIndex} {chain : ChainId}
    {block : BlockSeal} (hchain : set.idOfIndex index = .ok chain)
    (horigin : origin ⟨chain, block⟩) (h : (search.add index chain block).result = .ok next) :
    Grows set origin search next ∧ Hazards.Has next.found index block := by
  rcases add_eq_ok.mp h with ⟨existing, hexisting, hsame, rfl⟩ | ⟨hnone, rfl⟩
  · exact ⟨.refl next, existing, hexisting, hsame⟩
  · refine ⟨⟨fun other found hfound => ?_, fun _ => List.mem_cons_of_mem _, fun pending hmem => ?_,
      fun other found hfound => ?_⟩, block, Table.get?_insert_self, rfl⟩
    · have hne : other ≠ index := by
        rintro rfl
        rw [hnone] at hfound
        cases hfound
      rwa [Table.get?_insert_of_ne hne]
    · rcases List.mem_cons.mp hmem with rfl | hmem
      · exact .inr horigin
      · exact .inl hmem
    · by_cases heq : other = index
      · subst heq
        rw [Table.get?_insert_self] at hfound
        cases hfound
        exact .inr ⟨chain, hchain, List.mem_cons_self, horigin⟩
      · rw [Table.get?_insert_of_ne heq] at hfound
        exact .inl hfound

/-- A message that was checked passes. If it carries the timestamp of its block, the search went on
with the block it comes from. -/
theorem checkMessage_eq_ok {executor : PendingBlock} {ownIndex : MemberIndex} {logIndex : UInt32}
    {message : ExecutingMessage}
    (hexecutes : set.mayExecuteAt executor.chain executor.block.timestamp = .ok true)
    (hown : set.indexOfId executor.chain = .ok ownIndex)
    (h : (checkMessage view set check ownIndex executor.block logIndex message search).result =
      .ok next) :
    ∃ chain holder, MessagePasses view set (Accepts check) executor ownIndex logIndex message
        chain holder ∧
      if message.timestamp < executor.block.timestamp then next = search
      else (search.add message.chain chain holder).result = .ok next := by
  unfold checkMessage at h
  split at h
  · cases h
  · rename_i hnotSelf
    simp only [Check.result_bind, Check.result_ofResult, Check.lookup, Outcome.bind_eq_ok,
      Outcome.mapError_eq_ok] at h
    obtain ⟨chain, hchain, initiates, hinitiates, h⟩ := h
    split at h
    · rename_i hinitiate
      subst hinitiate
      split at h
      · cases h
      · rename_i hnotNewer
        have hle : message.timestamp ≤ executor.block.timestamp := UInt64.not_lt.mp hnotNewer
        simp only [Check.result_bind, Check.result_require, Outcome.bind_eq_ok,
          Outcome.mapError_eq_ok] at h
        obtain ⟨holder, hholder, h⟩ := h
        split at h
        · rename_i hlt
          simp only [Check.result_bind, Outcome.bind_eq_ok, Check.result_pure,
            Except.ok.injEq] at h
          obtain ⟨_, hvalid, rfl⟩ := h
          exact ⟨chain, holder, ⟨hexecutes, hown, hnotSelf, hchain, hinitiates, hle, hholder,
            fun _ => hvalid⟩, by rw [if_pos hlt]⟩
        · rename_i hnotOlder
          exact ⟨chain, holder, ⟨hexecutes, hown, hnotSelf, hchain, hinitiates, hle, hholder,
            fun hlt => absurd hlt hnotOlder⟩, by rwa [if_neg hnotOlder]⟩
    · cases h

/-- Some messages of a block were checked, and the search grew by what they lead to. -/
theorem checkMessages_sound {executor : PendingBlock} {ownIndex : MemberIndex}
    {opened : BlockContents} {messages : List (UInt32 × ExecutingMessage)}
    (hopened : view.blockAt executor.chain executor.block.number = .ok opened)
    (hexecutes : set.mayExecuteAt executor.chain executor.block.timestamp = .ok true)
    (hown : set.indexOfId executor.chain = .ok ownIndex)
    (hmessages : ∀ entry ∈ messages, opened.messages.get? entry.1 = some entry.2)
    (h : (checkMessages view set check ownIndex executor.block messages search).result =
      .ok next) :
    Grows set (view.Refers set executor) search next ∧
      ∀ entry ∈ messages, ∃ chain holder,
        MessagePasses view set (Accepts check) executor ownIndex entry.1 entry.2 chain holder ∧
          (entry.2.timestamp = executor.block.timestamp →
            Hazards.Has next.found entry.2.chain holder) := by
  induction messages generalizing search with
  | nil =>
    cases h
    exact ⟨.refl next, fun _ hmem => absurd hmem List.not_mem_nil⟩
  | cons entry rest ih =>
    obtain ⟨logIndex, message⟩ := entry
    simp only [checkMessages, Check.result_bind, Outcome.bind_eq_ok] at h
    obtain ⟨middle, hfirst, hrest⟩ := h
    obtain ⟨chain, holder, hpasses, hadded⟩ := checkMessage_eq_ok hexecutes hown hfirst
    obtain ⟨hgrows, hothers⟩ := ih (fun other hmem => hmessages other (List.mem_cons_of_mem _ hmem))
      hrest
    have hstep : Grows set (view.Refers set executor) search middle ∧
        (message.timestamp = executor.block.timestamp →
          Hazards.Has middle.found message.chain holder) := by
      split at hadded
      · rename_i hlt
        subst hadded
        exact ⟨.refl middle, fun heq => absurd (heq ▸ hlt) (UInt64.lt_irrefl _)⟩
      · rename_i hnlt
        have heq : message.timestamp = executor.block.timestamp :=
          UInt64.le_antisymm hpasses.notNewer (UInt64.not_lt.mp hnlt)
        have horigin : view.Refers set executor ⟨chain, holder⟩ :=
          ⟨opened, logIndex, message, hopened, hmessages _ List.mem_cons_self, heq,
            hpasses.member, hpasses.stored⟩
        obtain ⟨hadds, hhas⟩ := add_grows hpasses.member horigin hadded
        exact ⟨hadds, fun _ => hhas⟩
    refine ⟨hstep.1.trans hgrows, fun other hmem => ?_⟩
    rcases List.mem_cons.mp hmem with rfl | hmem
    · exact ⟨chain, holder, hpasses, fun heq => (hstep.2 heq).within hgrows.found⟩
    · exact hothers other hmem

/-- What holds of a search goes on to hold while messages of a block are checked, if it does whenever
a block is added that the block refers to. -/
theorem checkMessages_induct {motive : HazardSearch → Prop} {executor : PendingBlock}
    {ownIndex : MemberIndex} {opened : BlockContents} {messages : List (UInt32 × ExecutingMessage)}
    (hadd : ∀ search index chain block, motive search → set.idOfIndex index = .ok chain →
      view.Refers set executor ⟨chain, block⟩ → search.found.get? index = none →
      motive ⟨⟨chain, block⟩ :: search.pending, search.found.insert index block⟩)
    (hopened : view.blockAt executor.chain executor.block.number = .ok opened)
    (hexecutes : set.mayExecuteAt executor.chain executor.block.timestamp = .ok true)
    (hown : set.indexOfId executor.chain = .ok ownIndex)
    (hmessages : ∀ entry ∈ messages, opened.messages.get? entry.1 = some entry.2)
    (hsearch : motive search)
    (h : (checkMessages view set check ownIndex executor.block messages search).result =
      .ok next) : motive next := by
  induction messages generalizing search with
  | nil =>
    cases h
    exact hsearch
  | cons entry rest ih =>
    obtain ⟨logIndex, message⟩ := entry
    simp only [checkMessages, Check.result_bind, Outcome.bind_eq_ok] at h
    obtain ⟨middle, hfirst, hrest⟩ := h
    refine ih (fun other hmem => hmessages other (List.mem_cons_of_mem _ hmem)) ?_ hrest
    obtain ⟨chain, holder, hpasses, hadded⟩ := checkMessage_eq_ok hexecutes hown hfirst
    split at hadded
    · rw [hadded]
      exact hsearch
    · rename_i hnlt
      rcases add_eq_ok.mp hadded with ⟨_, -, -, rfl⟩ | ⟨hnone, rfl⟩
      · exact hsearch
      · exact hadd search message.chain chain holder hsearch hpasses.member
          ⟨opened, logIndex, message, hopened, hmessages _ List.mem_cons_self,
            UInt64.le_antisymm hpasses.notNewer (UInt64.not_lt.mp hnlt), hpasses.member,
            hpasses.stored⟩ hnone

end HazardSearch

end CrossSafety
