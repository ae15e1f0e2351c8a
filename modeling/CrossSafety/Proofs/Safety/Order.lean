import CrossSafety.Proofs.Outcome
import CrossSafety.Proofs.Safety.Placement
import CrossSafety.Proofs.Safety.Search
import CrossSafety.Proofs.Table

/-!
# What the check of the order decides

The check passes exactly if all hazard blocks open, each message of the timestamp may be waited
for, and the logs of the hazard blocks have ranks under which a log that initiates a message comes
before the log that executes it.
-/
namespace CrossSafety.Hazards

/-- A hazard block as the check of the order opens it. -/
structure Opens (view : SafetyView) (set : DependencySet) (index : MemberIndex)
    (block : BlockSeal) (opened : BlockContents) : Prop where
  member : ∃ chain, set.idOfIndex index = .ok chain ∧
    view.blockAt chain block.number = .ok opened
  same : opened.block.id = block.id
  inside : ∀ logIndex message, opened.messages.get? logIndex = some message →
    logIndex < opened.logCount

structure OpenedAs (view : SafetyView) (set : DependencySet) (hazards : Hazards)
    (blocks : Table MemberIndex BlockContents) : Prop where
  opens : ∀ index opened, blocks.get? index = some opened →
    ∃ block, hazards.get? index = some block ∧ Opens view set index block opened
  all : ∀ index block, hazards.get? index = some block → ∃ opened, blocks.get? index = some opened

/-- A message of the timestamp is not its own initiator, and it points into the hazard block of its
chain or to another block. -/
def MayWait (blocks : Table MemberIndex BlockContents) (timestamp : UInt64) (index : MemberIndex)
    (logIndex : UInt32) (message : ExecutingMessage) : Prop :=
  message.timestamp = timestamp → ∃ initiating, blocks.get? message.chain = some initiating ∧
    ¬(message.chain = index ∧ message.logIndex = logIndex) ∧
    (message.blockNumber = initiating.block.number → message.logIndex < initiating.logCount)

def AllMayWait (blocks : Table MemberIndex BlockContents) (timestamp : UInt64) : Prop :=
  ∀ index opened, blocks.get? index = some opened →
    ∀ logIndex message, opened.messages.get? logIndex = some message →
      MayWait blocks timestamp index logIndex message

/-- Ranks of the logs of hazard blocks that respect the order of each block and the messages of the
timestamp. -/
structure InOrder (blocks : Table MemberIndex BlockContents) (timestamp : UInt64)
    (rank : MemberIndex → Nat → Nat) : Prop where
  mono : ∀ index a b, a ≤ b → rank index a ≤ rank index b
  before : ∀ index opened logIndex message initiating, blocks.get? index = some opened →
    opened.messages.get? logIndex = some message → message.timestamp = timestamp →
    blocks.get? message.chain = some initiating →
    message.blockNumber = initiating.block.number →
    rank message.chain message.logIndex.toNat < rank index logIndex.toNat

variable {view : SafetyView} {set : DependencySet} {blocks : Table MemberIndex BlockContents}
  {timestamp : UInt64} {index : MemberIndex}

/-! ## Opening the blocks -/

theorem openHazard_eq_ok {block : BlockSeal} {opened : BlockContents} :
    (openHazard view set index block).result = .ok opened ↔
      Opens view set index block opened := by
  simp only [openHazard, Check.result_bind, Check.result_ofResult, Outcome.bind_eq_ok,
    Outcome.mapError_eq_ok, SafetyView.openExactly_eq_ok]
  constructor
  · rintro ⟨chain, hchain, found, ⟨hfound, hsame⟩, h⟩
    split at h
    · cases h
    · rename_i hnone
      cases h
      refine ⟨⟨chain, hchain, hfound⟩, hsame, fun logIndex message hmessage => ?_⟩
      have hkey := List.find?_eq_none.mp hnone logIndex (Table.mem_keys.mpr ⟨_, hmessage⟩)
      exact UInt32.not_le.mp fun hle => hkey (decide_eq_true hle)
  · rintro ⟨⟨chain, hchain, hfound⟩, hsame, hinside⟩
    refine ⟨chain, hchain, opened, ⟨hfound, hsame⟩, ?_⟩
    have hnone : (opened.messages.keys.find? fun logIndex => opened.logCount ≤ logIndex) =
        none := by
      refine List.find?_eq_none.mpr fun logIndex hmem hle => ?_
      obtain ⟨message, hmessage⟩ := Table.mem_keys.mp hmem
      exact UInt32.not_le.mpr (hinside logIndex message hmessage) (of_decide_eq_true hle)
    rw [hnone]
    rfl

theorem openHazards_sound {entries : List (MemberIndex × BlockSeal)}
    {opened : Table MemberIndex BlockContents}
    (h : (openHazards view set entries opened).result = .ok blocks) :
    (∀ index contents, blocks.get? index = some contents → opened.get? index = some contents ∨
      ∃ block, (index, block) ∈ entries ∧ Opens view set index block contents) ∧
    ∀ index, (∃ contents, opened.get? index = some contents) ∨
      (∃ block, (index, block) ∈ entries) → ∃ contents, blocks.get? index = some contents := by
  induction entries generalizing opened with
  | nil =>
    cases h
    exact ⟨fun _ _ h => .inl h, fun _ h => h.elim id fun ⟨_, hmem⟩ => absurd hmem
      List.not_mem_nil⟩
  | cons entry rest ih =>
    obtain ⟨index, block⟩ := entry
    simp only [openHazards, Check.result_bind, Outcome.bind_eq_ok, openHazard_eq_ok] at h
    obtain ⟨first, hfirst, hrest⟩ := h
    obtain ⟨hfrom, hall⟩ := ih hrest
    constructor
    · intro other contents hget
      rcases hfrom other contents hget with hold | ⟨found, hmem, hopens⟩
      · by_cases heq : other = index
        · subst heq
          rw [Table.get?_insert_self] at hold
          cases hold
          exact .inr ⟨block, List.mem_cons_self, hfirst⟩
        · rw [Table.get?_insert_of_ne heq] at hold
          exact .inl hold
      · exact .inr ⟨found, List.mem_cons_of_mem _ hmem, hopens⟩
    · intro other hother
      by_cases heq : other = index
      · subst heq
        exact hall other (.inl ⟨first, Table.get?_insert_self⟩)
      · refine hall other (hother.imp (fun ⟨contents, hget⟩ => ?_) fun ⟨found, hmem⟩ => ?_)
        · exact ⟨contents, by rwa [Table.get?_insert_of_ne heq]⟩
        · refine ⟨found, (List.mem_cons.mp hmem).resolve_left fun hpair => heq ?_⟩
          exact congrArg Prod.fst hpair

theorem exists_openHazards {entries : List (MemberIndex × BlockSeal)}
    {opened : Table MemberIndex BlockContents}
    (h : ∀ entry ∈ entries, ∃ contents, Opens view set entry.1 entry.2 contents) :
    ∃ blocks, (openHazards view set entries opened).result = .ok blocks := by
  induction entries generalizing opened with
  | nil => exact ⟨opened, rfl⟩
  | cons entry rest ih =>
    obtain ⟨contents, hcontents⟩ := h entry List.mem_cons_self
    obtain ⟨blocks, hblocks⟩ : ∃ blocks,
        (openHazards view set rest (opened.insert entry.1 contents)).result = .ok blocks :=
      ih fun other hmem => h other (List.mem_cons_of_mem _ hmem)
    refine ⟨blocks, ?_⟩
    rw [openHazards, Check.result_bind, openHazard_eq_ok.mpr hcontents]
    exact hblocks

theorem openedAs_of_openHazards {hazards : Hazards}
    (h : (openHazards view set hazards.toList .empty).result = .ok blocks) :
    OpenedAs view set hazards blocks := by
  obtain ⟨hfrom, hall⟩ := openHazards_sound h
  constructor
  · intro index opened hget
    rcases hfrom index opened hget with hnone | ⟨block, hmem, hopens⟩
    · cases hnone
    · exact ⟨block, Table.mem_toList.mp hmem, hopens⟩
  · intro index block hget
    exact hall index (.inr ⟨block, Table.mem_toList.mpr hget⟩)

/-! ## The waits -/

theorem waitOf_eq_some {logIndex : UInt32} {message : ExecutingMessage} {wait : LogWait} :
    waitOf blocks timestamp index logIndex message = .ok (some wait) ↔
      message.timestamp = timestamp ∧ ∃ initiating,
        blocks.get? message.chain = some initiating ∧
        ¬(message.chain = index ∧ message.logIndex = logIndex) ∧
        message.blockNumber = initiating.block.number ∧
        message.logIndex < initiating.logCount ∧
        wait = ⟨logIndex.toNat, message.chain, message.logIndex.toNat⟩ := by
  unfold waitOf
  by_cases htime : message.timestamp = timestamp
  · cases hget : blocks.get? message.chain with
    | none => simp [htime]
    | some initiating =>
      by_cases hself : message.chain = index ∧ message.logIndex = logIndex
      · simp [htime, hself]
      · by_cases hblock : message.blockNumber = initiating.block.number
        · by_cases hinside : initiating.logCount ≤ message.logIndex
          · simp [htime, hself, hblock, hinside, UInt32.not_lt.mpr hinside]
          · simp only [htime, hself, hblock, hinside, UInt32.not_le.mp hinside, ne_eq,
              not_true_eq_false, not_false_eq_true, if_false, Except.ok.injEq,
              Option.some.injEq, exists_eq_left', true_and]
            exact eq_comm
        · simp [htime, hself, hblock]
  · simp [htime]

theorem exists_waitOf_eq_ok {logIndex : UInt32} {message : ExecutingMessage} :
    (∃ wait, waitOf blocks timestamp index logIndex message = .ok wait) ↔
      MayWait blocks timestamp index logIndex message := by
  unfold waitOf MayWait
  by_cases htime : message.timestamp = timestamp
  · cases hget : blocks.get? message.chain with
    | none => simp [htime]
    | some initiating =>
      by_cases hself : message.chain = index ∧ message.logIndex = logIndex
      · simp [htime, hself]
      · by_cases hblock : message.blockNumber = initiating.block.number
        · by_cases hinside : initiating.logCount ≤ message.logIndex
          · simp [htime, hself, hblock, hinside, UInt32.not_lt.mpr hinside]
          · simp [htime, hself, hblock, hinside, UInt32.not_le.mp hinside]
        · simp [htime, hself, hblock]
  · simp [htime]

/-- The waits of some messages are those of each of them, in order. -/
theorem waitsOf_sound {messages : List (UInt32 × ExecutingMessage)} {waits : List LogWait}
    (hsorted : messages.Pairwise fun a b => Numbered.number a.1 < Numbered.number b.1)
    (h : waitsOf blocks timestamp index messages = .ok waits) :
    (∀ entry ∈ messages, MayWait blocks timestamp index entry.1 entry.2) ∧
      (∀ wait, wait ∈ waits ↔
        ∃ entry ∈ messages, waitOf blocks timestamp index entry.1 entry.2 = .ok (some wait)) ∧
      waits.Pairwise fun a b => a.log < b.log := by
  induction messages generalizing waits with
  | nil =>
    cases h
    simp
  | cons entry rest ih =>
    obtain ⟨logIndex, message⟩ := entry
    rw [waitsOf] at h
    obtain ⟨wait, hwait, h⟩ := Outcome.bind_eq_ok.mp h
    obtain ⟨others, hothers, h⟩ := Outcome.bind_eq_ok.mp h
    cases h
    obtain ⟨hbefore, hrest⟩ := List.pairwise_cons.mp hsorted
    obtain ⟨hmay, hmem, hpairwise⟩ := ih hrest hothers
    refine ⟨List.forall_mem_cons.mpr ⟨exists_waitOf_eq_ok.mp ⟨wait, hwait⟩, hmay⟩, fun other => ?_,
      ?_⟩
    · simp only [List.mem_append, List.mem_cons, exists_eq_or_imp, hwait, Except.ok.injEq, hmem,
        Option.mem_toList]
    · refine List.pairwise_append.mpr ⟨?_, hpairwise, fun a ha b hb => ?_⟩
      · cases wait <;> simp
      · obtain ⟨entry, hentry, hb⟩ := (hmem b).mp hb
        rw [Option.mem_toList.mp ha] at hwait
        obtain ⟨-, -, -, -, -, -, rfl⟩ := waitOf_eq_some.mp hwait
        obtain ⟨-, -, -, -, -, -, rfl⟩ := waitOf_eq_some.mp hb
        exact hbefore entry hentry

theorem exists_waitsOf {messages : List (UInt32 × ExecutingMessage)}
    (h : ∀ entry ∈ messages, MayWait blocks timestamp index entry.1 entry.2) :
    ∃ waits, waitsOf blocks timestamp index messages = .ok waits := by
  induction messages with
  | nil => exact ⟨[], rfl⟩
  | cons entry rest ih =>
    obtain ⟨hfirst, hrest⟩ := List.forall_mem_cons.mp h
    obtain ⟨wait, hwait⟩ := exists_waitOf_eq_ok.mpr hfirst
    obtain ⟨waits, hwaits⟩ := ih hrest
    refine ⟨wait.toList ++ waits, ?_⟩
    rw [waitsOf, hwait, hwaits]
    rfl

/-- The blocks with their waits, as they are placed. -/
structure WaitsAs (blocks : Table MemberIndex BlockContents) (timestamp : UInt64)
    (waiting : List WaitingLogs) : Prop where
  opened : ∀ block ∈ waiting, ∃ opened, blocks.get? block.chain = some opened ∧
    block.logCount = opened.logCount.toNat ∧
    waitsOf blocks timestamp block.chain opened.messages.toList = .ok block.waits
  all : ∀ index opened, blocks.get? index = some opened →
    ∃ waits, waitsOf blocks timestamp index opened.messages.toList = .ok waits ∧
      ⟨index, opened.logCount.toNat, waits⟩ ∈ waiting

theorem waitsAs_of_waits {waiting : List WaitingLogs}
    (h : waits blocks timestamp = .ok waiting) : WaitsAs blocks timestamp waiting := by
  obtain ⟨hforth, hback⟩ := Outcome.mapM_mem h
  constructor
  · intro block hmem
    obtain ⟨⟨index, opened⟩, hentry, hblock⟩ := hback block hmem
    obtain ⟨waits, hwaits, hblock⟩ := Outcome.bind_eq_ok.mp hblock
    cases hblock
    exact ⟨opened, Table.mem_toList.mp hentry, rfl, hwaits⟩
  · intro index opened hget
    obtain ⟨block, hmem, hblock⟩ := hforth (index, opened) (Table.mem_toList.mpr hget)
    obtain ⟨waits, hwaits, hblock⟩ := Outcome.bind_eq_ok.mp hblock
    cases hblock
    exact ⟨waits, hwaits, hmem⟩

namespace WaitsAs

variable {waiting : List WaitingLogs}

/-- Every wait stands for a message of the timestamp that points into a hazard block. -/
theorem mem_waits (h : WaitsAs blocks timestamp waiting) {block : WaitingLogs}
    (hmem : block ∈ waiting) (wait : LogWait) : wait ∈ block.waits ↔
      ∃ opened logIndex message, blocks.get? block.chain = some opened ∧
        opened.messages.get? logIndex = some message ∧
        waitOf blocks timestamp block.chain logIndex message = .ok (some wait) := by
  obtain ⟨opened, hget, -, hwaits⟩ := h.opened block hmem
  rw [(waitsOf_sound opened.messages.toList_ascending hwaits).2.1 wait]
  constructor
  · rintro ⟨entry, hentry, hwait⟩
    exact ⟨opened, entry.1, entry.2, hget, Table.mem_toList.mp hentry, hwait⟩
  · rintro ⟨found, logIndex, message, hfound, hmessage, hwait⟩
    rw [hget] at hfound
    cases hfound
    exact ⟨(logIndex, message), Table.mem_toList.mpr hmessage, hwait⟩

theorem mayWait (h : WaitsAs blocks timestamp waiting) : AllMayWait blocks timestamp := by
  intro index opened hget logIndex message hmessage
  obtain ⟨waits, hwaits, -⟩ := h.all index opened hget
  exact (waitsOf_sound opened.messages.toList_ascending hwaits).1 (logIndex, message)
    (Table.mem_toList.mpr hmessage)

theorem wellFormed (h : WaitsAs blocks timestamp waiting) : WaitingLogs.WellFormed waiting where
  distinct := by
    rintro ⟨chain, count, waits⟩ ha ⟨_, count', waits'⟩ hb rfl
    obtain ⟨opened, hget, hcount, hwaits⟩ := h.opened _ ha
    obtain ⟨opened', hget', hcount', hwaits'⟩ := h.opened _ hb
    dsimp only at *
    rw [hget] at hget'
    cases hget'
    rw [hwaits] at hwaits'
    cases hwaits'
    rw [hcount, hcount']
  sorted := by
    intro block hmem
    obtain ⟨opened, -, -, hwaits⟩ := h.opened block hmem
    exact (waitsOf_sound opened.messages.toList_ascending hwaits).2.2

theorem targeted (h : WaitsAs blocks timestamp waiting) : WaitingLogs.Targeted waiting := by
  intro block hmem wait hwait
  obtain ⟨_, logIndex, message, -, -, hwait⟩ := (h.mem_waits hmem wait).mp hwait
  obtain ⟨-, initiating, hget, -, -, hinside, rfl⟩ := waitOf_eq_some.mp hwait
  obtain ⟨waits, -, hinitiating⟩ := h.all message.chain initiating hget
  exact ⟨_, hinitiating, rfl, UInt32.lt_iff_toNat_lt.mp hinside⟩

/-- The waits have ranks exactly if the messages have. -/
theorem ranks_iff (h : WaitsAs blocks timestamp waiting) {rank : MemberIndex → Nat → Nat} :
    WaitingLogs.Ranks rank waiting ↔ InOrder blocks timestamp rank := by
  constructor
  · refine fun hranks => ⟨hranks.mono, ?_⟩
    intro index opened logIndex message initiating hget hmessage htime hinitiating hblock
    obtain ⟨waits, -, hmem⟩ := h.all index opened hget
    obtain ⟨found, hfound, hother, hinside⟩ := h.mayWait index opened hget logIndex message hmessage htime
    rw [hinitiating] at hfound
    cases hfound
    refine hranks.waits _ hmem ⟨logIndex.toNat, message.chain, message.logIndex.toNat⟩ ?_
    refine (h.mem_waits hmem _).mpr ⟨opened, logIndex, message, hget, hmessage, ?_⟩
    exact waitOf_eq_some.mpr ⟨htime, initiating, hinitiating, hother, hblock, hinside hblock, rfl⟩
  · refine fun hranks => ⟨hranks.mono, fun block hmem wait hwait => ?_⟩
    obtain ⟨opened, logIndex, message, hget, hmessage, hwait⟩ := (h.mem_waits hmem wait).mp hwait
    obtain ⟨htime, initiating, hinitiating, -, hblock, -, rfl⟩ := waitOf_eq_some.mp hwait
    exact hranks.before _ opened logIndex message initiating hget hmessage htime hinitiating hblock

end WaitsAs

theorem exists_waits (h : AllMayWait blocks timestamp) :
    ∃ waiting, waits blocks timestamp = .ok waiting := by
  refine Outcome.exists_mapM_eq_ok fun ⟨index, opened⟩ hmem => ?_
  obtain ⟨waits, hwaits⟩ := exists_waitsOf fun entry hentry =>
    h index opened (Table.mem_toList.mp hmem) entry.1 entry.2 (Table.mem_toList.mp hentry)
  exact ⟨_, Outcome.bind_eq_ok.mpr ⟨waits, hwaits, rfl⟩⟩

/-! ## The check -/

/-- The hazard blocks open, their messages of the timestamp may wait, and their logs have ranks. -/
structure Ordered (view : SafetyView) (set : DependencySet) (timestamp : UInt64)
    (hazards : Hazards) (blocks : Table MemberIndex BlockContents)
    (rank : MemberIndex → Nat → Nat) : Prop where
  opened : OpenedAs view set hazards blocks
  mayWait : ∀ index opened, blocks.get? index = some opened →
    ∀ logIndex message, opened.messages.get? logIndex = some message →
      MayWait blocks timestamp index logIndex message
  inOrder : InOrder blocks timestamp rank

/-- A check of the order that passes gives ranks, which are bounded. -/
theorem checkOrder_sound {hazards : Hazards}
    (h : (checkOrder view set timestamp hazards).result = .ok ()) :
    ∃ blocks rank bound, Ordered view set timestamp hazards blocks rank ∧
      ∀ index log, rank index log ≤ bound := by
  simp only [checkOrder, Check.result_bind, Check.result_ofResult, Outcome.bind_eq_ok,
    Outcome.mapError_eq_ok] at h
  obtain ⟨blocks, hblocks, waiting, hwaiting, h⟩ := h
  have hwaits := waitsAs_of_waits hwaiting
  split at h
  · rename_i hplaced
    obtain ⟨rank, bound, hranks, hbound⟩ := WaitingLogs.exists_ranks hwaits.wellFormed hplaced
    exact ⟨blocks, rank, bound, ⟨openedAs_of_openHazards hblocks, hwaits.mayWait,
      hwaits.ranks_iff.mp hranks⟩, hbound⟩
  · cases h

/-- Hazards that open, may wait and have ranks pass the check of the order. -/
theorem checkOrder_complete {hazards : Hazards} {rank : MemberIndex → Nat → Nat}
    (hblocks : (openHazards view set hazards.toList .empty).result = .ok blocks)
    (hmay : AllMayWait blocks timestamp) (hranks : InOrder blocks timestamp rank) :
    (checkOrder view set timestamp hazards).result = .ok () := by
  obtain ⟨waiting, hwaiting⟩ := exists_waits hmay
  have hwaits := waitsAs_of_waits hwaiting
  have hplaced := WaitingLogs.canBePlaced_of_ranks hwaits.wellFormed hwaits.targeted
    (hwaits.ranks_iff.mpr hranks)
  simp only [checkOrder, Check.result_bind, Check.result_ofResult, hblocks, hwaiting,
    Outcome.mapError_ok, Outcome.ok_bind, hplaced, if_true]
  rfl

theorem Opens.unique {block : BlockSeal} {opened other : BlockContents}
    (h : Opens view set index block opened) (h' : Opens view set index block other) :
    opened = other := by
  obtain ⟨chain, hchain, hopened⟩ := h.member
  obtain ⟨chain', hchain', hother⟩ := h'.member
  rw [hchain] at hchain'
  cases hchain'
  rw [hopened] at hother
  cases hother
  rfl

/-- Some of the hazards of an ordered set, opened, are opened in the same way. -/
theorem OpenedAs.within {hazards others : Hazards} {fewer : Table MemberIndex BlockContents}
    (h : OpenedAs view set hazards fewer) (hall : OpenedAs view set others blocks)
    (hwithin : hazards.Within others) {opened : BlockContents}
    (hget : fewer.get? index = some opened) : blocks.get? index = some opened := by
  obtain ⟨hazard, hhazard, hopens⟩ := h.opens index opened hget
  obtain ⟨other, hother⟩ := hall.all index hazard (hwithin index hazard hhazard)
  obtain ⟨known, hknown, hopens'⟩ := hall.opens index other hother
  rw [hwithin index hazard hhazard] at hknown
  cases hknown
  rw [hother, hopens.unique hopens']

end CrossSafety.Hazards
