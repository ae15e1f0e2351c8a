import CrossSafety.Proofs.Safety.Drawing

/-!
# The check of the order decides whether logs can be put in order

A list of all logs of the hazard blocks is an order of theirs if it keeps the order of each block and
has each log that initiates a message of the timestamp before the log that executes it. The check
passes only if there is such a list, and it finds a cycle only if there is none. If the hazard blocks
open and their messages point into the hazard set, it does one or the other.
-/
namespace CrossSafety

/-- A log of a hazard block: the chain index of the block and the position of the log. -/
structure HazardLog where
  chain : MemberIndex
  index : UInt32
deriving DecidableEq

namespace Hazards

/-- A hazard block as its chain stores it. -/
def Stored (view : SafetyView) (set : DependencySet) (hazards : Hazards) (index : MemberIndex)
    (opened : BlockContents) : Prop :=
  ∃ hazard chain, hazards.get? index = some hazard ∧ set.idOfIndex index = .ok chain ∧
    view.blockAt chain hazard.number = .ok opened ∧ opened.block.id = hazard.id

/-- All logs of some blocks, one per chain index, in an order that keeps each block's own order and
has every initiating log of the timestamp before the executing one. -/
structure LogOrder (stored : MemberIndex → BlockContents → Prop) (timestamp : UInt64)
    (order : List HazardLog) : Prop where
  nodup : order.Nodup
  mem : ∀ log, log ∈ order ↔ ∃ opened, stored log.chain opened ∧ log.index < opened.logCount
  inBlock : ∀ a ∈ order, ∀ b ∈ order, a.chain = b.chain → a.index < b.index →
    [a, b].Sublist order
  messages : ∀ index opened logIndex message initiating, stored index opened →
    opened.messages.get? logIndex = some message → message.timestamp = timestamp →
    stored message.chain initiating → message.blockNumber = initiating.block.number →
    message.logIndex < initiating.logCount →
    [⟨message.chain, message.logIndex⟩, ⟨index, logIndex⟩].Sublist order

/-- The hazard blocks open, their executing logs are logs of theirs, and each of their messages of
the timestamp names a hazard, not its own log, and a log of the hazard block if it points to that
block. -/
structure Answerable (view : SafetyView) (set : DependencySet) (timestamp : UInt64)
    (hazards : Hazards) : Prop where
  opens : ∀ index hazard, hazards.get? index = some hazard →
    ∃ opened, Stored view set hazards index opened
  inside : ∀ index opened logIndex message, Stored view set hazards index opened →
    opened.messages.get? logIndex = some message → logIndex < opened.logCount
  messages : ∀ index opened logIndex message, Stored view set hazards index opened →
    opened.messages.get? logIndex = some message → message.timestamp = timestamp →
    (∃ hazard, hazards.get? message.chain = some hazard) ∧
      ¬(message.chain = index ∧ message.logIndex = logIndex) ∧
      ∀ initiating, Stored view set hazards message.chain initiating →
        message.blockNumber = initiating.block.number → message.logIndex < initiating.logCount

variable {view : SafetyView} {set : DependencySet} {timestamp : UInt64} {hazards : Hazards}
  {blocks : Table MemberIndex BlockContents}

/-! ## Orders and ranks -/

theorem exists_hazardLogs (blocks : Table MemberIndex BlockContents) :
    ∃ logs : List HazardLog, ∀ log, log ∈ logs ↔
      ∃ opened, blocks.get? log.chain = some opened ∧ log.index < opened.logCount := by
  refine ⟨blocks.toList.flatMap fun entry =>
    (List.range entry.2.logCount.toNat).map fun log => ⟨entry.1, .ofNat log⟩, fun log => ?_⟩
  obtain ⟨chain, index⟩ := log
  simp only [List.mem_flatMap, List.mem_map, List.mem_range, HazardLog.mk.injEq]
  constructor
  · rintro ⟨⟨_, opened⟩, hmem, log, hlog, rfl, rfl⟩
    refine ⟨opened, Table.mem_toList.mp hmem, UInt32.lt_iff_toNat_lt.mpr ?_⟩
    rw [UInt32.toNat_ofNat', Nat.mod_eq_of_lt (Nat.lt_trans hlog opened.logCount.toNat_lt)]
    exact hlog
  · rintro ⟨opened, hget, hlt⟩
    exact ⟨(chain, opened), Table.mem_toList.mpr hget, index.toNat, UInt32.lt_iff_toNat_lt.mp hlt,
      rfl, UInt32.ofNat_toNat⟩

/-- The places in an order are ranks of the links. -/
theorem LogOrder.ranksLinks {order : List HazardLog}
    (h : LogOrder (fun index opened => blocks.get? index = some opened) timestamp order) :
    RanksLinks blocks timestamp fun log => order.idxOf ⟨log.1, .ofNat log.2⟩ := by
  intro first second hlink
  refine idxOf_lt_of_sublist h.nodup ?_
  cases hlink with
  | @next index opened log hget hlog =>
    have hbound := opened.logCount.toNat_lt
    have hplace (position : Nat) (hlt : position < opened.logCount.toNat) :
        (UInt32.ofNat position).toNat = position := by
      rw [UInt32.toNat_ofNat', Nat.mod_eq_of_lt (Nat.lt_trans hlt hbound)]
    have hmem (position : Nat) (hlt : position < opened.logCount.toNat) :
        ⟨index, .ofNat position⟩ ∈ order := by
      refine (h.mem _).mpr ⟨opened, hget, UInt32.lt_iff_toNat_lt.mpr ?_⟩
      rwa [hplace position hlt]
    refine h.inBlock _ (hmem log (by omega)) _ (hmem (log + 1) hlog) rfl
      (UInt32.lt_iff_toNat_lt.mpr ?_)
    rw [hplace log (by omega), hplace (log + 1) hlog]
    exact Nat.lt_succ_self log
  | @message index opened logIndex message wait hget hmessage hwait =>
    obtain ⟨htime, initiating, hinitiating, -, hnumber, hlt, rfl⟩ := waitOf_eq_some.mp hwait
    rw [UInt32.ofNat_toNat, UInt32.ofNat_toNat]
    exact h.messages index opened logIndex message initiating hget hmessage htime hinitiating
      hnumber hlt

/-- Logs that have ranks can be put in order. -/
theorem RanksLinks.exists_logOrder {rank : MemberIndex × Nat → Nat}
    (hrank : RanksLinks blocks timestamp rank) (hinside : Inside blocks)
    (hmay : AllMayWait blocks timestamp) :
    ∃ order, LogOrder (fun index opened => blocks.get? index = some opened) timestamp order := by
  obtain ⟨logs, hlogs⟩ := exists_hazardLogs blocks
  obtain ⟨order, hnodup, hmem, hkeys⟩ :=
    exists_sorted logs fun log => rank (log.chain, log.index.toNat)
  have hall (log : HazardLog) : log ∈ order ↔
      ∃ opened, blocks.get? log.chain = some opened ∧ log.index < opened.logCount := by
    rw [hmem, hlogs]
  refine ⟨order, hnodup, hall, ?_, ?_⟩
  · rintro ⟨chain, first⟩ ha ⟨_, second⟩ hb rfl hlt
    obtain ⟨opened, hget, hsecond⟩ := (hall _).mp hb
    exact hkeys _ ha _ hb (hrank.lt_of_lt hget (UInt32.lt_iff_toNat_lt.mp hlt)
      (UInt32.lt_iff_toNat_lt.mp hsecond))
  · intro index opened logIndex message initiating hget hmessage htime hinitiating hnumber hlt
    obtain ⟨_, -, hother, -⟩ := hmay index opened hget logIndex message hmessage htime
    refine hkeys _ ((hall _).mpr ⟨initiating, hinitiating, hlt⟩) _ ((hall _).mpr ⟨opened, hget,
      hinside index opened hget logIndex message hmessage⟩) ?_
    exact hrank _ _ (.message hget hmessage (waitOf_eq_some.mpr
      ⟨htime, initiating, hinitiating, hother, hnumber, hlt, rfl⟩))

theorem exists_logOrder_iff (hinside : Inside blocks)
    (hmay : AllMayWait blocks timestamp) :
    (∃ order, LogOrder (fun index opened => blocks.get? index = some opened) timestamp order) ↔
      ∃ rank, InOrder blocks timestamp rank := by
  rw [← exists_ranksLinks_iff hinside hmay]
  constructor
  · rintro ⟨order, horder⟩
    exact ⟨_, horder.ranksLinks⟩
  · rintro ⟨rank, hrank⟩
    exact hrank.exists_logOrder hinside hmay

/-! ## How the check ends -/

theorem OpenedAs.stored_eq (h : OpenedAs view set hazards blocks) :
    Stored view set hazards = fun index opened => blocks.get? index = some opened := by
  funext index opened
  refine propext ⟨?_, fun hget => ?_⟩
  · rintro ⟨hazard, chain, hget, hchain, hblock, -⟩
    obtain ⟨found, hfound⟩ := h.all index hazard hget
    obtain ⟨_, hknown, ⟨other, hother, hstored⟩, -, -⟩ := h.opens index found hfound
    cases hget.symm.trans hknown
    cases hchain.symm.trans hother
    cases hblock.symm.trans hstored
    exact hfound
  · obtain ⟨hazard, hhazard, ⟨chain, hchain, hblock⟩, hsame, -⟩ := h.opens index opened hget
    exact ⟨hazard, chain, hhazard, hchain, hblock, hsame⟩

theorem OpenedAs.stores (h : OpenedAs view set hazards blocks) :
    ∀ index hazard, hazards.get? index = some hazard →
      ∃ opened, Stored view set hazards index opened := by
  rw [h.stored_eq]
  exact h.all

theorem openHazards_isCycle {entries : List (MemberIndex × BlockSeal)}
    {opened : Table MemberIndex BlockContents} {error : CrossSafetyError}
    (h : (openHazards view set entries opened).result = .error error) : error.isCycle = false := by
  induction entries generalizing opened with
  | nil => cases h
  | cons entry rest ih =>
    obtain ⟨index, block⟩ := entry
    simp only [openHazards, openHazard, SafetyView.openExactly, Check.result_bind,
      Check.result_ofResult, Check.result_require, Outcome.bind_eq_error,
      Outcome.mapError_eq_error] at h
    rcases h with (⟨cause, -, rfl⟩ | ⟨chain, -, (⟨cause, -, rfl⟩ | ⟨found, -, hfound⟩) |
      ⟨found, -, hfound⟩⟩) | ⟨contents, -, hrest⟩
    · cases cause <;> rfl
    · rfl
    · split at hfound <;> cases hfound
      rfl
    · split at hfound <;> cases hfound
      rfl
    · exact ih hrest

theorem waitOf_error {index : MemberIndex} {logIndex : UInt32} {message : ExecutingMessage}
    {violation : RuleViolation}
    (h : waitOf blocks timestamp index logIndex message = .error violation) :
    (CrossSafetyError.conflict violation).isCycle = false := by
  unfold waitOf at h
  split at h
  · cases h
  · split at h
    · cases h
      rfl
    · split at h
      · cases h
        rfl
      · split at h
        · cases h
        · split at h <;> cases h
          rfl

theorem waitsOf_error {index : MemberIndex} {messages : List (UInt32 × ExecutingMessage)}
    {violation : RuleViolation} (h : waitsOf blocks timestamp index messages = .error violation) :
    (CrossSafetyError.conflict violation).isCycle = false := by
  induction messages with
  | nil => cases h
  | cons entry rest ih =>
    simp only [waitsOf, Outcome.bind_eq_error] at h
    rcases h with hwait | ⟨wait, -, hrest | ⟨_, -, hdone⟩⟩
    · exact waitOf_error hwait
    · exact ih hrest
    · cases hdone

theorem waits_error {violation : RuleViolation} (h : waits blocks timestamp = .error violation) :
    (CrossSafetyError.conflict violation).isCycle = false := by
  obtain ⟨entry, -, hentry⟩ := Outcome.mapM_eq_error h
  rcases Outcome.bind_eq_error.mp hentry with hmessages | ⟨_, -, hdone⟩
  · exact waitsOf_error hmessages
  · cases hdone

/-- The check finds a cycle in blocks that open, with messages that may wait. -/
theorem checkOrder_eq_cycle {error : CrossSafetyError}
    (h : (checkOrder view set timestamp hazards).result = .error error)
    (hcycle : error.isCycle = true) :
    ∃ blocks waiting, (openHazards view set hazards.toList .empty).result = .ok blocks ∧
      waits blocks timestamp = .ok waiting := by
  simp only [checkOrder, Check.result_bind, Check.result_ofResult, Outcome.bind_eq_error,
    Outcome.mapError_eq_error] at h
  rcases h with hopen | ⟨blocks, hblocks, ⟨violation, hwaits, rfl⟩ | ⟨waiting, hwaits, -⟩⟩
  · rw [openHazards_isCycle hopen] at hcycle
    cases hcycle
  · rw [waits_error hwaits] at hcycle
    cases hcycle
  · exact ⟨blocks, waiting, hblocks, Outcome.mapError_eq_ok.mp hwaits⟩

/-- The order of hazards that open, with messages that may wait, is found or a cycle is. -/
theorem checkOrder_cases (hblocks : (openHazards view set hazards.toList .empty).result = .ok blocks)
    (hmay : AllMayWait blocks timestamp) :
    (checkOrder view set timestamp hazards).result = .ok () ∨
      (checkOrder view set timestamp hazards).result = .error (.conflict (.cycle timestamp)) := by
  obtain ⟨waiting, hwaiting⟩ := exists_waits hmay
  simp only [checkOrder, Check.result_bind, Check.result_ofResult, hblocks, hwaiting,
    Outcome.mapError_ok, Outcome.ok_bind]
  split
  · exact .inl rfl
  · exact .inr rfl

theorem Answerable.exists_openHazards (h : Answerable view set timestamp hazards) :
    ∃ blocks, (openHazards view set hazards.toList .empty).result = .ok blocks := by
  refine Hazards.exists_openHazards fun ⟨index, hazard⟩ hmem => ?_
  have hget := Table.mem_toList.mp hmem
  obtain ⟨opened, hstored⟩ := h.opens index hazard hget
  obtain ⟨_, chain, hknown, hchain, hblock, hsame⟩ := id hstored
  cases hget.symm.trans hknown
  exact ⟨opened, ⟨chain, hchain, hblock⟩, hsame,
    fun logIndex message => h.inside index opened logIndex message hstored⟩

/-- Hazards that are answerable are put in order or have a cycle. -/
theorem Answerable.checkOrder_cases (h : Answerable view set timestamp hazards) :
    (checkOrder view set timestamp hazards).result = .ok () ∨
      (checkOrder view set timestamp hazards).result = .error (.conflict (.cycle timestamp)) := by
  obtain ⟨blocks, hblocks⟩ := h.exists_openHazards
  have hopened := openedAs_of_openHazards hblocks
  have hstored := hopened.stored_eq
  refine Hazards.checkOrder_cases hblocks fun index opened hget logIndex message hmessage htime => ?_
  obtain ⟨⟨hazard, hhazard⟩, hother, hlog⟩ := h.messages index opened logIndex message
    (hstored ▸ hget) hmessage htime
  obtain ⟨initiating, hinitiating⟩ := hopened.all _ _ hhazard
  exact ⟨initiating, hinitiating, hother, hlog initiating (hstored ▸ hinitiating)⟩

/-- The check of the order finds one only if there is one, finds a cycle only if there is none, and
finds one of them if the hazards are answerable. It decides as Kahn's algorithm does on the graph of
the logs, in which no edge has an end that is no node. -/
theorem checkOrder_decides (view : SafetyView) (set : DependencySet) (timestamp : UInt64)
    (hazards : Hazards) :
    ((checkOrder view set timestamp hazards).result = .ok () →
      (∀ index hazard, hazards.get? index = some hazard →
        ∃ opened, Stored view set hazards index opened) ∧
      ∃ order, LogOrder (Stored view set hazards) timestamp order) ∧
    (∀ error, (checkOrder view set timestamp hazards).result = .error error →
      error.isCycle = true →
      (∀ index hazard, hazards.get? index = some hazard →
        ∃ opened, Stored view set hazards index opened) ∧
      ¬∃ order, LogOrder (Stored view set hazards) timestamp order) ∧
    (Answerable view set timestamp hazards →
      (checkOrder view set timestamp hazards).result = .ok () ∨
        (checkOrder view set timestamp hazards).result = .error (.conflict (.cycle timestamp))) ∧
    (checkOrder view set timestamp hazards).result =
      (checkGraph view set timestamp hazards).result ∧
    ∀ blocks, (openHazards view set hazards.toList .empty).result = .ok blocks →
      (logGraph blocks timestamp).1.Within := by
  refine ⟨fun hok => ?_, fun error herror hcycle => ?_, fun hanswerable => ?_,
    checkOrder_eq_checkGraph view set timestamp hazards, fun blocks hblocks => ?_⟩
  · obtain ⟨blocks, rank, -, hordered, -⟩ := checkOrder_sound hok
    refine ⟨hordered.opened.stores, ?_⟩
    rw [hordered.opened.stored_eq]
    exact (exists_logOrder_iff hordered.opened.inside hordered.mayWait).mpr
      ⟨rank, hordered.inOrder⟩
  · obtain ⟨blocks, waiting, hblocks, hwaiting⟩ := checkOrder_eq_cycle herror hcycle
    have hopened := openedAs_of_openHazards hblocks
    have hmay := (waitsAs_of_waits hwaiting).mayWait
    refine ⟨hopened.stores, ?_⟩
    rw [hopened.stored_eq, exists_logOrder_iff hopened.inside hmay]
    rintro ⟨rank, hrank⟩
    cases herror.symm.trans (checkOrder_complete hblocks hmay hrank)
  · exact hanswerable.checkOrder_cases
  · exact logGraph_within (openedAs_of_openHazards hblocks).inside

/-- Two blocks of two logs. Each executes a message of the other one. If the second logs execute what
the first ones initiate, the logs can be put in order, and the other way round they cannot. -/
theorem checkOrder_decides_mutual :
    let set : Membership := ⟨.ofList [(900, ⟨0, 0, 0⟩), (901, ⟨1, 0, 0⟩)]⟩
    let block : BlockRef := ⟨.ofBytes [1], 1, .ofBytes [0], 7⟩
    let view (executing initiating : UInt32) : SafetyView := {
      blockAt := fun chain _ => .ok ⟨block, 2, .ofList
        [(executing, ⟨if chain = 900 then 1 else 0, 1, initiating, 7, .ofBytes [9]⟩)]⟩
      contains := fun _ _ => .error .conflict
      candidate := fun _ => .error .futureData
      crossSafe := fun _ => .error .databaseNotInitialised
      sourceOf := fun _ _ => .error .futureData
      sourceAfter := fun _ _ => .error .futureData
      dependents := fun _ _ => .ok [] }
    let hazards : Hazards := .ofList [(0, block.toSeal), (1, block.toSeal)]
    (∃ order, LogOrder (Stored (view 1 0) set.lookups hazards) 7 order) ∧
      ¬∃ order, LogOrder (Stored (view 0 1) set.lookups hazards) 7 order := by
  intro set block view hazards
  have hplaced : (checkOrder (view 1 0) set.lookups 7 hazards).result = .ok () := by
    decide +kernel
  have hcycle : (checkOrder (view 0 1) set.lookups 7 hazards).result =
      .error (.conflict (.cycle 7)) := by
    decide +kernel
  exact ⟨((checkOrder_decides (view 1 0) set.lookups 7 hazards).1 hplaced).2,
    ((checkOrder_decides (view 0 1) set.lookups 7 hazards).2.1 _ hcycle rfl).2⟩

end Hazards

end CrossSafety
