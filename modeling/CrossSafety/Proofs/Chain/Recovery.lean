import CrossSafety.Proofs.Chain.Lookup
import CrossSafety.Proofs.Chain.Consistent

/-!
# Opening a chain whose logs and indexes disagree

A chain can be closed with logs of a block that was never sealed, or lose logs of blocks that are
sealed. Opening it drops the former and gives up the latter blocks: `Recovered` says what is left.
The finalized head sets the limit. If the logs of a block up to it are lost, the chain does not open.
-/
namespace CrossSafety

namespace LogList

variable {logs kept lost : LogList} {block : UInt64}

theorem rewind_of_above (habove : ∀ entry ∈ lost, block < entry.position.block) :
    lost.rewind block = [] :=
  List.filter_eq_nil_iff.mpr fun entry hmem hle =>
    UInt64.not_le.mpr (habove entry hmem) (of_decide_eq_true hle)

/-- A rewind keeps a first part of the list. -/
theorem Ordered.exists_rest (h : logs.Ordered .origin) (block : UInt64) :
    ∃ rest, logs = logs.rewind block ++ rest ∧ ∀ entry ∈ rest, block < entry.position.block := by
  have hsorted := h.sorted
  clear h
  induction logs with
  | nil => exact ⟨[], rfl, by simp⟩
  | cons first logs ih =>
    obtain ⟨hfirst, hsorted⟩ := List.pairwise_cons.mp hsorted
    by_cases hle : first.position.block ≤ block
    · obtain ⟨rest, hsplit, habove⟩ := ih hsorted
      refine ⟨rest, ?_, habove⟩
      rw [rewind, List.filter_cons_of_pos (by simpa using hle), List.cons_append]
      exact congrArg (first :: ·) hsplit
    · have hlt := UInt64.not_le.mp hle
      have habove : ∀ entry ∈ first :: logs, block < entry.position.block := by
        intro entry hmem
        rcases List.mem_cons.mp hmem with rfl | hmem
        · exact hlt
        · exact UInt64.lt_of_lt_of_le hlt (Position.block_le_of_lt (hfirst entry hmem))
      exact ⟨first :: logs, by rw [rewind_of_above habove]; rfl, habove⟩

theorem rewind_append_of_above (habove : ∀ entry ∈ lost, block < entry.position.block) :
    (kept ++ lost).rewind block = kept.rewind block := by
  rw [rewind, List.filter_append]
  exact (congrArg (kept.rewind block ++ ·) (rewind_of_above habove)).trans (List.append_nil _)

theorem rewind_max (logs : LogList) : logs.rewind maxNumber = logs :=
  List.filter_eq_self.mpr fun entry _ => decide_eq_true (by
    rw [UInt64.le_iff_toNat_le]
    exact Nat.le_of_lt_succ entry.position.block.toNat_lt)

end LogList

namespace Ledger

/-- Sealed blocks above a height are gone, and a cross-unsafe head above it fell back to the block at
the height. Nothing else changed. -/
structure CutAbove (state after : Ledger) (height : UInt64) : Prop where
  blocks : ∀ number, after.blocks.get? number =
    if number ≤ height then state.blocks.get? number else none
  crossUnsafe : after.crossUnsafe = state.crossUnsafe.bind fun head =>
    if head.number ≤ height then some head
    else (after.blocks.get? height).map fun sealed => sealed.block.toSeal
  others : after = { state with blocks := after.blocks, crossUnsafe := after.crossUnsafe }

variable {state : Ledger}

theorem le_max (number : UInt64) : number ≤ maxNumber := by
  rw [UInt64.le_iff_toNat_le]
  exact Nat.le_of_lt_succ number.toNat_lt

theorem cutAbove_self (state : Ledger) : state.CutAbove state maxNumber where
  blocks number := (if_pos (le_max number)).symm
  crossUnsafe := by
    cases hhead : state.crossUnsafe with
    | none => rfl
    | some head => exact (if_pos (le_max _)).symm
  others := rfl

theorem cutAbove_dropBlocksAbove {number : UInt64} (hmax : number < maxNumber) :
    state.CutAbove (state.dropBlocksAbove number) number where
  blocks other := get?_below_succ hmax other
  crossUnsafe := by
    rw [dropBlocksAbove_crossUnsafe, dropBlocksAbove_blocks]
    refine congrArg state.crossUnsafe.bind (funext fun head => ?_)
    by_cases hle : head.number ≤ number
    · rw [if_pos hle, if_neg (UInt64.not_lt.mpr hle)]
    · rw [if_neg hle, if_pos (UInt64.not_le.mp hle)]
  others := rfl

/-- A sealed block is found by a query that names it with its timestamp, and by no other. -/
theorem blockOfQuery_of_sealed (h : state.Keyed) {query : LogQuery} {sealed : SealedBlock}
    (hget : state.blocks.get? query.blockNumber = some sealed) :
    state.blockOfQuery query =
      if sealed.block.timestamp = query.timestamp then .ok sealed else .error .conflict := by
  unfold blockOfQuery
  cases hlatest : state.latest? with
  | none =>
    rw [Table.last?_eq_none.mp hlatest] at hget
    cases hget
  | some latest =>
    have hle := latestNumber_le h hget
    rw [latestNumber, hlatest, Option.map_some, Option.getD_some] at hle
    dsimp only
    rw [if_neg (UInt64.not_lt.mpr hle), hget]

end Ledger

namespace ChainStore

variable {store opened : ChainStore} {logs kept lost : LogList} {height : UInt64}

/-- A chain was opened with its sealed blocks up to a height. Each of them has all its logs, and they
are the logs it had before. -/
structure Recovered (store opened : ChainStore) (height : UInt64) : Prop where
  state : store.state.CutAbove opened.state height
  same : ∀ query sealed, opened.state.blocks.get? query.blockNumber = some sealed →
    opened.contains query = store.contains query
  complete : ∀ number sealed index, opened.state.blocks.get? number = some sealed →
    index < sealed.logCount → ∃ hash, opened.contains
      ⟨sealed.block.timestamp, number, index, hash⟩ = .ok sealed.block.toSeal

theorem Listed.contains_eq (h : store.Listed logs) {query : LogQuery} {sealed : SealedBlock}
    (hget : store.state.blocks.get? query.blockNumber = some sealed) :
    store.contains query =
      if sealed.block.timestamp = query.timestamp ∧ query.logIndex < sealed.logCount ∧
        ⟨⟨query.blockNumber, query.logIndex⟩, query.hash.short⟩ ∈ logs
      then .ok sealed.block.toSeal else .error .conflict := by
  unfold contains
  rw [Ledger.blockOfQuery_of_sealed h.keyed hget]
  by_cases htime : sealed.block.timestamp = query.timestamp
  · rw [if_pos htime, Outcome.ok_bind]
    by_cases hindex : query.logIndex < sealed.logCount
    · rw [if_pos hindex, h.represents.contains_eq, Outcome.ok_bind]
      by_cases hmem : (⟨⟨query.blockNumber, query.logIndex⟩, query.hash.short⟩ : LogEntry) ∈ logs
      · simp [htime, hindex, hmem]
      · simp [hmem]
    · simp [hindex]
  · simp [htime]

/-- The first bytes of a log's hash are those of some hash. -/
theorem exists_short (short : ShortHash) : ∃ hash : Hash, hash.short = short := by
  refine ⟨.ofBytes short.bytes, ?_⟩
  obtain ⟨bytes, hlength⟩ := short
  have hpad : bytes.take 32 = bytes := List.take_of_length_le (by omega)
  simp [Hash.short, Hash.ofBytes, Bytes.fit_eq, hlength, hpad]

/-- A chain in line with the logs up to a height is what was recovered. -/
theorem Aligned.recovered (h : store.Aligned logs) (hopened : opened.Aligned (logs.rewind height))
    (hstate : store.state.CutAbove opened.state height) : store.Recovered opened height where
  state := hstate
  same query sealed hget := by
    have hcut := hstate.blocks query.blockNumber
    rw [hget] at hcut
    split at hcut
    · rename_i hle
      rw [h.listed.contains_eq hcut.symm, hopened.listed.contains_eq hget]
      simp only [LogList.mem_rewind, hle, and_true]
    · cases hcut
  complete number sealed index hget hindex := by
    obtain ⟨short, hmem⟩ := (hopened.covers ⟨number, index⟩).mpr ⟨sealed, hget, hindex⟩
    obtain ⟨hash, rfl⟩ := exists_short short
    refine ⟨hash, (hopened.listed.contains_eq ?_).trans (if_pos ⟨rfl, hindex, hmem⟩)⟩
    exact hget

theorem Aligned.recovered_all (h : store.Aligned logs) (hopened : opened.Aligned logs)
    (hstate : opened.state = store.state) : store.Recovered opened maxNumber := by
  refine h.recovered ?_ ?_
  · rwa [LogList.rewind_max]
  · rw [hstate]
    exact Ledger.cutAbove_self store.state

/-! ## Logs of a block that was not sealed -/

/-- Logs above the latest sealed block are dropped first. -/
theorem Listed.trim_ahead (h : store.Listed kept) {grown : LogStore} {extra : LogList}
    (hgrown : grown.Represents (kept ++ extra))
    (habove : ∀ entry ∈ extra, store.state.latestNumber < entry.position.block) :
    ∃ back observed, back.Represents kept ∧
      ({ store with logs := grown } : ChainStore).trim =
        ⟨.ok (), { store with logs := back }, observed⟩ := by
  rcases List.eq_nil_or_concat extra with rfl | ⟨init, last, rfl⟩
  · rw [List.append_nil] at hgrown
    exact ⟨grown, [], hgrown, @trim_eq { store with logs := grown } _ hgrown h.below⟩
  · have hlast := habove last (by simp)
    obtain ⟨dropped, back, hrewind, hback⟩ :=
      LogStore.represents_rewind hgrown store.state.latestNumber
    rw [LogList.rewind_append h.below habove] at hback
    have hlatest : grown.latest = some last.position := by
      rw [hgrown.latest_eq, LogList.latest, List.concat_eq_append, ← List.append_assoc,
        List.getLast?_concat]
      rfl
    refine ⟨back, LogStore.rewindObservations dropped back, hback, ?_⟩
    unfold trim
    rw [hlatest]
    dsimp only
    rw [decide_eq_true hlast, if_pos rfl, rewindLogs, hrewind]

/-- Logs above the latest sealed block are dropped, and nothing else is. -/
theorem Aligned.reconcile_ahead (h : store.Aligned kept) {grown : LogStore} {extra : LogList}
    (hgrown : grown.Represents (kept ++ extra))
    (habove : ∀ entry ∈ extra, store.state.latestNumber < entry.position.block) :
    ∃ back observed, back.Represents kept ∧
      ({ store with logs := grown } : ChainStore).reconcile =
        ⟨.ok (), { store with logs := back }, observed⟩ := by
  obtain ⟨back, observed, hback, htrim⟩ := h.listed.trim_ahead hgrown habove
  have hsame : ({ store with logs := back } : ChainStore).Aligned kept :=
    ⟨hback, h.keyed, h.covers⟩
  exact ⟨back, [], hback, by rw [ChainStore.reconcile_eq, htrim]; exact hsame.endsCounted.settle_eq⟩

/-- Opening the files of a chain with logs of a block that was not sealed gives the chain. -/
theorem Aligned.load_ahead (h : store.Aligned kept) (hjournaled : store.Journaled)
    {directory : Directory} {grown : LogStore} {extra : LogList}
    (hopen : LogStore.openFile (directory.logs.getD []) = .ok grown)
    (hjournal : directory.journal = some store.journal.bytes)
    (hspare : directory.spare = store.spare) (hgrown : grown.Represents (kept ++ extra))
    (habove : ∀ entry ∈ extra, store.state.latestNumber < entry.position.block) :
    ∃ opened, load directory = .ok opened ∧ opened.state = store.state ∧ opened.Aligned kept := by
  obtain ⟨back, observed, hback, hreconcile⟩ := h.reconcile_ahead hgrown habove
  have hsame : ({ store with logs := back } : ChainStore).Aligned kept :=
    ⟨hback, h.keyed, h.covers⟩
  exact ⟨({ store with logs := back } : ChainStore).compact,
    by rw [hjournaled.load_eq hopen hjournal hspare, hreconcile], (compact_eq _).1, hsame.compact⟩

/-! ## Lost logs of sealed blocks -/

section Behind

variable {survivor : LogStore} {first : LogEntry}

/-- Lost logs start in a block that is not block zero. -/
theorem Aligned.first_lost (h : store.Aligned (kept ++ lost)) (hfirst : lost.head? = some first) :
    first.position.block ≠ 0 ∧ kept.head < first.position ∧
      ∀ entry ∈ lost, first.position.block ≤ entry.position.block := by
  cases lost with
  | nil => cases hfirst
  | cons entry rest =>
    cases hfirst
    obtain ⟨-, hfollows, hrest⟩ := LogList.ordered_append.mp h.represents.ordered
    refine ⟨hfollows.1, hfollows.lt, fun other hmem => ?_⟩
    rcases List.mem_cons.mp hmem with rfl | hmem
    · exact UInt64.le_refl _
    · exact Position.block_le_of_lt (hrest.lt other hmem)

/-- The block of the first lost log lacks logs. -/
theorem Aligned.lacksLogs_first (h : store.Aligned (kept ++ lost))
    (hfirst : lost.head? = some first) {sealed : SealedBlock}
    (hget : store.state.blocks.get? first.position.block = some sealed)
    (hindex : first.position.index < sealed.logCount) :
    lacksLogs kept.latest sealed = true := by
  obtain ⟨-, hhead, -⟩ := h.first_lost hfirst
  have hnumber := (h.keyed _ _ hget).1
  have hlogs : sealed.hasLogs = true :=
    decide_eq_true (UInt32.lt_of_le_of_lt UInt32.zero_le hindex)
  unfold lacksLogs
  rw [hlogs, Bool.true_and]
  cases hlatest : kept.latest with
  | none => rfl
  | some position =>
    refine decide_eq_true ?_
    rw [← (LogList.latest_eq_some hlatest).2]
    exact Position.lt_of_lt_of_le hhead (SealedBlock.not_lastLog_lt hnumber.symm hindex)

/-- The last log of a lower block comes before the first lost one, so it was kept. -/
theorem Aligned.not_lacksLogs_below (h : store.Aligned (kept ++ lost))
    (hordered : kept.Ordered .origin) (hfirst : lost.head? = some first) {number : UInt64}
    {sealed : SealedBlock} (hget : store.state.blocks.get? number = some sealed)
    (hlt : number < first.position.block) : lacksLogs kept.latest sealed = false := by
  refine not_lacksLogs_of_mem hordered fun hholds => ?_
  obtain ⟨hash, hlast⟩ := h.last_mem hget hholds
  have hblock : sealed.lastLog.block = number := (h.keyed _ _ hget).1
  refine ⟨hash, (List.mem_append.mp hlast).resolve_right fun hmem => ?_⟩
  have hle := (h.first_lost hfirst).2.2 _ hmem
  rw [hblock] at hle
  exact UInt64.not_lt.mpr hle hlt

/-- The block of the first lost log is the first one that lacks logs. -/
theorem Aligned.reconcile_behind (h : store.Aligned (kept ++ lost))
    (hsurvivor : survivor.Represents kept) (hfirst : lost.head? = some first) :
    ({ store with logs := survivor } : ChainStore).reconcile =
      ({ store with logs := survivor } : ChainStore).dropBlocksFrom first.position.block := by
  have hmem : first ∈ kept ++ lost := List.mem_append_right _ (List.mem_of_head? hfirst)
  obtain ⟨sealed, hget, hindex⟩ := (h.covers first.position).mp ⟨first.hash, hmem⟩
  have htrim : ({ store with logs := survivor } : ChainStore).trim =
      ⟨.ok (), { store with logs := survivor }, []⟩ :=
    trim_eq hsurvivor fun entry hmem => Ledger.block_le_latestNumber h.keyed h.covers _
      (List.mem_append_left _ hmem)
  have hfind : store.state.blocks.values.find? (lacksLogs survivor.latest) = some sealed := by
    rw [hsurvivor.latest_eq]
    exact Table.find?_values hget (h.lacksLogs_first hfirst hget hindex)
      fun number other hother hlt => h.not_lacksLogs_below hsurvivor.ordered hfirst hother
        (UInt64.lt_iff_toNat_lt.mpr hlt)
  rw [ChainStore.reconcile_eq, htrim]
  dsimp only
  rw [settle, hfind]
  simp only [(h.keyed _ _ hget).1]

/-- With lost logs a chain opens without the blocks they belonged to, unless one of these is
finalized. -/
theorem Aligned.reconcile_lost (h : store.Aligned (kept ++ lost))
    (hsurvivor : survivor.Represents kept) (hfirst : lost.head? = some first) :
    (∃ back observed, back.Represents ((kept ++ lost).rewind (numberBefore first.position.block)) ∧
      ({ store with logs := survivor } : ChainStore).reconcile = ⟨.ok (),
        ({ store with logs := back } : ChainStore).commit
          (.rewindLocalUnsafe (numberBefore first.position.block)), observed⟩) ∨
    (∃ head, store.state.finalized = some head ∧ first.position.block ≤ head.number) ∧
      ({ store with logs := survivor } : ChainStore).reconcile =
        ⟨.error (.dataCorruption ("logs of finalized block " ++ toString first.position.block
          ++ " are missing")), { store with logs := survivor }, []⟩ := by
  obtain ⟨hzero, -, hlost⟩ := h.first_lost hfirst
  have hbefore : numberBefore first.position.block = first.position.block - 1 := if_neg hzero
  have hpred := toNat_pred hzero
  have hpos := toNat_pos_of_ne_zero hzero
  rw [h.reconcile_behind hsurvivor hfirst, dropBlocksFrom]
  dsimp only
  cases habove : store.state.requireAboveFinalized (numberBefore first.position.block) with
  | ok done =>
    obtain ⟨back, observed, hback, htake⟩ := @takeAll_rewindLogs { store with logs := survivor }
      kept (numberBefore first.position.block) hsurvivor (numberBefore first.position.block)
      (.rewindLocalUnsafe (numberBefore first.position.block))
    refine .inl ⟨back, observed, ?_, htake⟩
    rwa [LogList.rewind_append_of_above fun entry hmem => ?_]
    refine UInt64.lt_of_lt_of_le ?_ (hlost entry hmem)
    rw [hbefore, UInt64.lt_iff_toNat_lt, hpred]
    omega
  | error error =>
    obtain ⟨head, hhead, hlt⟩ := Ledger.lt_finalized_of_error habove
    refine .inr ⟨⟨head, hhead, ?_⟩, rfl⟩
    rw [hbefore, UInt64.lt_iff_toNat_lt, hpred] at hlt
    rw [UInt64.le_iff_toNat_le]
    omega

/-- Opening the files of a chain whose last logs are lost recovers the blocks below them. It fails if
a finalized block lost logs. -/
theorem Aligned.load_lost (h : store.Aligned (kept ++ lost)) (hjournaled : store.Journaled)
    {directory : Directory} (hopen : LogStore.openFile (directory.logs.getD []) = .ok survivor)
    (hjournal : directory.journal = some store.journal.bytes)
    (hspare : directory.spare = store.spare) (hsurvivor : survivor.Represents kept) :
    (∃ opened height, load directory = .ok opened ∧ store.Recovered opened height ∧
      opened.state.blocks.toList <+: store.state.blocks.toList ∧
      ∀ target, (∀ entry ∈ lost, target < entry.position.block) → target ≤ height) ∨
    ∃ first head rest, first ∈ lost ∧ store.state.finalized = some head ∧
      first.position.block ≤ head.number ∧
      load directory = .error (.dataCorruption ("logs of finalized block "
        ++ toString first.position.block ++ " are missing"), rest) := by
  cases hfirst : lost.head? with
  | none =>
    rw [List.head?_eq_none_iff.mp hfirst, List.append_nil] at h
    have hall : survivor.Represents (kept ++ []) := by rwa [List.append_nil]
    obtain ⟨opened, hload, hstate, hopened⟩ :=
      h.load_ahead hjournaled hopen hjournal hspare hall (by simp)
    have hblocks : opened.state.blocks.toList = store.state.blocks.toList :=
      congrArg (·.blocks.toList) hstate
    exact .inl ⟨opened, maxNumber, hload, h.recovered_all hopened hstate,
      hblocks ▸ List.prefix_rfl, fun _ _ => Ledger.le_max _⟩
  | some first =>
    rw [hjournaled.load_eq hopen hjournal hspare]
    have hmem := List.mem_of_head? hfirst
    obtain ⟨hzero, -, -⟩ := h.first_lost hfirst
    rcases h.reconcile_lost hsurvivor hfirst with
      ⟨back, observed, hback, hreconcile⟩ | ⟨⟨head, hhead, hle⟩, hreconcile⟩
    · rw [hreconcile]
      have hmax := Ledger.numberBefore_lt first.position.block
      have haligned : (({ store with logs := back } : ChainStore).commit
          (.rewindLocalUnsafe (numberBefore first.position.block))).Aligned
            ((kept ++ lost).rewind (numberBefore first.position.block)) :=
        ⟨hback, h.keyed.below rfl, h.covers.rewind hmax rfl⟩
      have hstate : (({ store with logs := back } : ChainStore).commit
          (.rewindLocalUnsafe (numberBefore first.position.block))).compact.state =
            store.state.dropBlocksAbove (numberBefore first.position.block) := (compact_eq _).1
      refine .inl ⟨_, _, rfl, h.recovered haligned.compact ?_, ?_, fun target hbelow => ?_⟩
      · rw [hstate]
        exact Ledger.cutAbove_dropBlocksAbove hmax
      · rw [hstate]
        exact Table.toList_below_prefix
      · have hlt := UInt64.lt_iff_toNat_lt.mp (hbelow first hmem)
        rw [numberBefore, if_neg hzero, UInt64.le_iff_toNat_le, toNat_pred hzero]
        omega
    · exact .inr ⟨first, head, _, hmem, hhead, hle, by rw [hreconcile]⟩

end Behind

end ChainStore

end CrossSafety
