import CrossSafety.Proofs.Chain.Replay
import CrossSafety.Proofs.Chain.Sealing
import CrossSafety.Proofs.LogStore.Refinement

/-!
# Opening a chain again

A chain is `Sound` if its logs are those of its sealed blocks and its journal replays to its
indexes. Opening the files of such a chain finds nothing to repair and gives the chain back, with
its journal replaced by a snapshot if it was long. Writes and reopenings keep a chain sound, so
this holds after any number of them.

A block that was sealed with a log for every index is the one exception. It counts none of them, so
the last log does not seem to belong to a sealed block, and the chain does not open.
-/
namespace CrossSafety

theorem LogList.latest_eq_some {logs : LogList} {position : Position}
    (h : logs.latest = some position) :
    (∃ hash, ⟨position, hash⟩ ∈ logs) ∧ logs.head = position := by
  rw [latest, Option.map_eq_some_iff] at h
  obtain ⟨entry, hlast, rfl⟩ := h
  refine ⟨⟨entry.hash, List.mem_of_getLast? hlast⟩, ?_⟩
  rw [head, endFrom, hlast]
  rfl

theorem LogList.latest_eq_none {logs : LogList} (h : logs.latest = none) : logs = [] := by
  rw [latest, Option.map_eq_none_iff] at h
  exact List.getLast?_eq_none_iff.mp h

/-- The last log of an ordered list is the one that no other is behind. -/
theorem LogList.Ordered.latest_eq_some {logs : LogList} (h : logs.Ordered .origin)
    {position : Position} : logs.latest = some position ↔
      (∃ hash, ⟨position, hash⟩ ∈ logs) ∧ ∀ entry ∈ logs, ¬position < entry.position := by
  have hlast {other : Position} (hlatest : logs.latest = some other) :
      (∃ hash, ⟨other, hash⟩ ∈ logs) ∧ ∀ entry ∈ logs, ¬other < entry.position := by
    obtain ⟨hmem, hhead⟩ := LogList.latest_eq_some hlatest
    subst hhead
    exact ⟨hmem, h.le_end⟩
  refine ⟨hlast, fun ⟨⟨hash, hmem⟩, hbehind⟩ => ?_⟩
  cases hlatest : logs.latest with
  | none =>
    rw [LogList.latest_eq_none hlatest] at hmem
    exact absurd hmem List.not_mem_nil
  | some other =>
    obtain ⟨⟨otherHash, hother⟩, hmax⟩ := hlast hlatest
    have hle : ¬other < position := hmax ⟨position, hash⟩ hmem
    have hge : ¬position < other := hbehind ⟨other, otherHash⟩ hother
    rw [(Position.lt_or_eq hle).resolve_left hge]

theorem SealedBlock.lastLog_lt {sealed : SealedBlock} (h : sealed.hasLogs = true) :
    sealed.lastLog.index < sealed.logCount := by
  have hpos := UInt32.lt_iff_toNat_lt.mp (of_decide_eq_true h)
  rw [UInt32.toNat_zero] at hpos
  have hone : (1 : UInt32) ≤ sealed.logCount := by
    rw [UInt32.le_iff_toNat_le, UInt32.toNat_one]
    exact hpos
  rw [UInt32.lt_iff_toNat_lt, lastLog, UInt32.toNat_sub_of_le _ _ hone, UInt32.toNat_one]
  exact Nat.sub_lt hpos Nat.one_pos

theorem SealedBlock.not_lastLog_lt {sealed : SealedBlock} {position : Position}
    (hblock : position.block = sealed.block.number) (hlt : position.index < sealed.logCount) :
    ¬sealed.lastLog < position := by
  have hindex := UInt32.lt_iff_toNat_lt.mp hlt
  have hone : (1 : UInt32) ≤ sealed.logCount := by
    rw [UInt32.le_iff_toNat_le, UInt32.toNat_one]
    omega
  rw [Position.lt_def, Position.rank, Position.rank, lastLog, hblock]
  dsimp only
  rw [UInt32.toNat_sub_of_le _ _ hone, UInt32.toNat_one]
  omega

namespace ChainStore

variable {store : ChainStore} {logs : LogList}

/-! ## Nothing to repair -/

theorem Aligned.last_mem (h : store.Aligned logs) {number : UInt64} {sealed : SealedBlock}
    (hget : store.state.blocks.get? number = some sealed) (hlogs : sealed.hasLogs = true) :
    ∃ hash, ⟨sealed.lastLog, hash⟩ ∈ logs := by
  refine (h.covers sealed.lastLog).mpr ⟨sealed, ?_, SealedBlock.lastLog_lt hlogs⟩
  rw [SealedBlock.lastLog, (h.keyed number sealed hget).1, hget]

/-- A block is not short of logs if its last one is stored. -/
theorem not_lacksLogs_of_mem (h : logs.Ordered .origin) {sealed : SealedBlock}
    (hlast : sealed.hasLogs = true → ∃ hash, ⟨sealed.lastLog, hash⟩ ∈ logs) :
    lacksLogs logs.latest sealed = false := by
  cases hlogs : sealed.hasLogs with
  | false =>
    unfold lacksLogs
    rw [hlogs, Bool.false_and]
  | true =>
    obtain ⟨hash, hlast⟩ := hlast hlogs
    cases hlatest : logs.latest with
    | none =>
      rw [LogList.latest_eq_none hlatest] at hlast
      exact absurd hlast List.not_mem_nil
    | some position =>
      have hle : ¬position < sealed.lastLog :=
        (h.latest_eq_some.mp hlatest).2 ⟨sealed.lastLog, hash⟩ hlast
      unfold lacksLogs
      rw [hlogs, Bool.true_and]
      exact decide_eq_false hle

/-- Every block that counts logs has its last one stored, and the last stored log is counted. -/
structure EndsCounted (store : ChainStore) (logs : LogList) : Prop extends store.Listed logs where
  stored : ∀ number sealed, store.state.blocks.get? number = some sealed →
    sealed.hasLogs = true → ∃ hash, ⟨sealed.lastLog, hash⟩ ∈ logs
  counted : ∀ position, logs.latest = some position →
    ∃ sealed, store.state.blocks.get? position.block = some sealed ∧
      position.index < sealed.logCount

theorem Aligned.endsCounted (h : store.Aligned logs) : store.EndsCounted logs :=
  ⟨h.listed, fun _ _ hget => h.last_mem hget, fun position hlatest =>
    (h.covers position).mp (LogList.latest_eq_some hlatest).1⟩

theorem EndsCounted.not_lacksLogs (h : store.EndsCounted logs) :
    ∀ sealed ∈ store.state.blocks.values, lacksLogs logs.latest sealed = false := by
  intro sealed hmem
  obtain ⟨number, hget⟩ := Table.mem_values.mp hmem
  exact not_lacksLogs_of_mem h.represents.ordered (h.stored number sealed hget)

theorem EndsCounted.lastSealedLog_eq (h : store.EndsCounted logs) {position : Position}
    (hlatest : logs.latest = some position) : store.state.lastSealedLog = some position := by
  obtain ⟨holder, hholder, hindex⟩ := h.counted position hlatest
  have hholds : holder.hasLogs = true :=
    decide_eq_true (UInt32.lt_of_le_of_lt UInt32.zero_le hindex)
  cases hfind : store.state.blocks.values.reverse.find? SealedBlock.hasLogs with
  | none =>
    have hnone := List.find?_eq_none.mp hfind holder
      (List.mem_reverse.mpr (Table.mem_values.mpr ⟨_, hholder⟩))
    exact absurd hholds hnone
  | some sealed =>
    obtain ⟨number, hget, hlogs, hmax⟩ := Table.find?_values_reverse hfind
    obtain ⟨lastHash, hlast⟩ := h.stored number sealed hget hlogs
    have hbehind : ¬position < sealed.lastLog :=
      (h.represents.ordered.latest_eq_some.mp hlatest).2 ⟨sealed.lastLog, lastHash⟩ hlast
    have hnumber := (h.keyed number sealed hget).1
    -- the block of the last stored log has logs, so it is the highest one that has
    have hle : position.block ≤ number := UInt64.le_iff_toNat_le.mpr (hmax _ _ hholder hholds)
    have hblock : position.block = number := by
      refine UInt64.le_antisymm hle (UInt64.not_lt.mp fun hlt => hbehind ?_)
      exact Position.lt_of_block_lt (by rw [SealedBlock.lastLog, hnumber]; exact hlt)
    rw [hblock, hget] at hholder
    cases hholder
    have hfront := SealedBlock.not_lastLog_lt (hblock.trans hnumber.symm) hindex
    rw [Ledger.lastSealedLog, hfind, Option.map_some]
    exact congrArg some ((Position.lt_or_eq hbehind).resolve_left hfront)

/-- The first half of reconciling: logs above the latest sealed block are dropped. -/
def trim (store : ChainStore) : Performed :=
  let excess : Bool := match store.logs.latest with
    | some latest => store.state.latestNumber < latest.block
    | none => false
  if excess then store.rewindLogs store.state.latestNumber else ⟨.ok (), store, []⟩

/-- The second half: sealed blocks without their logs are dropped, and then the last log has to be
that of a sealed block. -/
def settle (store : ChainStore) : Performed :=
  match store.state.blocks.values.find? (lacksLogs store.logs.latest) with
  | some sealed => store.dropBlocksFrom sealed.block.number
  | none =>
    match store.logs.latest with
    | some position =>
      if store.state.lastSealedLog = some position then ⟨.ok (), store, []⟩
      else ⟨.error (.dataCorruption ("last log " ++ position.text
        ++ " is not indexed by any sealed block")), store, []⟩
    | none => ⟨.ok (), store, []⟩

theorem reconcile_eq (store : ChainStore) :
    store.reconcile = match store.trim.result with
      | .error _ => store.trim
      | .ok () => store.trim.store.settle := rfl

/-- Nothing is trimmed while all logs lie in blocks up to the latest one. -/
theorem trim_eq (h : store.logs.Represents logs)
    (hle : ∀ entry ∈ logs, entry.position.block ≤ store.state.latestNumber) :
    store.trim = ⟨.ok (), store, []⟩ := by
  unfold trim
  rw [h.latest_eq]
  cases hlogs : logs.latest with
  | none => rfl
  | some position =>
    obtain ⟨⟨hash, hmem⟩, -⟩ := LogList.latest_eq_some hlogs
    have hnot : ¬store.state.latestNumber < position.block := UInt64.not_lt.mpr (hle _ hmem)
    simp only [hnot, decide_false, Bool.false_eq_true, if_false]

theorem EndsCounted.settle_eq (h : store.EndsCounted logs) :
    store.settle = ⟨.ok (), store, []⟩ := by
  have hlatest := h.represents.latest_eq
  have hfind : store.state.blocks.values.find? (lacksLogs logs.latest) = none := by
    rw [List.find?_eq_none]
    exact fun sealed hmem => by rw [h.not_lacksLogs sealed hmem]; exact Bool.false_ne_true
  unfold settle
  cases hlogs : logs.latest with
  | none =>
    rw [hlogs] at hlatest hfind
    simp only [hlatest, hfind]
  | some position =>
    rw [hlogs] at hlatest hfind
    simp only [hlatest, hfind, h.lastSealedLog_eq hlogs, if_true]

/-- Logs and indexes that end alike are left as they are. -/
theorem EndsCounted.reconcile_eq (h : store.EndsCounted logs) :
    store.reconcile = ⟨.ok (), store, []⟩ := by
  rw [ChainStore.reconcile_eq, trim_eq h.represents h.below]
  exact h.settle_eq

/-! ## A last block that counts no logs -/

/-- The failure of an opening that finds no sealed block for the last log. -/
def unindexed (position : Position) : StorageError :=
  .dataCorruption ("last log " ++ position.text ++ " is not indexed by any sealed block")

section Uncounted

variable {position : Position}

/-- No block that counts logs is short of them. -/
theorem EndsUncounted.not_lacksLogs (h : store.EndsUncounted logs position) :
    store.state.blocks.values.find? (lacksLogs (some position)) = none := by
  rw [List.find?_eq_none]
  intro sealed hmem hlacks
  obtain ⟨number, hget⟩ := Table.mem_values.mp hmem
  obtain ⟨hlogs, hbehind⟩ := (Bool.and_eq_true _ _).mp hlacks
  have hlast : sealed.lastLog.block < position.block := by
    rw [SealedBlock.lastLog, (h.keyed number sealed hget).1]
    exact h.counts number sealed hget hlogs
  exact Position.lt_asymm (of_decide_eq_true hbehind) (Position.lt_of_block_lt hlast)

/-- The last log that the sealed blocks count lies below the last one that is stored. -/
theorem EndsUncounted.lastSealedLog_ne (h : store.EndsUncounted logs position) :
    store.state.lastSealedLog ≠ some position := by
  intro heq
  obtain ⟨sealed, hfind, hlast⟩ := Option.map_eq_some_iff.mp heq
  obtain ⟨number, hget⟩ :=
    Table.mem_values.mp (List.mem_reverse.mp (List.mem_of_find?_eq_some hfind))
  have hlt := h.counts number sealed hget (List.find?_some hfind)
  rw [← hlast, SealedBlock.lastLog, (h.keyed number sealed hget).1] at hlt
  exact UInt64.lt_irrefl _ hlt

theorem EndsUncounted.settle_eq (h : store.EndsUncounted logs position) :
    store.settle = ⟨.error (unindexed position), store, []⟩ := by
  have hlatest : store.logs.latest = some position := h.represents.latest_eq.trans h.latest
  unfold settle
  simp only [hlatest, h.not_lacksLogs, if_neg h.lastSealedLog_ne]
  rfl

/-- A chain whose last log lies in a block that counts none does not open. -/
theorem EndsUncounted.reconcile_eq (h : store.EndsUncounted logs position) :
    store.reconcile = ⟨.error (unindexed position), store, []⟩ := by
  rw [ChainStore.reconcile_eq, trim_eq h.represents h.below]
  exact h.settle_eq

end Uncounted

/-! ## Runs -/

/-- The journal holds changes that lead from nothing to the indexes. -/
def Journaled (store : ChainStore) : Prop :=
  ∃ changes, store.journal = .ofChanges changes ∧ Ledger.empty.replay changes = store.state

/-- Opening files with any logs and the journal of a chain brings its indexes and those logs in
line. -/
theorem Journaled.load_eq (h : store.Journaled) {directory : Directory} {kept : LogStore}
    (hopen : LogStore.openFile (directory.logs.getD []) = .ok kept)
    (hjournal : directory.journal = some store.journal.bytes)
    (hspare : directory.spare = store.spare) :
    load directory =
      let reconciled := { store with logs := kept }.reconcile
      match reconciled.result with
      | .error e => .error (e, reconciled.store.directory)
      | .ok () => .ok reconciled.store.compact := by
  obtain ⟨changes, hchanges, hreplay⟩ := h
  have hlines : Journal.ofFile (directory.journal.getD []) = store.journal := by
    rw [hjournal, Option.getD_some, hchanges, Journal.ofFile_bytes]
  have hread : store.journal.changes = .ok changes := by
    rw [hchanges, Journal.changes_ofChanges]
  cases hresult : ({ store with logs := kept } : ChainStore).reconcile.result <;>
    simp only [load, hopen, hlines, hread, hreplay, hspare, hresult]

theorem Journaled.load_directory (h : store.Journaled) (hrep : store.logs.Represents logs) :
    load store.directory = match store.reconcile.result with
      | .error e => .error (e, store.reconcile.store.directory)
      | .ok () => .ok store.reconcile.store.compact :=
  h.load_eq (LogStore.openFile_bytes hrep) rfl rfl

theorem Journaled.commit (h : store.Journaled) (kept : LogStore) (change : Change) :
    ({ store with logs := kept }.commit change).Journaled := by
  obtain ⟨changes, hjournal, hreplay⟩ := h
  refine ⟨changes ++ [change], ?_, ?_⟩
  · change store.journal.append change = _
    rw [hjournal, Journal.append_ofChanges]
  · rw [Ledger.replay_append, hreplay]
    rfl

theorem Journaled.compact (h : store.Journaled) : store.compact.Journaled := by
  rw [ChainStore.compact]
  split
  · exact ⟨[.snapshot store.state], rfl, rfl⟩
  · exact h

/-- Logs, indexes and journal belong together. -/
structure Sound (store : ChainStore) : Prop where
  aligned : ∃ logs, store.Aligned logs
  journaled : store.Journaled

/-- The files of a chain whose last log is counted open to the chain, with a long journal made
short. -/
theorem EndsCounted.load_directory (h : store.EndsCounted logs) (hjournaled : store.Journaled) :
    load store.directory = .ok store.compact := by
  rw [hjournaled.load_directory h.represents, h.reconcile_eq]

theorem Sound.load_directory (h : store.Sound) : load store.directory = .ok store.compact := by
  obtain ⟨logs, haligned⟩ := h.aligned
  exact haligned.endsCounted.load_directory h.journaled

/-- The files of a chain whose last log lies in a block that counts none do not open. -/
theorem EndsUncounted.load_directory {position : Position}
    (h : store.EndsUncounted logs position) (hjournaled : store.Journaled) :
    load store.directory = .error (unindexed position, store.directory) := by
  rw [hjournaled.load_directory h.represents, h.reconcile_eq]

theorem compact_eq (store : ChainStore) :
    store.compact.state = store.state ∧ store.compact.logs = store.logs := by
  rw [compact]
  split <;> exact ⟨rfl, rfl⟩

theorem Aligned.compact (h : store.Aligned logs) : store.compact.Aligned logs := by
  obtain ⟨hstate, hlogs⟩ := compact_eq store
  exact ⟨hlogs ▸ h.represents, hstate ▸ h.keyed, hstate ▸ h.covers⟩

theorem Sound.compact (h : store.Sound) : store.compact.Sound := by
  obtain ⟨logs, haligned⟩ := h.aligned
  exact ⟨⟨logs, haligned.compact⟩, h.journaled.compact⟩

theorem Sound.perform (h : store.Sound) {operation : Operation} (hrange : operation.InRange) :
    (store.perform operation).store.Sound := by
  obtain ⟨logs, haligned⟩ := h.aligned
  refine ⟨haligned.perform hrange, ?_⟩
  rcases perform_cases haligned.listed operation with
    ⟨kept, observed, result, -, hperform⟩ | ⟨change, -, kept, observed, -, hperform⟩
  · rw [hperform]
    exact h.journaled
  · rw [hperform]
    exact h.journaled.commit kept change

theorem sound_empty : empty.Sound where
  aligned := by
    refine ⟨[], LogStore.represents_empty, fun number sealed hget => ?_, fun position => ?_⟩
    · cases hget
    · constructor
      · rintro ⟨hash, hmem⟩
        exact absurd hmem List.not_mem_nil
      · rintro ⟨sealed, hget, -⟩
        cases hget
  journaled := ⟨[], rfl, rfl⟩

/-- What may happen to a chain: a write, or that it is closed and opened again. -/
inductive Step where
  | write (operation : Operation)
  | reopen

def Step.InRange : Step → Prop
  | .write operation => operation.InRange
  | .reopen => True

/-- The chain after a step. A write that fails leaves a chain too. -/
def after (store : ChainStore) : Step → Except (StorageError × Directory) ChainStore
  | .write operation => .ok (store.perform operation).store
  | .reopen => load store.directory

def run (store : ChainStore) (steps : List Step) : Except (StorageError × Directory) ChainStore :=
  steps.foldlM after store

theorem Sound.run (h : store.Sound) {steps : List Step} (hrange : ∀ step ∈ steps, step.InRange) :
    ∃ last, store.run steps = .ok last ∧ last.Sound := by
  induction steps generalizing store with
  | nil => exact ⟨store, rfl, h⟩
  | cons step rest ih =>
    obtain ⟨next, hnext, hsound⟩ : ∃ next, store.after step = .ok next ∧ next.Sound := by
      cases step with
      | write operation => exact ⟨_, rfl, h.perform (hrange _ List.mem_cons_self)⟩
      | reopen => exact ⟨store.compact, h.load_directory, h.compact⟩
    obtain ⟨last, hlast, hend⟩ := ih hsound fun other hmem =>
      hrange other (List.mem_cons_of_mem _ hmem)
    refine ⟨last, ?_, hend⟩
    rw [ChainStore.run, List.foldlM_cons, hnext]
    exact hlast

/-- A new chain takes a block with a log for every index. -/
theorem run_seal_full {block : BlockRef} (hzero : block.number ≠ 0)
    (hmax : block.number < maxNumber) (hash : Hash) :
    ∃ store logs, (load .empty >>= fun new =>
        new.run [.write (.seal block (Log.numbered 4294967296 hash))]) = .ok store ∧
      store.state.blocks.get? block.number =
        some (Ledger.sealedWith block (Log.numbered 4294967296 hash)) ∧
      store.Journaled ∧ store.EndsUncounted logs ⟨block.number, 4294967295⟩ := by
  obtain ⟨logs, haligned⟩ := sound_empty.aligned
  have hallows : empty.state.Allows (.seal block (Log.numbered 4294967296 hash))
      (.seal (Ledger.sealedWith block (Log.numbered 4294967296 hash))) :=
    .seal block _ fun _ hlatest => nomatch hlatest
  have hindex := @Log.index_numbered 4294967296 hash (Nat.le_refl _)
  obtain ⟨-, kept, observed, -, hperform⟩ := haligned.listed.makes_seal hallows hzero hindex
  have hends := haligned.listed.endsUncounted hallows hzero hmax hindex (Log.length_numbered _ _)
  refine ⟨(empty.perform _).store, _, rfl, ?_, ?_, hends⟩
  · rw [hperform]
    exact Table.get?_insert_self
  · rw [hperform]
    exact sound_empty.journaled.commit kept _

/-- Whatever is done to a chain that starts in an empty directory, opening its files again works
and changes neither indexes nor logs. -/
theorem reopen_same (steps : List Step) (hrange : ∀ step ∈ steps, step.InRange) :
    ∃ store, (load .empty >>= fun new => new.run steps) = .ok store ∧
      load store.directory = .ok store.compact ∧
      store.compact.state = store.state ∧ store.compact.logs = store.logs := by
  obtain ⟨store, hrun, hsound⟩ := sound_empty.run hrange
  exact ⟨store, hrun, hsound.load_directory, compact_eq store⟩

/-- A run in which a block is sealed with a log, another one is refused, and the chain is opened
again before the block is dropped. -/
theorem reopen_same_after_invalidation :
    let block (number : UInt64) (hash parent : UInt8) : BlockRef :=
      ⟨.ofBytes [hash], number, .ofBytes [parent], number⟩
    let anchor : DerivedPair := ⟨block 0 9 0, block 1 1 0⟩
    let next : DerivedPair := ⟨block 0 9 0, block 2 2 1⟩
    ∃ store, (load .empty >>= fun new => new.run [.write (.initialise anchor),
        .write (.seal next.derived [⟨0, .ofBytes [7], none⟩]), .write (.seal (block 3 3 2)
        [⟨1, .ofBytes [8], none⟩]), .write (.addDerived next), .reopen,
        .write (.invalidate next)]) = .ok store ∧
      load store.directory = .ok store.compact ∧
      store.compact.state = store.state ∧ store.compact.logs = store.logs := by
  intro block anchor next
  refine reopen_same _ ?_
  simp only [List.forall_mem_cons, List.not_mem_nil, Step.InRange, Operation.InRange]
  exact ⟨by decide, ⟨by decide, by decide⟩, ⟨by decide, by decide⟩, trivial, trivial, trivial,
    fun _ hmem => hmem.elim⟩

/-- A chain takes a block with a log for every index, and then its files do not open. -/
theorem reopen_fails_behind_full_block :
    let block : BlockRef := ⟨.ofBytes [1], 1, .ofBytes [0], 1⟩
    ∃ store, (load .empty >>= fun new =>
        new.run [.write (.seal block (Log.numbered 4294967296 (.ofBytes [7])))]) = .ok store ∧
      load store.directory = .error (.dataCorruption
        "last log (1, 4294967295) is not indexed by any sealed block", store.directory) := by
  intro block
  obtain ⟨store, logs, hrun, -, hjournaled, hends⟩ :=
    @run_seal_full block (by decide) (by decide) (.ofBytes [7])
  have htext : unindexed ⟨1, 4294967295⟩ = .dataCorruption
      "last log (1, 4294967295) is not indexed by any sealed block" := rfl
  exact ⟨store, hrun, htext ▸ hends.load_directory hjournaled⟩

end ChainStore

end CrossSafety
