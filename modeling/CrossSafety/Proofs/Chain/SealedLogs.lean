import CrossSafety.Proofs.Chain.Growth

/-!
# The logs that blocks were sealed with

What a chain should know about logs is told by its history: a block has the logs of the call that
sealed it, until it is dropped. `sealedLogs` collects them along a run. The stored logs are these
and no others after every step, be it a block that is sealed, one whose logs are refused half way,
a cut, or another opening of the files.

A block counts its logs in 32 bits. With one log for every index the count is zero again. As long as
no later block has logs, the files of such a chain do not open, but its stored logs are still those
it was told. In every other case the files open to the same chain.
-/
namespace CrossSafety

/-- The logs that come with a step that seals a block. -/
def ChainStore.Step.logs : Step → List Log
  | .write (.seal _ logs) => logs
  | _ => []

namespace Ledger

/-- The logs that blocks were sealed with after a step: those that were sealed before keep theirs,
and a new block has those of the step. -/
def toldAfter (state : Ledger) (told : UInt64 → List Log) (step : ChainStore.Step) :
    UInt64 → List Log :=
  fun number => if state.blocks.contains number then told number else step.logs

/-- Sealed blocks were sealed with the logs that are told, and these are the stored ones, each at
the index of its place. -/
structure Carries (state : Ledger) (told : UInt64 → List Log) (logs : LogList) : Prop where
  counted : ∀ number sealed, state.blocks.get? number = some sealed →
    sealed.logCount = UInt32.ofNat (told number).length ∧ (told number).length ≤ 4294967296
  stored : ∀ position hash, ⟨position, hash⟩ ∈ logs ↔
    (∃ sealed, state.blocks.get? position.block = some sealed) ∧
      ∃ log, (told position.block)[position.index.toNat]? = some log ∧ log.hash.short = hash

section Carries

variable {state other : Ledger} {told : UInt64 → List Log} {logs : LogList}

theorem Carries.below (h : state.Carries told logs) (hkeyed : state.Keyed) :
    ∀ entry ∈ logs, entry.position.block ≤ state.latestNumber := by
  intro entry hmem
  obtain ⟨⟨sealed, hget⟩, -⟩ := (h.stored entry.position entry.hash).mp hmem
  exact latestNumber_le hkeyed hget

/-- A block without told logs has none stored. -/
theorem Carries.not_mem (h : state.Carries told logs) {number : UInt64}
    (hnone : state.blocks.get? number = none ∨ told number = []) {position : Position}
    (hblock : position.block = number) (hash : ShortHash) : ⟨position, hash⟩ ∉ logs := by
  intro hmem
  obtain ⟨⟨sealed, hget⟩, log, hlog, -⟩ := (h.stored position hash).mp hmem
  rw [hblock] at hget hlog
  rcases hnone with hnone | hnil
  · rw [hnone] at hget
    cases hget
  · rw [hnil] at hlog
    cases hlog

/-- Only what is told of sealed blocks matters. -/
theorem Carries.retold (h : state.Carries told logs) {retold : UInt64 → List Log}
    (hsame : ∀ number sealed, state.blocks.get? number = some sealed →
      retold number = told number) : state.Carries retold logs where
  counted number sealed hget := hsame number sealed hget ▸ h.counted number sealed hget
  stored position hash := by
    rw [h.stored]
    refine and_congr_right fun ⟨sealed, hget⟩ => ?_
    rw [hsame _ sealed hget]

theorem Carries.toldAfter (h : state.Carries told logs) (step : ChainStore.Step) :
    state.Carries (state.toldAfter told step) logs :=
  h.retold fun _ sealed hget => if_pos (Table.contains_iff.mpr ⟨sealed, hget⟩)

theorem toldAfter_of_none {number : UInt64} (h : state.blocks.get? number = none)
    (step : ChainStore.Step) : state.toldAfter told step number = step.logs := by
  refine if_neg fun hcontains => ?_
  obtain ⟨sealed, hget⟩ := Table.contains_iff.mp hcontains
  rw [h] at hget
  cases hget

theorem Carries.of_blocks (h : state.Carries told logs) (hblocks : other.blocks = state.blocks) :
    other.Carries told logs :=
  ⟨fun number sealed hget => h.counted number sealed (hblocks ▸ hget), fun position hash => by
    rw [hblocks]
    exact h.stored position hash⟩

/-- Blocks and logs are dropped down to the same number. -/
theorem Carries.rewind (h : state.Carries told logs) {number : UInt64}
    (hmax : number < maxNumber) (hblocks : other.blocks = state.blocks.below (number + 1)) :
    other.Carries told (logs.rewind number) where
  counted key sealed hget := h.counted key sealed (Table.get?_of_below (hblocks ▸ hget))
  stored position hash := by
    rw [LogList.mem_rewind, h.stored, hblocks, get?_below_succ hmax]
    dsimp only
    by_cases hle : position.block ≤ number
    · rw [if_pos hle, and_iff_left hle]
    · simp [hle]

/-- A new block brings the logs it is sealed with. -/
theorem Carries.seal (h : state.Carries told logs) {block : BlockRef}
    (hindex : ∀ i (hi : i < (told block.number).length), (told block.number)[i].index.toNat = i)
    (hnone : state.blocks.get? block.number = none) :
    (state.apply (.seal (sealedWith block (told block.number)))).Carries told
      (logs ++ .ofBlock block.number (told block.number)) where
  counted number sealed hget := by
    change (state.blocks.insert block.number _).get? number = _ at hget
    by_cases heq : number = block.number
    · subst heq
      rw [Table.get?_insert_self] at hget
      cases hget
      exact ⟨rfl, length_le_of_index_eq hindex⟩
    · rw [Table.get?_insert_of_ne heq] at hget
      exact h.counted number sealed hget
  stored position hash := by
    change _ ↔ (∃ sealed, (state.blocks.insert block.number _).get? position.block = some sealed) ∧ _
    rw [List.mem_append, LogList.mem_ofBlock]
    by_cases heq : position.block = block.number
    · rw [or_iff_right (h.not_mem (.inl hnone) heq hash), heq, Table.get?_insert_self,
        and_iff_right ⟨_, rfl⟩]
      constructor
      · rintro ⟨log, hmem, rfl, rfl⟩
        obtain ⟨i, hi, rfl⟩ := List.getElem_of_mem hmem
        exact ⟨_, by rw [hindex i hi, List.getElem?_eq_getElem hi], rfl⟩
      · rintro ⟨log, hlog, rfl⟩
        obtain ⟨hi, rfl⟩ := List.getElem?_eq_some_iff.mp hlog
        have hposition := UInt32.toNat_inj.mp (hindex _ hi)
        exact ⟨_, List.getElem_mem hi, by rw [hposition, ← heq], rfl⟩
    · rw [or_iff_left, Table.get?_insert_of_ne heq, h.stored]
      rintro ⟨log, -, rfl, -⟩
      exact heq rfl

/-- The anchor of a chain is stored without logs, unless it is sealed already. -/
theorem Carries.initialise (h : state.Carries told logs) {anchor : DerivedPair}
    (hbare : state.blocks.get? anchor.derived.number = none → told anchor.derived.number = []) :
    (state.apply (.initialise anchor)).Carries told logs := by
  have hblocks : (state.apply (.initialise anchor)).blocks =
      state.blocks.insertNew anchor.derived.number (.bare anchor.derived) := rfl
  cases hanchor : state.blocks.get? anchor.derived.number with
  | some known => exact h.of_blocks (hblocks.trans (Table.insertNew_of_some hanchor))
  | none =>
    have hnil := hbare hanchor
    rw [Table.insertNew_of_none hanchor] at hblocks
    refine ⟨fun number sealed hget => ?_, fun position hash => ?_⟩ <;>
      rw [hblocks] at *
    · by_cases heq : number = anchor.derived.number
      · subst heq
        rw [Table.get?_insert_self] at hget
        cases hget
        rw [hnil]
        exact ⟨rfl, Nat.zero_le _⟩
      · rw [Table.get?_insert_of_ne heq] at hget
        exact h.counted number sealed hget
    · by_cases heq : position.block = anchor.derived.number
      · rw [iff_false_left (h.not_mem (.inl hanchor) heq hash), heq, hnil]
        simp
      · rw [Table.get?_insert_of_ne heq]
        exact h.stored position hash

/-- An allowed change and what goes with it in the list keep the logs those that were told. -/
theorem Carries.apply (h : state.Carries told logs) (hkeyed : state.Keyed) {operation : Operation}
    {change : Change} (hmax : ∀ number ∈ operation.blockNumbers, number < maxNumber)
    (hallows : state.Allows operation change)
    (hordered : (state.logsAfter logs operation).Ordered .origin) :
    (state.apply change).Carries (state.toldAfter told (.write operation))
      (state.logsAfter logs operation) := by
  have hkept := h.toldAfter (.write operation)
  cases hallows with
  | initialise anchor => exact hkept.initialise fun hnone => toldAfter_of_none hnone _
  | «seal» block fresh next =>
    have hnone : state.blocks.get? block.number = none := by
      cases hlast : state.latest? with
      | none => exact Table.last?_eq_none.mp hlast _
      | some latest => exact (next latest hlast).1
    have hfresh : state.toldAfter told (.write (.seal block fresh)) block.number = fresh :=
      toldAfter_of_none hnone _
    have hindex : ∀ i (hi : i < (state.toldAfter told (.write (.seal block fresh))
        block.number).length), (state.toldAfter told (.write (.seal block fresh))
          block.number)[i].index.toNat = i := by
      rw [hfresh]
      exact index_eq_of_new (h.below hkeyed) hordered (latestNumber_lt hkeyed next)
    have hcarries := hkept.seal hindex hnone
    rw [hfresh] at hcarries
    exact hcarries
  | invalidate candidate known recorded hash above parent =>
    have hblocks : (state.apply (.invalidate candidate.derived)).blocks = _ :=
      apply_invalidate_blocks candidate.derived
    by_cases hdrops : state.Drops candidate.derived
    · have hparent : candidate.derived.parentId.number = candidate.derived.number - 1 :=
        if_neg hdrops.1
      have hnumber : candidate.derived.number - 1 + 1 = candidate.derived.number :=
        UInt64.sub_add_cancel _ _
      rw [if_pos hdrops, ← hnumber] at hblocks
      rw [logsAfter, if_pos hdrops, hparent]
      refine hkept.rewind (UInt64.lt_of_le_of_lt ?_ (hmax _ List.mem_cons_self)) hblocks
      rw [UInt64.le_iff_toNat_le, toNat_pred hdrops.1]
      exact Nat.sub_le _ _
    · rw [if_neg hdrops] at hblocks
      rw [logsAfter, if_neg hdrops]
      exact hkept.of_blocks hblocks
  | rewindLocalUnsafe target sealed above known =>
    exact hkept.rewind (hmax _ List.mem_cons_self) rfl
  | rewindLocalSafe target checked => exact hkept.of_blocks (dropLocalSafeFrom_blocks _)
  | _ => exact hkept.of_blocks rfl

/-- A block counts each of its logs, unless it has one for every index. -/
theorem Carries.counts_iff (h : state.Carries told logs) {number : UInt64} {sealed : SealedBlock}
    (hget : state.blocks.get? number = some sealed) {index : UInt32}
    (hindex : index.toNat < (told number).length) :
    index < sealed.logCount ↔ (told number).length ≠ 4294967296 := by
  obtain ⟨hcount, hlength⟩ := h.counted number sealed hget
  rw [UInt32.lt_iff_toNat_lt, hcount, UInt32.toNat_ofNat']
  rcases Nat.lt_or_eq_of_le hlength with hlt | hfull
  · rw [Nat.mod_eq_of_lt hlt]
    exact iff_of_true hindex (Nat.ne_of_lt hlt)
  · rw [hfull]
    exact iff_of_false (Nat.not_lt_zero _) fun hne => hne rfl

/-- The last log of a block that counts any is stored. -/
theorem Carries.last_mem (h : state.Carries told logs) (hkeyed : state.Keyed) {number : UInt64}
    {sealed : SealedBlock} (hget : state.blocks.get? number = some sealed)
    (hlogs : sealed.hasLogs = true) : ∃ hash, ⟨sealed.lastLog, hash⟩ ∈ logs := by
  obtain ⟨hcount, hlength⟩ := h.counted number sealed hget
  have hblock : sealed.lastLog.block = number := (hkeyed number sealed hget).1
  have hindex := UInt32.lt_iff_toNat_lt.mp (SealedBlock.lastLog_lt hlogs)
  have hinside : sealed.lastLog.index.toNat < (told number).length := by
    refine Nat.lt_of_lt_of_le hindex ?_
    rw [hcount, UInt32.toNat_ofNat']
    exact Nat.mod_le _ _
  refine ⟨(told number)[sealed.lastLog.index.toNat].hash.short, (h.stored _ _).mpr ?_⟩
  rw [hblock]
  exact ⟨⟨sealed, hget⟩, _, List.getElem?_eq_getElem hinside, rfl⟩

end Carries

end Ledger

namespace ChainStore

/-- The logs that blocks were sealed with after a run, given what is told of those in front of it. -/
def sealedLogs : ChainStore → (UInt64 → List Log) → List Step → UInt64 → List Log
  | _, told, [] => told
  | store, told, step :: rest =>
    match store.after step with
    | .error _ => told
    | .ok next => next.sealedLogs (store.state.toldAfter told step) rest

theorem sealedLogs_seal {store : ChainStore} {block : BlockRef}
    (h : store.state.blocks.get? block.number = none) (told : UInt64 → List Log)
    (fresh : List Log) :
    store.sealedLogs told [.write (.seal block fresh)] block.number = fresh :=
  Ledger.toldAfter_of_none h _

/-- A chain whose stored logs are those that its blocks were sealed with. -/
structure Traced (store : ChainStore) (told : UInt64 → List Log) : Prop where
  consistent : store.state.Consistent
  journaled : store.Journaled
  carried : ∃ logs, store.logs.Represents logs ∧ store.state.Carries told logs

variable {store next last : ChainStore} {told : UInt64 → List Log}

theorem Traced.exists_listed (h : store.Traced told) :
    ∃ logs, store.Listed logs ∧ store.state.Carries told logs := by
  obtain ⟨logs, hrep, hcarries⟩ := h.carried
  have hkeyed : store.state.Keyed := h.consistent.blocks.keyed
  exact ⟨logs, ⟨hrep, hkeyed, hcarries.below hkeyed⟩, hcarries⟩

theorem empty_traced : empty.Traced fun _ => [] where
  consistent := Ledger.empty_consistent
  journaled := journaled_empty
  carried := by
    refine ⟨[], LogStore.represents_empty, fun _ _ hget => (nomatch hget), fun position hash => ?_⟩
    refine iff_of_false List.not_mem_nil ?_
    rintro ⟨⟨sealed, hget⟩, -⟩
    cases hget

theorem Traced.toldAfter (h : store.Traced told) (step : Step) :
    store.Traced (store.state.toldAfter told step) := by
  obtain ⟨logs, hrep, hcarries⟩ := h.carried
  exact ⟨h.consistent, h.journaled, logs, hrep, hcarries.toldAfter step⟩

theorem Traced.compact (h : store.Traced told) : store.compact.Traced told := by
  obtain ⟨hstate, hlogs⟩ := compact_eq store
  exact ⟨hstate ▸ h.consistent, h.journaled.compact, by rw [hstate, hlogs]; exact h.carried⟩

/-- A write leaves logs that are those of the sealed blocks, whether it succeeds or not. -/
theorem Traced.perform (h : store.Traced told) {operation : Operation}
    (hmax : ∀ change, store.state.Allows operation change →
      ∀ number ∈ operation.blockNumbers, number < maxNumber) :
    (store.perform operation).store.Traced (store.state.toldAfter told (.write operation)) := by
  obtain ⟨logs, hlisted, hcarries⟩ := h.exists_listed
  rcases perform_cases hlisted operation with
    ⟨kept, observed, result, hkept, hperform⟩ | ⟨change, hallows, kept, observed, hkept, hperform⟩
  · rw [hperform]
    exact ⟨h.consistent, h.journaled, logs, hkept, hcarries.toldAfter _⟩
  · have hbounded := hmax change hallows
    rw [hperform]
    exact ⟨h.consistent.apply hbounded hallows, h.journaled.commit kept change, _, hkept,
      hcarries.apply hlisted.keyed hbounded hallows hkept.ordered⟩

/-- The block of the last log counts this log, unless it was sealed with one for every index. -/
theorem Listed.endsCounted {logs : LogList} (h : store.Listed logs)
    (hcarries : store.state.Carries told logs) (hlast : ∀ position, logs.latest = some position →
      (told position.block).length ≠ 4294967296) : store.EndsCounted logs where
  toListed := h
  stored _ _ hget := hcarries.last_mem h.keyed hget
  counted position hlatest := by
    obtain ⟨⟨hash, hmem⟩, -⟩ := LogList.latest_eq_some hlatest
    obtain ⟨⟨sealed, hget⟩, log, hlog, -⟩ := (hcarries.stored position hash).mp hmem
    obtain ⟨hinside, -⟩ := List.getElem?_eq_some_iff.mp hlog
    exact ⟨sealed, hget, (hcarries.counts_iff hget hinside).mpr (hlast position hlatest)⟩

theorem Listed.endsUncounted_of_full {logs : LogList} (h : store.Listed logs)
    (hcarries : store.state.Carries told logs) {position : Position}
    (hlatest : logs.latest = some position) (hfull : (told position.block).length = 4294967296) :
    store.EndsUncounted logs position := by
  refine ⟨h, hlatest, fun number sealed hget hlogs => ?_⟩
  obtain ⟨hash, hmem⟩ := hcarries.last_mem h.keyed hget hlogs
  have hbehind : ¬position < sealed.lastLog :=
    (h.represents.ordered.latest_eq_some.mp hlatest).2 ⟨sealed.lastLog, hash⟩ hmem
  have hblock : sealed.lastLog.block = number := (h.keyed number sealed hget).1
  have hle : number ≤ position.block :=
    UInt64.not_lt.mp fun hlt => hbehind (Position.lt_of_block_lt (hblock.symm ▸ hlt))
  refine UInt64.lt_of_le_of_ne hle ?_
  rintro rfl
  have hnone : sealed.logCount = 0 := by
    rw [(hcarries.counted _ sealed hget).1, hfull]
    rfl
  rw [SealedBlock.hasLogs, hnone] at hlogs
  cases hlogs

/-- Opening the files again gives the same chain, unless the block of the last log was sealed with a
log for every index. Then it fails and leaves the same files. -/
theorem Traced.load_cases (h : store.Traced told) :
    (load store.directory = .ok store.compact ∧ ∀ position, store.logs.latest = some position →
        (told position.block).length ≠ 4294967296) ∨
      ∃ position, store.logs.latest = some position ∧
        (told position.block).length = 4294967296 ∧
        load store.directory = .error (unindexed position, store.directory) := by
  obtain ⟨logs, hlisted, hcarries⟩ := h.exists_listed
  rw [hlisted.represents.latest_eq]
  by_cases hfull : ∃ position, logs.latest = some position ∧
      (told position.block).length = 4294967296
  · obtain ⟨position, hlatest, hfull⟩ := hfull
    have hends := hlisted.endsUncounted_of_full hcarries hlatest hfull
    exact .inr ⟨position, hlatest, hfull, hends.load_directory h.journaled⟩
  · have hlast : ∀ position, logs.latest = some position →
        (told position.block).length ≠ 4294967296 :=
      fun position hlatest hlength => hfull ⟨position, hlatest, hlength⟩
    exact .inl ⟨(hlisted.endsCounted hcarries hlast).load_directory h.journaled, hlast⟩

theorem Traced.after (h : store.Traced told) {step : Step} (hmax : step.BlocksBounded)
    (hafter : store.after step = .ok next) :
    next.Traced (store.state.toldAfter told step) := by
  cases step with
  | write operation =>
    cases hafter
    exact h.perform fun _ _ => hmax
  | reopen =>
    change load store.directory = _ at hafter
    rcases h.load_cases with ⟨hload, -⟩ | ⟨position, -, -, hload⟩
    · cases hload.symm.trans hafter
      exact (h.toldAfter _).compact
    · cases hload.symm.trans hafter

theorem Traced.run (h : store.Traced told) {steps : List Step}
    (hmax : ∀ step ∈ steps, step.BlocksBounded) (hrun : store.run steps = .ok last) :
    last.Traced (store.sealedLogs told steps) := by
  induction steps generalizing store told with
  | nil =>
    cases hrun
    exact h
  | cons step rest ih =>
    rw [ChainStore.run, List.foldlM_cons] at hrun
    obtain ⟨next, hnext, hrun⟩ := Outcome.bind_eq_ok.mp hrun
    rw [sealedLogs, hnext]
    exact ih (h.after (hmax step List.mem_cons_self) hnext)
      (fun other hmem => hmax other (List.mem_cons_of_mem _ hmem)) hrun

/-- A chain that started in an empty directory stores the logs that its blocks were sealed with. -/
theorem run_traced {steps : List Step} (hblocks : ∀ step ∈ steps, step.BlocksBounded)
    (hrun : (load .empty >>= fun new => new.run steps) = .ok last) :
    last.Traced (empty.sealedLogs (fun _ => []) steps) :=
  empty_traced.run hblocks hrun

/-- Whatever was done to a chain that started in an empty directory, its files open to the same
indexes and logs, unless the block of its last log was sealed with a log for every index. -/
theorem run_load {steps : List Step} (hblocks : ∀ step ∈ steps, step.BlocksBounded)
    (hrun : (load .empty >>= fun new => new.run steps) = .ok last) :
    (load last.directory = .ok last.compact ∧ last.compact.state = last.state ∧
        last.compact.logs = last.logs) ∨
      ∃ position, last.logs.latest = some position ∧
        (empty.sealedLogs (fun _ => []) steps position.block).length = 4294967296 ∧
        load last.directory = .error (unindexed position, last.directory) :=
  (run_traced hblocks hrun).load_cases.imp_left fun hopens => ⟨hopens.1, compact_eq last⟩

end ChainStore

end CrossSafety
