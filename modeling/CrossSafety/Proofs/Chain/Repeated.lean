import CrossSafety.Proofs.Chain.Invariant
import CrossSafety.Proofs.Chain.Rewound
import CrossSafety.Proofs.Chain.SealedLogs

/-!
# Repeating a write

A write that was made may be made again at once, and nothing changes: what it adds is there already,
or its change leads to the indexes that it is applied to. So a caller that does not know whether a
write was made can send it again. Only making a block invalid cannot be repeated, since the block is
gone then.
-/
namespace CrossSafety

namespace Ledger

variable {state : Ledger} {operation : Operation} {change : Change}

/-- A write with nothing left to do. Its plan is empty, or its change was made before and there are
no logs where it drops them. -/
inductive Done (state : Ledger) (operation : Operation) : Prop where
  | idle (plan : state.plan operation = .ok [])
  | made (change : Change) (allowed : state.Allows operation change)
      (same : state.apply change = state)
      (logs : ∀ step ∈ state.logSteps operation,
        ∃ number, step = .rewindLogs number ∧ state.latestNumber ≤ number)

/-- A change without logs that was made before. -/
theorem Done.plain (allowed : state.Allows operation change) (same : state.apply change = state)
    (hlogs : state.logSteps operation = []) : state.Done operation := by
  refine .made change allowed same ?_
  rw [hlogs]
  exact fun _ hmem => absurd hmem List.not_mem_nil

/-! ## Writes that add something -/

theorem done_initialise (state : Ledger) (anchor : DerivedPair) :
    (state.apply (.initialise anchor)).Done (.initialise anchor) := by
  have hget : (state.apply (.initialise anchor)).crossDerived.get? anchor.derived.number =
      some anchor := Table.get?_insert_self
  have hfull : ¬(state.apply (.initialise anchor)).crossDerived.isEmpty = true := fun hempty => by
    rw [Table.isEmpty_iff.mp hempty] at hget
    cases hget
  refine .idle ?_
  change (state.apply (.initialise anchor)).planInitialise anchor = .ok []
  rw [planInitialise, if_neg hfull]
  exact require_bind_eq_ok.mpr ⟨hget, rfl⟩

theorem done_seal (state : Ledger) (block : BlockRef) (logs : List Log) :
    (state.apply (.seal (sealedWith block logs))).Done (.seal block logs) := by
  have hget : (state.apply (.seal (sealedWith block logs))).blocks.get? block.number =
      some (sealedWith block logs) := Table.get?_insert_self
  obtain ⟨latest, hlatest⟩ := Table.Linked.exists_last hget
  refine .idle ?_
  change Ledger.planSeal _ block logs = .ok []
  unfold planSeal latest?
  dsimp only
  rw [hlatest, hget]
  exact require_bind_eq_ok.mpr ⟨rfl, rfl⟩

theorem done_addSource (state : Ledger) (source : BlockRef) :
    (state.apply (.addSource source)).Done (.addSource source) := by
  have hget : (state.apply (.addSource source)).sources.get? source.number = some source :=
    Table.get?_insert_self
  have hknown : (state.apply (.addSource source)).isNewSource source = .ok false := by
    rw [isNewSource, hget]
    exact if_pos rfl
  refine .idle ?_
  change Ledger.planSource _ source = .ok []
  rw [planSource, hknown]
  rfl

theorem done_addDerived (state : Ledger) (pair : DerivedPair) :
    (state.apply (.addDerived pair)).Done (.addDerived pair) := by
  have hget : (state.apply (.addDerived pair)).localDerived.get? pair.derived.number = some pair :=
    Table.get?_insert_self
  refine .idle ?_
  change Ledger.planDerived _ pair = .ok []
  rw [planDerived, hget]
  exact require_bind_eq_ok.mpr ⟨rfl, rfl⟩

/-! ## Rewinds -/

section Rewinds

variable {target : BlockId}

theorem le_of_below_succ {α : Type} {table : Table UInt64 α} {number key : UInt64} {value : α}
    (hmax : number < maxNumber) (hget : (table.below (number + 1)).get? key = some value) :
    key ≤ number := by
  rw [get?_below_succ hmax] at hget
  split at hget
  · assumption
  · cases hget

/-- The block at a number is the last one when those above it are dropped. -/
theorem latest?_dropBlocksAbove {number : UInt64} {sealed : SealedBlock}
    (hmax : number < maxNumber) (hget : state.blocks.get? number = some sealed) :
    (state.dropBlocksAbove number).latest? = some sealed := by
  refine Table.last?_eq_some.mpr ⟨number, ?_, fun key other hother => ?_⟩
  · rw [dropBlocksAbove_blocks, get?_below_succ hmax, if_pos (UInt64.le_refl _), hget]
  · exact UInt64.le_iff_toNat_le.mp (le_of_below_succ hmax hother)

theorem SealedConsistent.latestNumber_le (h : state.SealedConsistent) {number : UInt64}
    (hbelow : ∀ key sealed, state.blocks.get? key = some sealed → key ≤ number) :
    state.latestNumber ≤ number := by
  rw [latestNumber]
  cases hlatest : state.latest? with
  | none => exact UInt64.zero_le
  | some latest => exact hbelow _ _ (h.blocks.get?_last hlatest)

theorem Consistent.done_rewindLocalUnsafe (h : state.Consistent) (hmax : target.number < maxNumber)
    {sealed : SealedBlock} (above : state.requireAboveFinalized target.number = .ok ())
    (known : state.sealedBlock target = .ok sealed) :
    (state.dropBlocksAbove target.number).Done (.rewindLocalUnsafe target) := by
  have hcut := h.toSealedConsistent.dropBlocksAbove hmax
  have hbelow : ∀ key sealed,
      (state.dropBlocksAbove target.number).blocks.get? key = some sealed → key ≤ target.number :=
    fun _ _ hget => le_of_below_succ hmax hget
  have hkept : (state.dropBlocksAbove target.number).sealedBlock target = .ok sealed := by
    rw [sealedBlock, dropBlocksAbove_blocks, get?_below_succ hmax, if_pos (UInt64.le_refl _)]
    exact known
  refine .made _ (.rewindLocalUnsafe target sealed above hkept)
    (hcut.dropBlocksAbove_eq hmax hbelow) fun step hmem => ?_
  exact ⟨target.number, List.mem_singleton.mp hmem, hcut.latestNumber_le hbelow⟩

/-- A record at the target is still there after the cut behind it. -/
theorem checkRecord_below_succ {records : Table UInt64 DerivedPair}
    (hmax : target.number < maxNumber) (after : Ledger) (hfinalized : after.finalized = state.finalized)
    (checked : state.checkRecord records target = .ok ()) :
    after.checkRecord (records.below (target.number + 1)) target = .ok () := by
  rw [checkRecord, requireAboveFinalized, hfinalized, get?_below_succ hmax,
    if_pos (UInt64.le_refl _)]
  exact checked

theorem Consistent.done_rewindCrossSafe (h : state.Consistent) (hmax : target.number < maxNumber)
    (checked : state.checkRecord state.crossDerived target = .ok ()) :
    (state.dropCrossSafeAbove target.number).Done (.rewindCrossSafe target) :=
  .plain (.rewindCrossSafe target (checkRecord_below_succ hmax _ rfl checked))
    ((h.toCrossConsistent.dropCrossSafeAbove hmax).dropCrossSafeAbove_eq hmax
      fun _ _ hget => le_of_below_succ hmax hget) rfl

theorem Consistent.done_rewindLocalSafe (h : state.Consistent) (hmax : target.number < maxNumber)
    (checked : state.checkRecord state.localDerived target = .ok ()) :
    (state.apply (.rewindLocalSafe target.number)).Done (.rewindLocalSafe target) := by
  have hcut : (state.apply (.rewindLocalSafe target.number)).Consistent :=
    { h.dropLocalSafeFrom (target.number + 1) with }
  have hlocal : (state.apply (.rewindLocalSafe target.number)).localDerived =
      state.localDerived.below (target.number + 1) := dropLocalSafeFrom_localDerived _
  have hchecked := checkRecord_below_succ hmax (state.apply (.rewindLocalSafe target.number))
    (dropLocalSafeFrom_frame _).2 checked
  rw [← hlocal] at hchecked
  refine .plain (.rewindLocalSafe target hchecked) ?_ rfl
  have hinvalidated : (state.apply (.rewindLocalSafe target.number)).invalidated.filter
      (fun block => block.number ≤ target.number) =
        (state.apply (.rewindLocalSafe target.number)).invalidated := by
    refine Option.filter_filter.trans ?_
    simp only [Bool.and_self]
    rfl
  generalize state.apply (.rewindLocalSafe target.number) = after at hcut hlocal hinvalidated ⊢
  have hsame : after.dropLocalSafeFrom (target.number + 1) = after :=
    hcut.dropLocalSafeFrom_eq hmax fun _ _ hget => le_of_below_succ hmax (hlocal ▸ hget)
  rw [Ledger.apply, hsame, hinvalidated]

end Rewinds

/-! ## Every write -/

/-- A change that was made may be made again, unless it made a block invalid. -/
theorem Consistent.done_apply (h : state.Consistent) (hmax : operation.BlocksBounded)
    (hvalid : ∀ candidate, operation ≠ .invalidate candidate)
    (hallows : state.Allows operation change) : (state.apply change).Done operation := by
  cases hallows with
  | initialise anchor => exact done_initialise state anchor
  | «seal» block logs => exact done_seal state block logs
  | addSource source => exact done_addSource state source
  | addDerived pair => exact done_addDerived state pair
  | setCrossSafe pair known head recorded hash =>
    refine .plain (.setCrossSafe pair known pair recorded hash rfl (.inl ⟨rfl, rfl⟩)
      (UInt64.le_refl _)) ?_ rfl
    rw [Ledger.apply, Ledger.apply]
    dsimp only
    rw [Table.insertNew_of_some Table.get?_insertNew_self]
  | invalidate candidate => exact absurd rfl (hvalid candidate)
  | setCrossUnsafe block sealed known =>
    exact .plain (.setCrossUnsafe block sealed known) rfl rfl
  | setFinalized block pair cross hash =>
    refine .plain (.setFinalized block pair cross hash fun finalized hfinalized => ?_) rfl rfl
    cases hfinalized
    exact UInt64.le_refl _
  | rewindLocalUnsafe target sealed above known =>
    exact h.done_rewindLocalUnsafe (hmax _ List.mem_cons_self) above known
  | rewindCrossUnsafe target sealed above known =>
    refine .plain (.rewindCrossUnsafe target sealed above known) ?_ rfl
    rw [Ledger.apply, Ledger.apply]
    dsimp only
    rw [Option.map_map]
    congr 2
    -- the head is at the target already, or below it
    funext head
    simp only [Function.comp_apply]
    split <;> simp_all
  | rewindLocalSafe target checked =>
    exact h.done_rewindLocalSafe (hmax _ List.mem_cons_self) checked
  | rewindCrossSafe target checked =>
    exact h.done_rewindCrossSafe (hmax _ List.mem_cons_self) checked

end Ledger

namespace ChainStore

variable {store last : ChainStore} {operation : Operation} {logs : LogList} {steps : List Step}

/-- Dropping logs above the latest block drops none. -/
theorem Listed.takeAll_noop (h : store.Listed logs) (rollback : UInt64) {rewinds : List WriteStep}
    (hrewinds : ∀ step ∈ rewinds,
      ∃ number, step = .rewindLogs number ∧ store.state.latestNumber ≤ number) :
    ∃ observed, store.takeAll rollback rewinds = ⟨.ok (), store, observed⟩ := by
  induction rewinds with
  | nil => exact ⟨[], rfl⟩
  | cons step rest ih =>
    obtain ⟨number, rfl, hle⟩ := hrewinds step List.mem_cons_self
    obtain ⟨observed, hrest⟩ := ih fun other hmem => hrewinds other (List.mem_cons_of_mem _ hmem)
    have hkept : store.logs.rewind number = (.ok false, store.logs) :=
      LogStore.rewind_noop h.represents fun entry hmem => UInt64.le_trans (h.below entry hmem) hle
    refine ⟨LogStore.rewindObservations false store.logs ++ observed, ?_⟩
    rw [takeAll, take, rewindLogs, hkept]
    dsimp only
    rw [hrest]

/-- A write with nothing left to do leaves indexes and logs as they are. -/
theorem Listed.perform_done (h : store.Listed logs) (hdone : store.state.Done operation) :
    (store.perform operation).result = .ok () ∧
      (store.perform operation).store.state = store.state ∧
      (store.perform operation).store.logs = store.logs := by
  cases hdone with
  | idle plan =>
    rw [perform, plan]
    exact ⟨rfl, rfl, rfl⟩
  | made change allowed same rewinds =>
    obtain ⟨observed, hrewinds⟩ := h.takeAll_noop store.state.latestNumber rewinds
    rw [perform, Ledger.plan_of_allows allowed]
    dsimp only
    rw [takeAll_commit, hrewinds]
    exact ⟨rfl, same, rfl⟩

/-- A write that succeeded succeeds again and leaves indexes and logs as they are, unless it makes a
block invalid. -/
theorem write_again (hblocks : ∀ step ∈ steps, step.BlocksBounded)
    (hrun : (load .empty >>= fun new => new.run steps) = .ok last)
    (hmax : operation.BlocksBounded) (hvalid : ∀ candidate, operation ≠ .invalidate candidate)
    (hok : (last.perform operation).result = .ok ()) :
    let once := (last.perform operation).store
    (once.perform operation).result = .ok () ∧
      (once.perform operation).store.state = once.state ∧
      (once.perform operation).store.logs = once.logs := by
  intro once
  have htraced := run_traced hblocks hrun
  obtain ⟨logs, hlisted, -⟩ := (htraced.perform fun _ _ => hmax).exists_listed
  refine hlisted.perform_done ?_
  rcases perform_ok hok with ⟨hidle, hstore⟩ | ⟨change, kept, hallows, hstore⟩
  · rw [hstore]
    exact .idle hidle
  · rw [hstore]
    exact htraced.consistent.done_apply hmax hvalid hallows

/-- A run with two blocks, the second one with logs. A rewind to the first block drops these logs, and
the same rewind again drops nothing. -/
theorem write_again_rewind :
    let block (number : UInt64) (hash parent : UInt8) : BlockRef :=
      ⟨.ofBytes [hash], number, .ofBytes [parent], number⟩
    let log (index : UInt32) (hash : UInt8) : Log := ⟨index, .ofBytes [hash], none⟩
    let steps : List Step := [.write (.initialise ⟨block 1 10 9, block 0 1 0⟩),
      .write (.seal (block 1 2 1) [log 0 7, log 1 8])]
    let operation : Operation := .rewindLocalUnsafe (block 0 1 0).id
    ∃ last, (load .empty >>= fun new => new.run steps) = .ok last ∧
      last.logs.latest = some ⟨1, 1⟩ ∧ (last.perform operation).result = .ok () ∧
      let once := (last.perform operation).store
      once.logs.latest = none ∧ (once.perform operation).result = .ok () ∧
        (once.perform operation).store.state = once.state ∧
        (once.perform operation).store.logs = once.logs := by
  intro block log steps operation
  exact ⟨_, rfl, by decide +kernel, by decide +kernel, by decide +kernel,
    @write_again _ operation steps (by decide) rfl (by decide) (by simp [operation])
      (by decide +kernel)⟩

end ChainStore

end CrossSafety
