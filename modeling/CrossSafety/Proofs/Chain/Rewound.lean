import CrossSafety.Proofs.Chain.Advance

/-!
# What a rewind drops

A rewind cuts an index behind the number of its target and keeps what is there up to the number, with
or without a block at the target itself. The place of the cut is the number plus one in 64 bits, so a
rewind to the highest number cuts at zero and drops everything. All of this needs only that an index
keeps blocks by their numbers, which holds after every run, also after one that wrapped around.
-/
namespace CrossSafety

namespace Table

variable {α : Type} {table : Table UInt64 α} {block : α → BlockRef}

/-- Values are kept by the numbers of their blocks. -/
def KeyedBy (table : Table UInt64 α) (block : α → BlockRef) : Prop :=
  ∀ number value, table.get? number = some value → (block value).number = number

theorem KeyedBy.empty : (Table.empty : Table UInt64 α).KeyedBy block :=
  fun _ _ hget => nomatch hget

theorem KeyedBy.insert (h : table.KeyedBy block) (value : α) :
    (table.insert (block value).number value).KeyedBy block := by
  intro number other hget
  by_cases heq : number = (block value).number
  · subst heq
    rw [get?_insert_self] at hget
    cases hget
    rfl
  · rw [get?_insert_of_ne heq] at hget
    exact h number other hget

theorem KeyedBy.insertNew (h : table.KeyedBy block) (value : α) :
    (table.insertNew (block value).number value).KeyedBy block := by
  cases hget : table.get? (block value).number with
  | some found => rwa [insertNew_of_some hget]
  | none =>
    rw [insertNew_of_none hget]
    exact h.insert value

theorem KeyedBy.below (h : table.KeyedBy block) (number : UInt64) :
    (table.below number).KeyedBy block :=
  fun key value hget => h key value (get?_of_below hget)

/-- A cut behind a number keeps the values up to there. -/
theorem KeyedBy.below_succ (h : table.KeyedBy block) {number : UInt64}
    (hmax : number ≠ maxNumber) :
    table.below (number + 1) = table.filter fun value => (block value).number ≤ number := by
  have hlt : number < maxNumber := UInt64.lt_of_le_of_ne
    (UInt64.le_iff_toNat_le.mpr (Nat.le_of_lt_succ number.toNat_lt)) hmax
  refine ext_get? fun key => Option.ext fun value => ?_
  rw [Ledger.get?_below_succ hlt, get?_filter, decide_eq_true_iff]
  split
  · rename_i hle
    exact ⟨fun hget => ⟨hget, h key value hget ▸ hle⟩, And.left⟩
  · rename_i hnot
    exact ⟨fun hget => (nomatch hget), fun ⟨hget, hle⟩ => absurd (h key value hget ▸ hle) hnot⟩

theorem below_zero (table : Table UInt64 α) : table.below 0 = .empty :=
  ext_get? fun _ => get?_below.trans (if_neg (Nat.not_lt_zero _))

/-- Behind the highest number lies zero, so nothing is kept. -/
theorem below_max_succ (table : Table UInt64 α) : table.below (maxNumber + 1) = .empty :=
  below_zero table

end Table

namespace Ledger

variable {state after : Ledger}

/-- Cross-safe records are cut where local-safe ones are, at zero like anywhere else. -/
theorem dropLocalSafeFrom_crossDerived (number : UInt64) :
    (state.dropLocalSafeFrom number).crossDerived = state.crossDerived.below number := by
  by_cases hzero : number = 0
  · subst hzero
    exact (Table.below_zero _).symm
  · rw [dropLocalSafeFrom_of_ne hzero]
    change state.crossDerived.below (numberBefore number + 1) = _
    rw [numberBefore_succ hzero]

theorem apply_invalidate_crossDerived {derived : BlockRef} :
    (state.apply (.invalidate derived)).crossDerived = state.crossDerived.below derived.number := by
  rw [apply_invalidate]
  dsimp only
  rw [dropLocalSafeFrom_crossDerived]
  split <;> rfl

/-- Every index keeps its blocks by their numbers. -/
structure ByNumber (state : Ledger) : Prop where
  blocks : state.blocks.KeyedBy SealedBlock.block
  localDerived : state.localDerived.KeyedBy DerivedPair.derived
  crossDerived : state.crossDerived.KeyedBy DerivedPair.derived

theorem empty_byNumber : empty.ByNumber := ⟨.empty, .empty, .empty⟩

theorem ByNumber.dropLocalSafeFrom (h : state.ByNumber) (number : UInt64) :
    (state.dropLocalSafeFrom number).ByNumber where
  blocks := by
    rw [dropLocalSafeFrom_blocks]
    exact h.blocks
  localDerived := by
    rw [dropLocalSafeFrom_localDerived]
    exact h.localDerived.below number
  crossDerived := by
    rw [dropLocalSafeFrom_crossDerived]
    exact h.crossDerived.below number

/-- Every change that is allowed keeps blocks by their numbers, also behind the highest one. -/
theorem ByNumber.apply (h : state.ByNumber) {operation : Operation} {change : Change}
    (hallows : state.Allows operation change) : (state.apply change).ByNumber := by
  cases hallows with
  | initialise anchor =>
    exact ⟨h.blocks.insertNew (.bare anchor.derived), h.localDerived.insertNew anchor,
      h.crossDerived.insert anchor⟩
  | «seal» block logs => exact { h with blocks := h.blocks.insert (sealedWith block logs) }
  | addDerived pair => exact { h with localDerived := h.localDerived.insert pair }
  | setCrossSafe pair => exact { h with crossDerived := h.crossDerived.insertNew pair }
  | invalidate candidate =>
    refine ⟨?_, ?_, ?_⟩
    · rw [apply_invalidate_blocks]
      split
      · exact h.blocks.below _
      · exact h.blocks
    · rw [apply_invalidate_localDerived]
      exact h.localDerived.below _
    · rw [apply_invalidate_crossDerived]
      exact h.crossDerived.below _
  | rewindLocalUnsafe target => exact { h with blocks := h.blocks.below _ }
  | rewindLocalSafe target => exact { h.dropLocalSafeFrom (target.number + 1) with }
  | rewindCrossSafe target => exact { h with crossDerived := h.crossDerived.below _ }
  | addSource | setCrossUnsafe | setFinalized | rewindCrossUnsafe => exact { h with }

theorem ByNumber.moves (h : state.ByNumber) {step : ChainStore.Step}
    (hmoves : state.Moves step after) : after.ByNumber := by
  cases hmoves with
  | stay => exact h
  | change allowed => exact h.apply allowed
  | drop => exact { h with blocks := h.blocks.below _ }

/-! ## Cuts above everything -/

section Above

variable {number : UInt64}

/-- A cross-unsafe head that is not above the number stays when the blocks above are dropped. -/
theorem dropBlocksAbove_of_le
    (hhead : ∀ head, state.crossUnsafe = some head → head.number ≤ number) :
    state.dropBlocksAbove number = { state with blocks := state.blocks.below (number + 1) } := by
  have hsame : (state.dropBlocksAbove number).crossUnsafe = state.crossUnsafe := by
    rw [dropBlocksAbove_crossUnsafe]
    cases hsome : state.crossUnsafe with
    | none => rfl
    | some head => exact if_neg (UInt64.not_lt.mpr (hhead head hsome))
  change ({ state with
    blocks := state.blocks.below (number + 1)
    crossUnsafe := (state.dropBlocksAbove number).crossUnsafe } : Ledger) = _
  rw [hsame]

/-- Dropping what lies above a number changes nothing if nothing does. -/
theorem SealedConsistent.dropBlocksAbove_eq (h : state.SealedConsistent)
    (hmax : number < maxNumber)
    (hbelow : ∀ key sealed, state.blocks.get? key = some sealed → key ≤ number) :
    state.dropBlocksAbove number = state := by
  rw [dropBlocksAbove_of_le fun head hhead => ?_, below_succ_eq_self hmax hbelow]
  obtain ⟨sealed, hget, -⟩ := h.crossUnsafe head hhead
  exact hbelow _ _ hget

theorem CrossConsistent.dropCrossSafeAbove_eq (h : state.CrossConsistent)
    (hmax : number < maxNumber)
    (hbelow : ∀ key record, state.crossDerived.get? key = some record → key ≤ number) :
    state.dropCrossSafeAbove number = state := by
  have hcross : state.crossDerived.below (number + 1) = state.crossDerived :=
    below_succ_eq_self hmax hbelow
  have hhead : (state.dropCrossSafeAbove number).crossSafe = state.crossSafe := by
    rw [dropCrossSafeAbove_crossSafe]
    cases hhead : state.crossSafe with
    | none => rfl
    | some head =>
      obtain ⟨record, hget, -⟩ := h.get?_head hhead
      exact if_neg (UInt64.not_lt.mpr (hbelow _ _ hget))
  change ({ state with
    crossDerived := state.crossDerived.below (number + 1)
    crossSafe := (state.dropCrossSafeAbove number).crossSafe } : Ledger) = state
  rw [hcross, hhead]

/-- Behind a number that has a successor, cross-safe records are cut like local-safe ones. -/
theorem dropLocalSafeFrom_succ (hmax : number < maxNumber) :
    state.dropLocalSafeFrom (number + 1) = ({ state with
      localDerived := state.localDerived.below (number + 1) } : Ledger).dropCrossSafeAbove
        number := by
  have hne : number + 1 ≠ 0 := fun hzero => by
    have hsucc := toNat_succ_of_lt_max hmax
    rw [hzero, UInt64.toNat_zero] at hsucc
    omega
  rw [dropLocalSafeFrom_of_ne hne, numberBefore, if_neg hne, UInt64.add_sub_cancel]

/-- Cross-safe blocks are local-safe, so what does not lie above the local-safe head stays. -/
theorem Consistent.dropLocalSafeFrom_eq (h : state.Consistent) (hmax : number < maxNumber)
    (hbelow : ∀ key pair, state.localDerived.get? key = some pair → key ≤ number) :
    state.dropLocalSafeFrom (number + 1) = state := by
  rw [dropLocalSafeFrom_succ hmax, below_succ_eq_self hmax hbelow]
  refine h.dropCrossSafeAbove_eq hmax fun key record hget => ?_
  obtain ⟨known, hknown, -⟩ := h.localSafe key record hget
  exact hbelow key known hknown

end Above

end Ledger

namespace ChainStore

variable {store last : ChainStore} {target : BlockId} {steps : List Step}

theorem run_byNumber (hrun : (load .empty >>= fun new => new.run steps) = .ok last) :
    last.state.ByNumber :=
  (journaled_empty.run_preserves hrun (fun _ _ _ _ hstate => hstate.moves)
    Ledger.empty_byNumber).1

theorem perform_rewindLocalUnsafe
    (h : (store.perform (.rewindLocalUnsafe target)).result = .ok ()) :
    (store.perform (.rewindLocalUnsafe target)).store.state.blocks =
      store.state.blocks.below (target.number + 1) := by
  obtain ⟨change, logs, hallows, hstore⟩ := perform_changes h rfl
  cases hallows
  rw [hstore]
  rfl

/-- A rewind of sealed blocks fails only in its checks. -/
theorem Listed.perform_rewindLocalUnsafe {logs : LogList} (h : store.Listed logs)
    (target : BlockId) :
    (∃ error, store.state.requireKept target = .error error ∧
        store.perform (.rewindLocalUnsafe target) = ⟨.error error, store, []⟩) ∨
      ∃ sealed kept observed, store.state.sealedBlock target = .ok sealed ∧
        kept.Represents (logs.rewind target.number) ∧
        store.perform (.rewindLocalUnsafe target) =
          ⟨.ok (), { store with logs := kept }.commit (.rewindLocalUnsafe target.number),
            observed⟩ := by
  cases hplan : store.state.plan (.rewindLocalUnsafe target) with
  | error error =>
    rcases Outcome.bind_eq_error.mp hplan with hkept | ⟨_, -, hdone⟩
    · exact .inl ⟨error, hkept, by rw [perform, hplan]⟩
    · cases hdone
  | ok steps =>
    rcases Ledger.plan_cases hplan with rfl | ⟨change, hallows, rfl⟩
    · cases Ledger.adds_of_plan_nil hplan
    · cases hallows with
      | rewindLocalUnsafe _ sealed above known =>
        obtain ⟨kept, observed, hkept, htake⟩ := takeAll_rewindLogs h.represents target.number
          (.rewindLocalUnsafe target.number)
        refine .inr ⟨sealed, kept, observed, known, hkept, ?_⟩
        rw [perform, hplan]
        exact htake

theorem perform_rewindLocalSafe (h : (store.perform (.rewindLocalSafe target)).result = .ok ()) :
    (store.perform (.rewindLocalSafe target)).store.state.localDerived =
        store.state.localDerived.below (target.number + 1) ∧
      (store.perform (.rewindLocalSafe target)).store.state.crossDerived =
        store.state.crossDerived.below (target.number + 1) := by
  obtain ⟨change, logs, hallows, hstore⟩ := perform_changes h rfl
  cases hallows
  rw [hstore]
  exact ⟨Ledger.dropLocalSafeFrom_localDerived _, Ledger.dropLocalSafeFrom_crossDerived _⟩

theorem perform_rewindCrossSafe (h : (store.perform (.rewindCrossSafe target)).result = .ok ()) :
    (store.perform (.rewindCrossSafe target)).store.state.crossDerived =
      store.state.crossDerived.below (target.number + 1) := by
  obtain ⟨change, logs, hallows, hstore⟩ := perform_changes h rfl
  cases hallows
  rw [hstore]
  rfl

/-- What rewinds leave in the indexes of a chain that they cut. -/
structure RewindsKeep (store : ChainStore) (target : BlockId) (keep : BlockRef → Bool) : Prop where
  localUnsafe : (store.perform (.rewindLocalUnsafe target)).result = .ok () →
    (store.perform (.rewindLocalUnsafe target)).store.state.blocks =
      store.state.blocks.filter fun sealed => keep sealed.block
  localSafe : (store.perform (.rewindLocalSafe target)).result = .ok () →
    (store.perform (.rewindLocalSafe target)).store.state.localDerived =
        store.state.localDerived.filter (fun pair => keep pair.derived) ∧
      (store.perform (.rewindLocalSafe target)).store.state.crossDerived =
        store.state.crossDerived.filter fun pair => keep pair.derived
  crossSafe : (store.perform (.rewindCrossSafe target)).result = .ok () →
    (store.perform (.rewindCrossSafe target)).store.state.crossDerived =
      store.state.crossDerived.filter fun pair => keep pair.derived

/-- A rewind to a number that has a successor drops exactly what lies above it, after any run and
for any target. -/
theorem rewinds_keep_up_to (hrun : (load .empty >>= fun new => new.run steps) = .ok last)
    (htarget : target.number ≠ maxNumber) :
    last.RewindsKeep target fun block => block.number ≤ target.number := by
  have hnumbers := run_byNumber hrun
  have hlocal := hnumbers.localDerived.below_succ htarget
  have hcross := hnumbers.crossDerived.below_succ htarget
  exact {
    localUnsafe := fun hok =>
      (perform_rewindLocalUnsafe hok).trans (hnumbers.blocks.below_succ htarget)
    localSafe := fun hok =>
      (perform_rewindLocalSafe hok).imp (fun h => h.trans hlocal) fun h => h.trans hcross
    crossSafe := fun hok => (perform_rewindCrossSafe hok).trans hcross }

/-- A run with three blocks that are all cross-safe. Each rewind to the second one is accepted. -/
theorem rewinds_keep_up_to_second :
    let block (number : UInt64) (hash parent : UInt8) : BlockRef :=
      ⟨.ofBytes [hash], number, .ofBytes [parent], number⟩
    let source := block 1 10 9
    let pair (number : UInt64) (hash : UInt8) : DerivedPair := ⟨source, block number hash (hash - 1)⟩
    let steps : List Step := [.write (.initialise (pair 0 1)), .write (.seal (block 1 2 1) []),
      .write (.seal (block 2 3 2) []), .write (.addDerived (pair 1 2)),
      .write (.addDerived (pair 2 3)), .write (.setCrossSafe (pair 1 2)),
      .write (.setCrossSafe (pair 2 3))]
    let target := (block 1 2 1).id
    ∃ last, (load .empty >>= fun new => new.run steps) = .ok last ∧ target.number ≠ maxNumber ∧
      (last.perform (.rewindLocalUnsafe target)).result = .ok () ∧
      (last.perform (.rewindLocalSafe target)).result = .ok () ∧
      (last.perform (.rewindCrossSafe target)).result = .ok () ∧
      last.state.crossDerived.values = [pair 0 1, pair 1 2, pair 2 3] ∧
      (last.perform (.rewindCrossSafe target)).store.state.crossDerived.values =
        [pair 0 1, pair 1 2] ∧
      last.RewindsKeep target fun block => block.number ≤ target.number := by
  intro block source pair steps target
  exact ⟨_, rfl, by decide, by decide +kernel, by decide +kernel, by decide +kernel,
    by decide +kernel, by decide +kernel,
    @rewinds_keep_up_to _ target steps rfl (by decide)⟩

/-- A rewind to the highest number drops everything. -/
theorem rewinds_to_max_keep_nothing (store : ChainStore) (htarget : target.number = maxNumber) :
    store.RewindsKeep target fun _ => false := by
  have hcut {α : Type} (table : Table UInt64 α) :
      table.below (target.number + 1) = table.filter fun _ => false := by
    rw [htarget, Table.below_max_succ]
    exact Table.ext_entries (List.filter_false _).symm
  exact {
    localUnsafe := fun hok => (perform_rewindLocalUnsafe hok).trans (hcut _)
    localSafe := fun hok =>
      (perform_rewindLocalSafe hok).imp (fun h => h.trans (hcut _)) fun h => h.trans (hcut _)
    crossSafe := fun hok => (perform_rewindCrossSafe hok).trans (hcut _) }

/-- One block is local-safe and cross-safe, and a rewind to a number far above drops it. -/
example :
    let block (number : UInt64) (hash parent : UInt8) : BlockRef :=
      ⟨.ofBytes [hash], number, .ofBytes [parent], number⟩
    let store := (empty.perform (.initialise ⟨block 1 10 9, block 0 1 0⟩)).store
    let rewound := store.perform (.rewindLocalSafe ⟨maxNumber, .ofBytes [7]⟩)
    store.state.crossDerived.size = 1 ∧ rewound.result = .ok () ∧
      rewound.store.state.heads = ⟨some (block 0 1 0).toSeal, some (block 0 1 0).toSeal, none, none,
        none⟩ := by
  decide

end ChainStore

end CrossSafety
