import CrossSafety.Proofs.Chain.Reopen

/-!
# How the indexes of a chain move

Steps of a write that concern the logs leave indexes and journal alone, so a write makes its one
allowed change or none, whatever the log file holds. Opening a chain replays the journal and then
drops sealed blocks or nothing. `Ledger.Moves` lists these moves, and a property of the indexes that
they all keep holds after every run.
-/
namespace CrossSafety

/-- Whether a step concerns the logs only. -/
def WriteStep.OnLogs : WriteStep → Prop
  | .commit _ => False
  | _ => True

theorem Ledger.onLogs_logSteps (state : Ledger) (operation : Operation) :
    ∀ step ∈ state.logSteps operation, step.OnLogs := by
  intro step hmem
  cases operation with
  | «seal» block logs =>
    obtain ⟨log, -, rfl⟩ := List.mem_map.mp hmem
    trivial
  | invalidate candidate =>
    rw [logSteps] at hmem
    split at hmem
    · rw [List.mem_singleton.mp hmem]
      trivial
    · exact absurd hmem List.not_mem_nil
  | rewindLocalUnsafe target =>
    rw [List.mem_singleton.mp hmem]
    trivial
  | _ => exact absurd hmem List.not_mem_nil

/-- One step of a chain moves its indexes by an allowed change of the write or, when the chain is
opened, by dropping the sealed blocks from one of them on. -/
inductive Ledger.Moves (state : Ledger) : ChainStore.Step → Ledger → Prop where
  | stay (step : ChainStore.Step) : Moves state step state
  | change {operation : Operation} {change : Change} (allowed : state.Allows operation change) :
      Moves state (.write operation) (state.apply change)
  | drop {number : UInt64} {sealed : SealedBlock}
      (known : state.blocks.get? number = some sealed)
      (above : state.requireAboveFinalized (numberBefore sealed.block.number) = .ok ()) :
      Moves state .reopen (state.dropBlocksAbove (numberBefore sealed.block.number))

namespace ChainStore

variable {store : ChainStore}

/-! ## Log steps -/

theorem rewindLogs_store (store : ChainStore) (block : UInt64) :
    ∃ logs, (store.rewindLogs block).store = { store with logs } := by
  unfold rewindLogs
  split <;> exact ⟨_, rfl⟩

theorem take_store (store : ChainStore) (rollback : UInt64) {step : WriteStep}
    (h : step.OnLogs) :
    ∃ logs, (store.take rollback step).store = { store with logs } := by
  cases step with
  | addLog hash block timestamp index =>
    unfold take
    dsimp only
    split
    · exact ⟨_, rfl⟩
    · rename_i kept _
      obtain ⟨logs, hlogs⟩ := rewindLogs_store { store with logs := kept } rollback
      split <;> exact ⟨logs, hlogs⟩
  | rewindLogs block => exact rewindLogs_store store block
  | commit change => exact h.elim

theorem takeAll_store (store : ChainStore) (rollback : UInt64) {steps : List WriteStep}
    (h : ∀ step ∈ steps, step.OnLogs) :
    ∃ logs, (store.takeAll rollback steps).store = { store with logs } := by
  induction steps generalizing store with
  | nil => exact ⟨store.logs, rfl⟩
  | cons step rest ih =>
    obtain ⟨logs, hfirst⟩ := take_store store rollback (h step List.mem_cons_self)
    unfold takeAll
    dsimp only
    split
    · exact ⟨logs, hfirst⟩
    · rw [hfirst]
      exact ih _ fun other hmem => h other (List.mem_cons_of_mem _ hmem)

/-- A change that comes after log steps is made if they succeed, and else only logs have changed. -/
theorem takeAll_commit_store (store : ChainStore) (rollback : UInt64) {steps : List WriteStep}
    (h : ∀ step ∈ steps, step.OnLogs) (change : Change) :
    ∃ logs, match (store.takeAll rollback (steps ++ [.commit change])).result with
      | .ok () => (store.takeAll rollback (steps ++ [.commit change])).store =
          { store with logs }.commit change
      | .error _ => (store.takeAll rollback (steps ++ [.commit change])).store =
          { store with logs } := by
  obtain ⟨logs, hlogs⟩ := takeAll_store store rollback h
  refine ⟨logs, ?_⟩
  rw [takeAll_commit]
  dsimp only
  cases hresult : (store.takeAll rollback steps).result with
  | error error =>
    simp only [hresult]
    exact hlogs
  | ok done =>
    dsimp only
    rw [hlogs]

/-! ## Writes and openings -/

/-- A write that succeeds had nothing to do, or makes the one change that was allowed. -/
theorem perform_ok {operation : Operation} (h : (store.perform operation).result = .ok ()) :
    store.state.plan operation = .ok [] ∧ (store.perform operation).store = store ∨
      ∃ change logs, store.state.Allows operation change ∧
        (store.perform operation).store = { store with logs }.commit change := by
  cases hplan : store.state.plan operation with
  | error error =>
    rw [perform, hplan] at h
    cases h
  | ok steps =>
    rw [perform, hplan] at h ⊢
    rcases Ledger.plan_cases hplan with rfl | ⟨change, hallows, rfl⟩
    · exact .inl ⟨rfl, rfl⟩
    · obtain ⟨logs, hstore⟩ := takeAll_commit_store store store.state.latestNumber
        (store.state.onLogs_logSteps operation) change
      dsimp only at h ⊢
      rw [h] at hstore
      exact .inr ⟨change, logs, hallows, hstore⟩

/-- A write that does not add anything makes its change if it succeeds. -/
theorem perform_changes {operation : Operation} (h : (store.perform operation).result = .ok ())
    (hadds : operation.Adds = false) : ∃ change logs, store.state.Allows operation change ∧
      (store.perform operation).store = { store with logs }.commit change := by
  refine (perform_ok h).resolve_left fun hidle => ?_
  rw [Ledger.adds_of_plan_nil hidle.1] at hadds
  cases hadds

/-- A write that fails changes logs at most. -/
theorem perform_error {operation : Operation} {error : StorageError}
    (h : (store.perform operation).result = .error error) :
    ∃ logs, (store.perform operation).store = { store with logs } := by
  cases hplan : store.state.plan operation with
  | error error => exact ⟨store.logs, by rw [perform, hplan]⟩
  | ok steps =>
    rw [perform, hplan] at h ⊢
    rcases Ledger.plan_cases hplan with rfl | ⟨change, -, rfl⟩
    · cases h
    · obtain ⟨logs, hstore⟩ := takeAll_commit_store store store.state.latestNumber
        (store.state.onLogs_logSteps operation) change
      dsimp only at h ⊢
      rw [h] at hstore
      exact ⟨logs, hstore⟩

/-- A write changes logs only, or makes the one change that was allowed. -/
theorem perform_store (store : ChainStore) (operation : Operation) :
    (∃ logs, (store.perform operation).store = { store with logs }) ∨
      ∃ change logs, store.state.Allows operation change ∧
        (store.perform operation).store = { store with logs }.commit change := by
  cases hresult : (store.perform operation).result with
  | error error => exact .inl (perform_error hresult)
  | ok done => exact (perform_ok hresult).imp_left fun hidle => ⟨store.logs, hidle.2⟩

/-- Dropping blocks whose logs are missing is a change like any other. -/
theorem dropBlocksFrom_store {number : UInt64} (h : (store.dropBlocksFrom number).result = .ok ()) :
    store.state.requireAboveFinalized (numberBefore number) = .ok () ∧
      ∃ logs, (store.dropBlocksFrom number).store =
        { store with logs }.commit (.rewindLocalUnsafe (numberBefore number)) := by
  obtain ⟨logs, hstore⟩ := takeAll_commit_store store (numberBefore number)
    (List.forall_mem_singleton.mpr trivial : ∀ step ∈ [WriteStep.rewindLogs (numberBefore number)],
      step.OnLogs) (.rewindLocalUnsafe (numberBefore number))
  rw [List.singleton_append] at hstore
  unfold dropBlocksFrom at h ⊢
  dsimp only at h ⊢
  cases habove : store.state.requireAboveFinalized (numberBefore number) with
  | error error =>
    rw [habove] at h
    cases h
  | ok done =>
    rw [habove] at h
    dsimp only at h ⊢
    rw [h] at hstore
    exact ⟨rfl, logs, hstore⟩

theorem dropBlocksFrom_failed {number : UInt64} {error : StorageError}
    (h : (store.dropBlocksFrom number).result = .error error) :
    ∃ logs, (store.dropBlocksFrom number).store = { store with logs } := by
  obtain ⟨logs, hstore⟩ := takeAll_commit_store store (numberBefore number)
    (List.forall_mem_singleton.mpr trivial : ∀ step ∈ [WriteStep.rewindLogs (numberBefore number)],
      step.OnLogs) (.rewindLocalUnsafe (numberBefore number))
  rw [List.singleton_append] at hstore
  unfold dropBlocksFrom at h ⊢
  dsimp only at h ⊢
  cases habove : store.state.requireAboveFinalized (numberBefore number) with
  | error error => exact ⟨store.logs, rfl⟩
  | ok done =>
    rw [habove] at h
    dsimp only at h ⊢
    rw [h] at hstore
    exact ⟨logs, hstore⟩

theorem trim_store (store : ChainStore) : ∃ logs, store.trim.store = { store with logs } := by
  unfold trim
  lift_lets
  intro excess
  cases excess with
  | true => exact rewindLogs_store store _
  | false => exact ⟨store.logs, rfl⟩

theorem settle_store (h : store.settle.result = .ok ()) :
    store.settle.store = store ∨
      ∃ number sealed logs, store.state.blocks.get? number = some sealed ∧
        store.state.requireAboveFinalized (numberBefore sealed.block.number) = .ok () ∧
        store.settle.store =
          { store with logs }.commit (.rewindLocalUnsafe (numberBefore sealed.block.number)) := by
  unfold settle at h ⊢
  cases hfind : store.state.blocks.values.find? (lacksLogs store.logs.latest) with
  | some sealed =>
    rw [hfind] at h
    obtain ⟨number, hget⟩ := Table.mem_values.mp (List.mem_of_find?_eq_some hfind)
    obtain ⟨habove, logs, hstore⟩ := dropBlocksFrom_store h
    exact .inr ⟨number, sealed, logs, hget, habove, hstore⟩
  | none =>
    refine .inl ?_
    dsimp only
    repeat' split
    all_goals rfl

/-- Reconciling changes logs only, or drops the sealed blocks from one of them on. -/
theorem reconcile_store (h : store.reconcile.result = .ok ()) :
    (∃ logs, store.reconcile.store = { store with logs }) ∨
      ∃ number sealed logs, store.state.blocks.get? number = some sealed ∧
        store.state.requireAboveFinalized (numberBefore sealed.block.number) = .ok () ∧
        store.reconcile.store =
          { store with logs }.commit (.rewindLocalUnsafe (numberBefore sealed.block.number)) := by
  obtain ⟨logs, hlogs⟩ := trim_store store
  rw [reconcile_eq] at h ⊢
  split at h
  · rename_i herror
    rw [herror] at h
    cases h
  · rw [hlogs] at h ⊢
    rcases settle_store h with hstore | ⟨number, sealed, kept, hget, habove, hstore⟩
    · exact .inl ⟨logs, hstore⟩
    · exact .inr ⟨number, sealed, kept, hget, habove, hstore⟩

/-- Reconciling that fails changes logs at most. -/
theorem reconcile_failed {error : StorageError} (h : store.reconcile.result = .error error) :
    ∃ logs, store.reconcile.store = { store with logs } := by
  obtain ⟨logs, hlogs⟩ := trim_store store
  rw [reconcile_eq] at h ⊢
  split at h
  · exact ⟨logs, hlogs⟩
  · rw [hlogs] at h ⊢
    unfold settle at h ⊢
    split at h
    · obtain ⟨kept, hstore⟩ := dropBlocksFrom_failed h
      exact ⟨kept, hstore⟩
    · refine ⟨logs, ?_⟩
      repeat' split
      all_goals rfl

/-! ## Runs -/

/-- One step moves the indexes, and the journal leads to them again. -/
theorem Journaled.after (h : store.Journaled) {step : Step} {next : ChainStore}
    (hafter : store.after step = .ok next) :
    next.Journaled ∧ store.state.Moves step next.state := by
  cases step with
  | write operation =>
    cases hafter
    rcases perform_store store operation with
      ⟨logs, hstore⟩ | ⟨change, logs, hallows, hstore⟩
    · rw [hstore]
      exact ⟨h, .stay _⟩
    · rw [hstore]
      exact ⟨h.commit logs change, .change hallows⟩
  | reopen =>
    change load store.directory = _ at hafter
    cases hopen : LogStore.openFile (store.directory.logs.getD []) with
    | error failure =>
      rw [load, hopen] at hafter
      cases hafter
    | ok logs =>
      rw [h.load_eq hopen rfl rfl] at hafter
      dsimp only at hafter
      split at hafter
      · cases hafter
      · rename_i hresult
        cases hafter
        rw [(compact_eq _).1]
        rcases reconcile_store hresult with
          ⟨kept, hstore⟩ | ⟨number, sealed, kept, hget, habove, hstore⟩
        · rw [hstore]
          exact ⟨@Journaled.compact ⟨kept, _, _, _⟩ h, .stay _⟩
        · rw [hstore]
          exact ⟨(Journaled.commit h kept _).compact, .drop hget habove⟩

/-- What holds of the indexes and is kept by every move holds after any run. -/
theorem Journaled.run_preserves (h : store.Journaled) {P : Ledger → Prop} {steps : List Step}
    {last : ChainStore} (hrun : store.run steps = .ok last)
    (hmoves : ∀ step ∈ steps, ∀ state next, P state → state.Moves step next → P next)
    (hstart : P store.state) : P last.state ∧ last.Journaled := by
  induction steps generalizing store with
  | nil =>
    cases hrun
    exact ⟨hstart, h⟩
  | cons step rest ih =>
    rw [run, List.foldlM_cons] at hrun
    obtain ⟨next, hnext, hrun⟩ := Outcome.bind_eq_ok.mp hrun
    obtain ⟨hjournaled, hmove⟩ := h.after hnext
    exact ih hjournaled hrun (fun other hmem => hmoves other (List.mem_cons_of_mem _ hmem))
      (hmoves step List.mem_cons_self _ _ hstart hmove)

end ChainStore

end CrossSafety
