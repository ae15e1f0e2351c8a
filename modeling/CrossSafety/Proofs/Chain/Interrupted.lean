import CrossSafety.Proofs.Chain.Recovery

/-!
# Writes that stop half way

A write takes its steps in order, and each of them happens as a whole or not at all. `interrupted` is
the store that is left when a write stops after some of them. Only logs can be out of line then,
because the change of the indexes is the last step: either there are logs of a block that is not
sealed, or logs of sealed blocks were dropped. Opening the files puts both right.

A log that is refused undoes the logs of its block as part of its step. A stop between the two leaves
what a stop in front of the refused log leaves.

Behind a block that was sealed with a log for every index, nothing is put right: as long as the last
logs are its own, the files do not open, wherever the seal of the next block stops.
-/
namespace CrossSafety

/-- The block that the logs are rewound to by a write that drops sealed blocks. -/
def Ledger.rewindTarget (state : Ledger) : Operation → Option UInt64
  | .rewindLocalUnsafe target => some target.number
  | .invalidate candidate =>
    if state.Drops candidate.derived then some candidate.derived.parentId.number else none
  | _ => none

theorem Ledger.logSteps_of_rewindTarget {state : Ledger} {operation : Operation} {target : UInt64}
    (h : state.rewindTarget operation = some target) :
    state.logSteps operation = [.rewindLogs target] := by
  cases operation with
  | rewindLocalUnsafe other =>
    cases h
    rfl
  | invalidate candidate =>
    change (if state.Drops candidate.derived then _ else none) = _ at h
    split at h
    · rename_i hdrops
      cases h
      exact if_pos hdrops
    · cases h
  | _ => cases h

namespace ChainStore

/-- The store that a write leaves when it stops after some of its steps. -/
def interrupted (store : ChainStore) (operation : Operation) (count : Nat) : ChainStore :=
  match store.state.plan operation with
  | .error _ => store
  | .ok steps => (store.takeAll store.state.latestNumber (steps.take count)).store

variable {store : ChainStore} {logs : LogList} {operation : Operation} {count : Nat}

/-- A write that is not stopped before its change is a whole write. -/
theorem interrupted_all (h : (store.state.logSteps operation).length < count) :
    store.interrupted operation count = (store.perform operation).store := by
  unfold interrupted perform
  cases hplan : store.state.plan operation with
  | error error => rfl
  | ok steps =>
    dsimp only
    rcases Ledger.plan_cases hplan with rfl | ⟨change, -, rfl⟩
    · rw [List.take_nil]
    · rw [List.take_of_length_le (by rw [List.length_append]; exact h)]

/-- Logs that a stopped write leaves: those of the sealed blocks with some of a new block, or only
those up to the block that the write goes back to. -/
inductive Stopped (store : ChainStore) (logs : LogList) (operation : Operation) (kept : LogStore) :
    Prop where
  | ahead (extra : LogList) (represents : kept.Represents (logs ++ extra))
      (above : ∀ entry ∈ extra, store.state.latestNumber < entry.position.block)
  | behind (target : UInt64) (known : store.state.rewindTarget operation = some target)
      (above : store.state.requireAboveFinalized target = .ok ())
      (represents : kept.Represents (logs.rewind target))

theorem stopped_self (h : store.Listed logs) : store.Stopped logs operation store.logs :=
  .ahead [] (by rw [List.append_nil]; exact h.represents) (by simp)

/-- Of a single rewind of the logs, nothing or everything was done. -/
theorem stopped_rewind (h : store.Listed logs) {target : UInt64}
    (hknown : store.state.rewindTarget operation = some target)
    (habove : store.state.requireAboveFinalized target = .ok ()) (hcount : count ≤ 1) :
    ∃ kept, store.Stopped logs operation kept ∧ (store.takeAll store.state.latestNumber
      ([.rewindLogs target].take count)).store = { store with logs := kept } := by
  obtain ⟨dropped, kept, hrewind, hkept⟩ := LogStore.represents_rewind h.represents target
  cases count with
  | zero => exact ⟨store.logs, stopped_self h, rfl⟩
  | succ count =>
    obtain rfl : count = 0 := by omega
    refine ⟨kept, .behind target hknown habove hkept, ?_⟩
    rw [List.take_succ_cons, List.take_zero, takeAll, take, rewindLogs, hrewind]
    rfl

theorem stopped_allowed (h : store.Listed logs) {change : Change}
    (hallows : store.state.Allows operation change)
    (hcount : count ≤ (store.state.logSteps operation).length) :
    ∃ kept, store.Stopped logs operation kept ∧ (store.takeAll store.state.latestNumber
      ((store.state.logSteps operation).take count)).store = { store with logs := kept } := by
  have hplain (hsteps : store.state.logSteps operation = []) :
      ∃ kept, store.Stopped logs operation kept ∧ (store.takeAll store.state.latestNumber
        ((store.state.logSteps operation).take count)).store = { store with logs := kept } :=
    ⟨store.logs, stopped_self h, by rw [hsteps, List.take_nil]; rfl⟩
  cases hallows with
  | «seal» block fresh next =>
    have hrep : store.logs.Represents (logs ++ []) := by
      rw [List.append_nil]
      exact h.represents
    have hsteps : (store.state.logSteps (.seal block fresh)).take count =
        addSteps block (fresh.take count) := List.map_take.symm
    rw [hsteps]
    rcases takeAll_addSteps (Ledger.latestNumber_lt h.keyed next) h.below (fresh.take count) store []
      hrep (by simp) with
      ⟨kept, observed, hkept, habove, htake⟩ | ⟨-, kept, observed, error, hkept, htake⟩
    · rw [List.append_nil] at hkept
      exact ⟨kept, .ahead _ hkept habove, by rw [htake]⟩
    · exact ⟨kept, .ahead [] (by rwa [List.append_nil]) (by simp), by rw [htake]⟩
  | invalidate candidate known recorded hash above parent =>
    by_cases hdrops : store.state.Drops candidate.derived
    · rw [Ledger.logSteps, if_pos hdrops] at hcount ⊢
      exact stopped_rewind h (if_pos hdrops) above hcount
    · exact hplain (if_neg hdrops)
  | rewindLocalUnsafe target sealed above known => exact stopped_rewind h rfl above hcount
  | _ => exact hplain rfl

/-- A write that is stopped before its change leaves the indexes as they are. -/
theorem interrupted_logs (h : store.Listed logs)
    (hcount : count ≤ (store.state.logSteps operation).length) :
    ∃ kept, store.Stopped logs operation kept ∧
      store.interrupted operation count = { store with logs := kept } := by
  unfold interrupted
  cases hplan : store.state.plan operation with
  | error error => exact ⟨store.logs, stopped_self h, rfl⟩
  | ok steps =>
    dsimp only
    rcases Ledger.plan_cases hplan with rfl | ⟨change, hallows, rfl⟩
    · rw [List.take_nil]
      exact ⟨store.logs, stopped_self h, rfl⟩
    · rw [List.take_append_of_le_length hcount]
      exact stopped_allowed h hallows hcount

/-! ## Opening the files of a stopped write -/

/-- The chain is as it was before the write. -/
def SameAs (store opened : ChainStore) : Prop :=
  opened.state = store.state ∧ ∀ query, opened.contains query = store.contains query

theorem load_stopped_ahead (h : store.Sound) (haligned : store.Aligned logs) {kept : LogStore}
    {extra : LogList} (hkept : kept.Represents (logs ++ extra))
    (habove : ∀ entry ∈ extra, store.state.latestNumber < entry.position.block) :
    ∃ opened, load ({ store with logs := kept } : ChainStore).directory = .ok opened ∧
      store.SameAs opened ∧ store.Recovered opened maxNumber := by
  have hopen : LogStore.openFile
      ((({ store with logs := kept } : ChainStore).directory.logs).getD []) = .ok kept :=
    LogStore.openFile_bytes hkept
  obtain ⟨opened, hload, hstate, hopened⟩ :=
    haligned.load_ahead h.journaled hopen rfl rfl hkept habove
  refine ⟨opened, hload, ⟨hstate, fun query => ?_⟩, haligned.recovered_all hopened hstate⟩
  unfold contains
  rw [hstate]
  simp only [haligned.represents.contains_eq, hopened.represents.contains_eq]

theorem load_stopped_behind (h : store.Sound) (haligned : store.Aligned logs) {kept : LogStore}
    {target : UInt64} (habove : store.state.requireAboveFinalized target = .ok ())
    (hkept : kept.Represents (logs.rewind target)) :
    ∃ opened height, load ({ store with logs := kept } : ChainStore).directory = .ok opened ∧
      target ≤ height ∧ store.Recovered opened height := by
  obtain ⟨lost, hsplit, hlost⟩ := haligned.represents.ordered.exists_rest target
  have hopen : LogStore.openFile
      ((({ store with logs := kept } : ChainStore).directory.logs).getD []) = .ok kept :=
    LogStore.openFile_bytes hkept
  rw [hsplit] at haligned
  rcases haligned.load_lost h.journaled hopen rfl rfl hkept with
    ⟨opened, height, hload, hrecovered, -, hheight⟩ | ⟨first, head, -, hfirst, hhead, hle, -⟩
  · exact ⟨opened, height, hload, hheight target hlost, hrecovered⟩
  · -- the write was allowed above the finalized head only
    have hbelow := Ledger.requireAboveFinalized_eq_ok.mp habove head hhead
    exact absurd (UInt64.lt_of_lt_of_le (hlost first hfirst) (UInt64.le_trans hle hbelow))
      (UInt64.lt_irrefl _)

/-- A write to a sound chain can stop anywhere, and opening the files still works. A block that was
not sealed leaves the chain as it was. A rewind of the sealed blocks gives up some of the blocks above
its target, and the others keep all their logs. -/
theorem Sound.load_interrupted (h : store.Sound) (hrange : operation.InRange) (count : Nat) :
    ∃ opened, load (store.interrupted operation count).directory = .ok opened ∧
      (∀ block fresh, operation = .seal block fresh → count ≤ fresh.length →
        store.SameAs opened) ∧
      ∀ target, store.state.rewindTarget operation = some target → count = 1 →
        ∃ height, target ≤ height ∧ store.Recovered opened height := by
  obtain ⟨logs, haligned⟩ := h.aligned
  by_cases hcount : count ≤ (store.state.logSteps operation).length
  · obtain ⟨kept, hstopped, hinterrupted⟩ := interrupted_logs haligned.listed hcount
    rw [hinterrupted]
    cases hstopped with
    | ahead extra hkept habove =>
      obtain ⟨opened, hload, hsame, hrecovered⟩ := load_stopped_ahead h haligned hkept habove
      exact ⟨opened, hload, fun _ _ _ _ => hsame,
        fun target _ _ => ⟨maxNumber, Ledger.le_max target, hrecovered⟩⟩
    | behind target hknown habove hkept =>
      obtain ⟨opened, height, hload, hle, hrecovered⟩ :=
        load_stopped_behind h haligned habove hkept
      refine ⟨opened, hload, ?_, fun other hother _ => ?_⟩
      · rintro block fresh rfl
        cases hknown
      · rw [hknown] at hother
        cases hother
        exact ⟨height, hle, hrecovered⟩
  · rw [interrupted_all (Nat.not_le.mp hcount)]
    refine ⟨_, (h.perform hrange).load_directory, ?_, ?_⟩
    · rintro block fresh rfl hle
      exact absurd (by rwa [Ledger.logSteps, List.length_map]) hcount
    · intro target htarget hone
      rw [Ledger.logSteps_of_rewindTarget htarget, hone] at hcount
      exact absurd (Nat.le_refl 1) hcount

/-- If the last log of the sealed blocks lies in one that counts none, logs of a block that was not
sealed are still dropped, and then the chain does not open. -/
theorem EndsUncounted.load_ahead {position : Position} (h : store.EndsUncounted logs position)
    (hjournaled : store.Journaled) {grown : LogStore} {extra : LogList}
    (hgrown : grown.Represents (logs ++ extra))
    (habove : ∀ entry ∈ extra, store.state.latestNumber < entry.position.block) :
    ∃ rest, load ({ store with logs := grown } : ChainStore).directory =
      .error (unindexed position, rest) := by
  obtain ⟨back, observed, hback, htrim⟩ := h.toListed.trim_ahead hgrown habove
  have hback : ({ store with logs := back } : ChainStore).EndsUncounted logs position :=
    ⟨⟨hback, h.keyed, h.below⟩, h.latest, h.counts⟩
  have hreconcile : ({ store with logs := grown } : ChainStore).reconcile =
      ⟨.error (unindexed position), { store with logs := back }, []⟩ := by
    rw [ChainStore.reconcile_eq, htrim]
    exact hback.settle_eq
  have hjournaled : ({ store with logs := grown } : ChainStore).Journaled := hjournaled
  exact ⟨_, by rw [hjournaled.load_directory hgrown, hreconcile]⟩

/-- Wherever the seal of another block stops, the chain does not open then. -/
theorem EndsUncounted.load_interrupted {position : Position}
    (h : store.EndsUncounted logs position) (hjournaled : store.Journaled) (block : BlockRef)
    {fresh : List Log} (hcount : count ≤ fresh.length) :
    ∃ rest, load (store.interrupted (.seal block fresh) count).directory =
      .error (unindexed position, rest) := by
  have hsteps : count ≤ (store.state.logSteps (.seal block fresh)).length := by
    rwa [Ledger.logSteps, List.length_map]
  obtain ⟨kept, hstopped, hinterrupted⟩ := interrupted_logs h.toListed hsteps
  rw [hinterrupted]
  cases hstopped with
  | ahead extra hkept habove => exact h.load_ahead hjournaled hkept habove
  | behind target hknown => cases hknown

/-- Whatever was done to a chain that started in an empty directory, a write to it can stop anywhere,
and opening the files again still works, with what `Sound.load_interrupted` says is left. -/
theorem interrupted_reopens (steps : List Step) (hrange : ∀ step ∈ steps, step.InRange) :
    ∃ store, (load .empty >>= fun new => new.run steps) = .ok store ∧
      ∀ operation : Operation, operation.InRange → ∀ count, ∃ opened,
        load (store.interrupted operation count).directory = .ok opened ∧
        (∀ block fresh, operation = .seal block fresh → count ≤ fresh.length →
          store.SameAs opened) ∧
        ∀ target, store.state.rewindTarget operation = some target → count = 1 →
          ∃ height, target ≤ height ∧ store.Recovered opened height := by
  obtain ⟨store, hrun, hsound⟩ := sound_empty.run hrange
  exact ⟨store, hrun, fun operation hoperation count => hsound.load_interrupted hoperation count⟩

/-- A chain with two sealed blocks, of which a rewind to the first one stops behind the logs, and to
which a third one is added that stops after any of its logs. -/
theorem interrupted_reopens_two_blocks :
    let block (number : UInt64) (hash parent : UInt8) : BlockRef :=
      ⟨.ofBytes [hash], number, .ofBytes [parent], number⟩
    let anchor : DerivedPair := ⟨block 0 9 0, block 1 1 0⟩
    let logs : List Log := [⟨0, .ofBytes [7], none⟩, ⟨1, .ofBytes [8], none⟩]
    ∃ store, (load .empty >>= fun new => new.run [.write (.initialise anchor),
        .write (.seal (block 2 2 1) logs)]) = .ok store ∧
      (∀ count ≤ 2, ∃ opened,
        load (store.interrupted (.seal (block 3 3 2) logs) count).directory = .ok opened ∧
        store.SameAs opened) ∧
      ∃ opened, load (store.interrupted (.rewindLocalUnsafe anchor.derived.id) 1).directory =
          .ok opened ∧ ∃ height, 1 ≤ height ∧ store.Recovered opened height := by
  intro block anchor logs
  obtain ⟨store, hrun, hstore⟩ := interrupted_reopens [.write (.initialise anchor),
    .write (.seal (block 2 2 1) logs)] (by
      simp only [List.forall_mem_cons, List.not_mem_nil, Step.InRange, Operation.InRange]
      exact ⟨by decide, ⟨by decide, by decide⟩, fun _ hmem => hmem.elim⟩)
  refine ⟨store, hrun, fun count hcount => ?_, ?_⟩
  · obtain ⟨opened, hload, hsame, -⟩ :=
      hstore (.seal (block 3 3 2) logs) ⟨by decide, by decide⟩ count
    exact ⟨opened, hload, hsame _ _ rfl hcount⟩
  · obtain ⟨opened, hload, -, hrecovered⟩ :=
      hstore (.rewindLocalUnsafe anchor.derived.id) trivial 1
    exact ⟨opened, hload, hrecovered _ rfl rfl⟩

/-- Behind a block with a log for every index, the files do not open after a seal that stopped
behind its only log. -/
theorem interrupted_fails_behind_full_block :
    let block (number : UInt64) (hash parent : UInt8) : BlockRef :=
      ⟨.ofBytes [hash], number, .ofBytes [parent], number⟩
    ∃ store rest, (load .empty >>= fun new =>
        new.run [.write (.seal (block 1 1 0) (Log.numbered 4294967296 (.ofBytes [7])))]) =
          .ok store ∧
      load (store.interrupted (.seal (block 2 2 1) [⟨0, .ofBytes [8], none⟩]) 1).directory =
        .error (unindexed ⟨1, 4294967295⟩, rest) := by
  intro block
  obtain ⟨store, logs, hrun, -, hjournaled, hends⟩ :=
    @run_seal_full (block 1 1 0) (by decide) (by decide) (.ofBytes [7])
  obtain ⟨rest, hload⟩ :=
    @EndsUncounted.load_interrupted _ _ 1 _ hends hjournaled (block 2 2 1)
      [⟨0, .ofBytes [8], none⟩] (Nat.le_refl 1)
  exact ⟨store, rest, hrun, hload⟩

end ChainStore

end CrossSafety
