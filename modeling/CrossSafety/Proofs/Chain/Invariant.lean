import CrossSafety.Proofs.Chain.Advance

/-!
# Properties that a chain never loses

A property of the indexes that holds of empty ones and that every allowed change keeps is never lost
by a chain: not by writes, not by promotions, and not by closing and opening it, since the journal
always leads to the indexes again. Opening may fail; then the journal stays as it is. Nothing is
asked of the log files.
-/
namespace CrossSafety

/-- Whether a write is one that promotions make. -/
def Operation.Promotes : Operation → Prop
  | .setCrossSafe _ | .invalidate _ => True
  | _ => False

/-- Whether all blocks that a write names have successors. -/
def Operation.BlocksBounded (operation : Operation) : Prop :=
  ∀ number ∈ operation.blockNumbers, number < maxNumber

/-- Whether all blocks and sources that a write names have successors. -/
def Operation.Bounded (operation : Operation) : Prop :=
  operation.BlocksBounded ∧ ∀ number ∈ operation.sourceNumbers, number < maxNumber

instance (operation : Operation) : Decidable operation.BlocksBounded :=
  List.decidableBAll (· < maxNumber) operation.blockNumbers

-- numbers are looked up in the list: there are too many of them to go through all
instance (operation : Operation) : Decidable operation.Bounded :=
  have := List.decidableBAll (· < maxNumber) operation.sourceNumbers
  inferInstanceAs (Decidable (operation.BlocksBounded ∧ _))

namespace Ledger

variable {state : Ledger} {allowed : Operation → Prop} {operation : Operation} {change : Change}

/-- A property of indexes that is kept by some writes, by all promotions and at every opening. -/
structure Invariant (allowed : Operation → Prop) (holds : Ledger → Prop) : Prop where
  empty : holds .empty
  change : ∀ state operation change, holds state → allowed operation ∨ operation.Promotes →
    state.Allows operation change → holds (state.apply change)
  drop : ∀ state number, holds state → number < maxNumber → holds (state.dropBlocksAbove number)

theorem Invariant.and {holds more : Ledger → Prop} (h : Invariant allowed holds)
    (h' : Invariant allowed more) : Invariant allowed fun state => holds state ∧ more state where
  empty := ⟨h.empty, h'.empty⟩
  change state operation change hstate hallowed hallows :=
    ⟨h.change state operation change hstate.1 hallowed hallows,
      h'.change state operation change hstate.2 hallowed hallows⟩
  drop state number hstate hmax :=
    ⟨h.drop state number hstate.1 hmax, h'.drop state number hstate.2 hmax⟩

/-- Promotions name local-safe blocks, which have successors. -/
theorem Consistent.blocks_bounded (h : state.Consistent) (hpromotes : operation.Promotes)
    (hallows : state.Allows operation change) : operation.BlocksBounded := by
  cases hallows with
  | setCrossSafe pair known head recorded =>
    exact List.forall_mem_singleton.mpr (h.localDerived.keyed _ _ recorded).2
  | invalidate candidate known recorded =>
    exact List.forall_mem_singleton.mpr (h.localDerived.keyed _ _ recorded).2
  | _ => exact hpromotes.elim

theorem invariant_consistent
    (hblocks : ∀ operation, allowed operation → operation.BlocksBounded) :
    Invariant allowed Consistent where
  empty := empty_consistent
  change _ operation _ h hallowed hallows := h.apply
    (hallowed.elim (hblocks operation) fun hpromotes => h.blocks_bounded hpromotes hallows) hallows
  drop _ _ h hmax := h.dropBlocksAbove hmax

theorem SourcesLinked.promotes (h : state.SourcesLinked) (hpromotes : operation.Promotes)
    (hallows : state.Allows operation change) : (state.apply change).SourcesLinked := by
  cases hallows with
  | setCrossSafe => exact h
  | invalidate candidate =>
    rw [SourcesLinked, (apply_invalidate_frame _).1]
    exact h
  | _ => exact hpromotes.elim

theorem invariant_sourcesLinked
    (hsources : ∀ operation, allowed operation → ∀ number ∈ operation.sourceNumbers,
      number < maxNumber) : Invariant allowed SourcesLinked where
  empty := .empty
  change _ operation _ h hallowed hallows :=
    hallowed.elim (fun hallowed => h.apply (hsources operation hallowed) hallows)
      fun hpromotes => h.promotes hpromotes hallows
  drop _ _ h _ := h

end Ledger

variable {allowed : Operation → Prop} {holds : Ledger → Prop}

/-- A chain whose journal leads to its indexes, which have a property. -/
structure ChainStore.Holds (store : ChainStore) (holds : Ledger → Prop) : Prop where
  journaled : store.Journaled
  state : holds store.state

/-- Files with the journal of such a chain. -/
def Directory.Holds (directory : Directory) (holds : Ledger → Prop) : Prop :=
  ∃ store : ChainStore, store.Holds holds ∧ directory.journal = some store.journal.bytes ∧
    directory.spare = store.spare

namespace ChainStore

variable {store : ChainStore}

theorem Holds.directory (h : store.Holds holds) : store.directory.Holds holds := ⟨store, h, rfl, rfl⟩

theorem Holds.withLogs (h : store.Holds holds) (logs : LogStore) :
    ({ store with logs } : ChainStore).Holds holds := ⟨h.journaled, h.state⟩

theorem holds_empty (hinvariant : Ledger.Invariant allowed holds) : empty.Holds holds :=
  ⟨journaled_empty, hinvariant.empty⟩

theorem Holds.compact (h : store.Holds holds) : store.compact.Holds holds :=
  ⟨h.journaled.compact, (compact_eq store).1.symm ▸ h.state⟩

theorem Holds.perform (h : store.Holds holds) (hinvariant : Ledger.Invariant allowed holds)
    {operation : Operation} (hallowed : allowed operation ∨ operation.Promotes) :
    (store.perform operation).store.Holds holds := by
  rcases perform_store store operation with ⟨logs, hstore⟩ | ⟨change, logs, hallows, hstore⟩
  · exact hstore ▸ h.withLogs logs
  · rw [hstore]
    exact ⟨h.journaled.commit logs change,
      hinvariant.change _ operation change h.state hallowed hallows⟩

/-- Reconciling changes logs only or drops sealed blocks too, whether it succeeds or not. -/
theorem Holds.reconcile (h : store.Holds holds) (hinvariant : Ledger.Invariant allowed holds) :
    store.reconcile.store.Holds holds := by
  cases hresult : store.reconcile.result with
  | error error =>
    obtain ⟨logs, hstore⟩ := reconcile_failed hresult
    exact hstore ▸ h.withLogs logs
  | ok done =>
    rcases reconcile_store hresult with ⟨logs, hstore⟩ | ⟨number, sealed, logs, -, -, hstore⟩
    · exact hstore ▸ h.withLogs logs
    · rw [hstore]
      exact ⟨h.journaled.commit logs _,
        hinvariant.drop _ _ h.state (Ledger.numberBefore_lt sealed.block.number)⟩

end ChainStore

/-- What opening files gives, a chain or other files, has the property. -/
def Opened (holds : Ledger → Prop) : Except (StorageError × Directory) ChainStore → Prop
  | .ok store => store.Holds holds
  | .error (_, left) => left.Holds holds

/-- Opening files with the journal of a chain gives a chain that has the property too, or leaves
such files behind. -/
theorem Directory.Holds.load {directory : Directory} (h : directory.Holds holds)
    (hinvariant : Ledger.Invariant allowed holds) : Opened holds (ChainStore.load directory) := by
  obtain ⟨store, hstore, hjournal, hspare⟩ := h
  cases hopen : LogStore.openFile (directory.logs.getD []) with
  | error failure =>
    rw [ChainStore.load, hopen]
    exact ⟨store, hstore, hjournal, hspare⟩
  | ok logs =>
    have hreconciled := (hstore.withLogs logs).reconcile hinvariant
    rw [hstore.journaled.load_eq hopen hjournal hspare]
    dsimp only
    cases ({ store with logs } : ChainStore).reconcile.result with
    | error error => exact hreconciled.directory
    | ok done => exact hreconciled.compact

end CrossSafety
