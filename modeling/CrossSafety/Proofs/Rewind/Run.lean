import CrossSafety.Proofs.Chain.Lookup
import CrossSafety.Proofs.Cluster.Secure
import CrossSafety.Supervisor.Duties

/-!
# Steps of a rewind, told by the chain store

A recovery reads and changes a chain in some state, through an access that serves the chain store in
there. `Rewind.Leads` tells what a step answers and which chain store it leaves, whatever else the
state holds. There is one rule for each kind of step and one for putting two of them together.
-/
namespace CrossSafety

variable {σ α β : Type} {holds : σ → ChainStore → Prop}

/-- An access answers from the chain store that a state holds, and makes its writes there. Notes
concern other parts of the state. -/
structure RewindStore.Serves (access : RewindStore σ) (holds : σ → ChainStore → Prop) : Prop where
  heads : ∀ {state store}, holds state store → access.heads state = .ok store.state.heads
  finalized : ∀ {state store}, holds state store →
    access.finalized state = store.state.head .finalized
  latestSealed : ∀ {state store}, holds state store →
    access.latestSealed state = store.state.latestSealed
  findSealed : ∀ {state store}, holds state store → ∀ number,
    access.findSealed number state = store.state.findSealed number
  perform : ∀ {state store}, holds state store → ∀ operation,
    (access.perform operation state).1 = (store.perform operation).result ∧
      holds (access.perform operation state).2 (store.perform operation).store
  note : ∀ {state store}, holds state store → ∀ note, holds (access.note note state) store

namespace Rewind

/-- In every state with a chain store, a step gives an answer and leaves another chain store. -/
def Leads (holds : σ → ChainStore → Prop) (step : Rewind σ α) (store : ChainStore)
    (answer : Except RewindError α) (left : ChainStore) : Prop :=
  ∀ state, holds state store →
    ∃ after, (ExceptT.run step).run state = (answer, after) ∧ holds after left

section Rules

variable {store middle left : ChainStore} {answer : Except RewindError β} {error : RewindError}
  {value : α}

theorem leads_pure (value : α) : Leads holds (pure value) store (.ok value) store :=
  fun state h => ⟨state, rfl, h⟩

theorem leads_throw (error : RewindError) :
    Leads holds (throw error : Rewind σ α) store (.error error) store :=
  fun state h => ⟨state, rfl, h⟩

theorem leads_known (answer : Except RewindError α) :
    Leads holds (ExceptT.mk (pure answer)) store answer store :=
  fun state h => ⟨state, rfl, h⟩

theorem Leads.bind {step : Rewind σ α} {next : α → Rewind σ β}
    (h : Leads holds step store (.ok value) middle)
    (hnext : Leads holds (next value) middle answer left) :
    Leads holds (step >>= next) store answer left := by
  intro state hstate
  obtain ⟨between, hrun, hbetween⟩ := h state hstate
  obtain ⟨after, hlater, hafter⟩ := hnext between hbetween
  refine ⟨after, ?_, hafter⟩
  rw [ExceptT.run_bind, StateT.run_bind, hrun]
  exact hlater

theorem Leads.bind_error {step : Rewind σ α} {next : α → Rewind σ β}
    (h : Leads holds step store (.error error) left) :
    Leads holds (step >>= next) store (.error error) left := by
  intro state hstate
  obtain ⟨after, hrun, hafter⟩ := h state hstate
  refine ⟨after, ?_, hafter⟩
  rw [ExceptT.run_bind, StateT.run_bind, hrun]
  rfl

theorem Leads.of_pos {condition : Prop} [Decidable condition] {step other : Rewind σ β}
    (hcondition : condition) (h : Leads holds step store answer left) :
    Leads holds (if condition then step else other) store answer left := by
  rwa [if_pos hcondition]

theorem Leads.of_neg {condition : Prop} [Decidable condition] {step other : Rewind σ β}
    (hcondition : ¬condition) (h : Leads holds other store answer left) :
    Leads holds (if condition then step else other) store answer left := by
  rwa [if_neg hcondition]

/-- A step that fails or goes on with the same chain store. -/
theorem leads_read {ask : σ → Except RewindError α} {answer : Except RewindError α}
    (h : ∀ state, holds state store → ask state = answer) :
    Leads holds (Recovery.read ask) store answer store :=
  fun state hstate => ⟨state, by rw [← h state hstate]; rfl, hstate⟩

end Rules

end Rewind

namespace Recovery

open Rewind

variable {recovery : Recovery σ} {left : ChainStore}

section Serves

variable (h : recovery.store.Serves holds) (store : ChainStore)

include h

theorem leads_tell (note : RewindNote) : Leads holds (recovery.tell note) store (.ok ()) store :=
  fun _ hstate => ⟨_, rfl, h.note hstate note⟩

theorem leads_write (operation : Operation) :
    Leads holds (recovery.write operation) store ((store.perform operation).result.mapError .storage)
      (store.perform operation).store := by
  intro state hstate
  obtain ⟨hresult, hafter⟩ := h.perform hstate operation
  exact ⟨_, by rw [← hresult]; rfl, hafter⟩

theorem leads_lookUp (number : UInt64) :
    Leads holds (recovery.lookUp number) store (.ok (store.state.findSealed number)) store :=
  (leads_read fun _ hstate => congrArg Except.ok (h.findSealed hstate number)).bind
    ((leads_tell h store _).bind (leads_pure _))

theorem leads_findSealed (number : UInt64) :
    Leads holds (recovery.findSealed number) store
      ((store.state.findSealed number).mapError .storage) store :=
  (leads_lookUp h store number).bind (leads_known _)

/-- Numbers without a sealed block are passed over. -/
theorem leads_findSealed? (number : UInt64) :
    Leads holds (recovery.findSealed? number) store
      (.ok (store.state.findSealed number).toOption) store := by
  have hfound : present? StorageError.isUnsealed (store.state.findSealed number) =
      .ok (store.state.findSealed number).toOption := by
    unfold Ledger.findSealed Ledger.blockAt
    repeat' split
    all_goals rfl
  exact (leads_lookUp h store number).bind (hfound ▸ leads_known _)

theorem leads_finalizedNumber :
    Leads holds recovery.finalizedNumber store
      (.ok (store.state.finalized.map BlockSeal.number)) store := by
  have hhead : present? StorageError.isUnsetHead (store.state.head .finalized) =
      .ok store.state.finalized := by
    unfold Ledger.head
    cases hfinalized : store.state.finalized <;> simp only [Heads.get, Ledger.heads, hfinalized] <;>
      rfl
  exact (leads_read fun _ hstate => (congrArg _ (h.finalized hstate)).trans hhead).bind
    (leads_pure _)

theorem leads_latestSealed :
    Leads holds (read fun state => present? StorageError.isUnsetHead
        (recovery.store.latestSealed state)) store
      (.ok (store.state.latest?.map fun sealed => sealed.block.toSeal)) store := by
  refine leads_read fun _ hstate => ?_
  rw [h.latestSealed hstate, Ledger.latestSealed]
  cases store.state.latest? <;> rfl

theorem leads_ask (source : BlockSource) (number : UInt64) :
    Leads holds (recovery.ask source number) store ((source number).mapError .source) store :=
  (leads_tell h store _).bind (leads_known _)

/-- A request is answered as its steps are. What is noted in the end leaves the chain store. -/
theorem run_eq {store} {request : RewindRequest} {steps : Rewind σ α} {answer : Except RewindError α}
    (hsteps : Leads holds steps store answer left) {state : σ} (hstate : holds state store) :
    (recovery.run request steps state).1 = answer ∧
      holds (recovery.run request steps state).2 left := by
  obtain ⟨after, hrun, hafter⟩ := hsteps state hstate
  rw [run, hrun]
  exact ⟨rfl, h.note hafter _⟩

end Serves

end Recovery

namespace Supervisor

/-! ## The chains of a supervisor -/

variable {supervisor : Supervisor} {chain : ChainId}

theorem cluster_sendToListener (event : Event) :
    (supervisor.sendToListener chain event).2.cluster = supervisor.cluster := by
  unfold sendToListener
  split <;> rfl

theorem cluster_send (event : Event) :
    (supervisor.send chain event).2.cluster = supervisor.cluster := by
  unfold send
  split <;> rfl

/-- An event that is emitted changes no chain. -/
theorem cluster_emit (event : Event) :
    (supervisor.emit chain event).2.cluster = supervisor.cluster := by
  unfold emit
  split
  · rfl
  · exact cluster_sendToListener event
  · exact cluster_send event

/-- What is noted about a rewind changes no chain. -/
theorem chains_noteRewind (asker : Asker) (note : RewindNote) :
    (supervisor.noteRewind asker chain note).cluster.chains = supervisor.cluster.chains := by
  cases note with
  | lookedUp number =>
    unfold noteRewind
    dsimp only
    split <;> rfl
  | asked number => rfl
  | rewound head depth =>
    change (emit _ _ _).2.cluster.chains = _
    rw [cluster_emit]
    rfl
  | finished request succeeded => rfl

/-- A supervisor serves each of its open chains. -/
theorem rewindStore_serves (asker : Asker) (chain : ChainId) :
    (rewindStore asker chain).Serves fun supervisor store =>
      supervisor.cluster.chains.get? chain = some store := by
  have hask {α : Type} {supervisor : Supervisor} {store : ChainStore}
      (h : supervisor.cluster.chains.get? chain = some store)
      (read : ChainStore → Except StorageError α) :
      supervisor.cluster.ask chain read = read store := by
    rw [Cluster.ask, Cluster.store, h]
    rfl
  refine ⟨fun h => hask h _, fun h => hask h _, fun h => hask h _, fun h _ => hask h _,
    fun h operation => ?_, fun h note => (chains_noteRewind asker note).symm ▸ h⟩
  obtain ⟨metrics, hperform⟩ := Cluster.perform_eq h operation
  change (onCluster _ _).1 = _ ∧ (onCluster _ _).2.cluster.chains.get? chain = _
  rw [onCluster, hperform]
  exact ⟨rfl, Table.get?_insert_self⟩

end Supervisor

end CrossSafety
