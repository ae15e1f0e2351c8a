import CrossSafety.Rewind.Recovery
import CrossSafety.Supervisor.Basic

/-!
# What the workers of a supervisor do

On request a worker moves its chain on and emits what came of it. When the chain has left its
source, the worker rewinds it and emits where it ends now.
-/
namespace CrossSafety.Supervisor

/-! ## Promotion -/

/-- What is emitted about a promotion of a chain, and for which chains. -/
def promotionEvents (chain : ChainId) : PromotionOutcome → List (ChainId × Event)
  | .promoted head | .scopeWidened head => [(chain, .crossSafeUpdate head)]
  | .invalidated blocks =>
    blocks.map fun dependent => (dependent.chain, .localSafeInvalidated dependent.block)

def promote (supervisor : Supervisor) (hazardLimit : Nat) (chain : ChainId) :
    Except CrossSafetyError PromotionOutcome × Supervisor :=
  let (result, supervisor) := supervisor.onCluster (·.promote hazardLimit chain)
  let supervisor := supervisor.observe [.promotion chain result.isOk]
  match result with
  | .error e => (.error e, supervisor)
  | .ok outcome =>
    (.ok outcome, (promotionEvents chain outcome).foldl (fun supervisor (chain, event) =>
      (supervisor.emit chain event).2) supervisor)

def promoting (hazardLimit : Nat) (chain : ChainId) : Handler Supervisor
  | .updateCrossSafeRequest, supervisor => (true, (supervisor.promote hazardLimit chain).2)
  | _, supervisor => (false, supervisor)

/-! ## Rewinds -/

/-- Accounts for a step of a rewind that somebody runs. -/
def noteRewind (supervisor : Supervisor) (asker : Asker) (chain : ChainId) :
    RewindNote → Supervisor
  | .lookedUp number =>
    match supervisor.cluster.store chain with
    | .error _ => supervisor
    | .ok store => supervisor.observe (Cluster.findSealedObservations chain store number)
  | .asked number => supervisor.noteAsked asker chain number
  | .rewound head depth =>
    ((supervisor.observe [.rewindDepth chain depth.toNat]).emit chain (.chainRewound head)).2
  | .finished request succeeded => supervisor.observe [.rewind chain request succeeded]

def rewindStore (asker : Asker) (chain : ChainId) : RewindStore Supervisor where
  heads supervisor := supervisor.cluster.ask chain fun store => .ok store.state.heads
  finalized supervisor := supervisor.cluster.ask chain fun store => store.state.head .finalized
  latestSealed supervisor := supervisor.cluster.ask chain fun store => store.state.latestSealed
  findSealed number supervisor :=
    supervisor.cluster.ask chain fun store => store.state.findSealed number
  perform operation supervisor := supervisor.onCluster (·.perform chain operation)
  note step supervisor := supervisor.noteRewind asker chain step

def recovery (supervisor : Supervisor) (asker : Asker) (chain : ChainId) : Recovery Supervisor :=
  ⟨chain, rewindStore asker chain, supervisor.sources.get? asker chain⟩

def rewinding (chain : ChainId) : Handler Supervisor := fun event supervisor =>
  (supervisor.recovery .worker chain).handle event supervisor

/-- Lets a handler that only watches see the events of a supervisor. -/
def watching (handler : Handler EventLog) : Handler Supervisor := fun event supervisor =>
  let (acted, log) := handler event supervisor.log
  (acted, { supervisor with log })

end CrossSafety.Supervisor
