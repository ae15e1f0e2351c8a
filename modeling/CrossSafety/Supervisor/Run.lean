import CrossSafety.Supervisor.Duties

/-!
# Running a supervisor

Chains of the dependency set are initialised and started. Each started chain has a worker. Events
wait in its inbox until the workers get to run: `settled` lets them take events until none is left.
`sendWaiting` lets them run first if the inbox is full, while an event that is emitted to a full
inbox is lost.
-/
namespace CrossSafety

inductive SupervisorError where
  | config (cause : ConfigError)
  | storage (cause : StorageError)
  | unsupportedChain (chain : ChainId)
  | alreadyStarted (chain : ChainId)
deriving DecidableEq

def SupervisorError.message : SupervisorError → String
  | .config cause => cause.message
  | .storage cause => cause.message
  | .unsupportedChain chain => "unsupported chain ID: " ++ toString chain
  | .alreadyStarted chain => "chain " ++ toString chain ++ " already started"

namespace Supervisor

/-- Opens the store of a chain that is part of the dependency set. -/
def openChain (supervisor : Supervisor) (chain : ChainId) :
    Except SupervisorError Unit × Supervisor :=
  if supervisor.config.dependencySet.members.contains chain then
    let (result, supervisor) := supervisor.onCluster (·.create chain)
    (result.mapError .storage, supervisor)
  else (.error (.unsupportedChain chain), supervisor)

/-- Makes `anchor` the first local-safe and cross-safe block of a chain. -/
def initialise (supervisor : Supervisor) (chain : ChainId) (anchor : DerivedPair) :
    Except SupervisorError Unit × Supervisor :=
  match supervisor.openChain chain with
  | (.error e, supervisor) => (.error e, supervisor)
  | (.ok (), supervisor) =>
    let (result, supervisor) := supervisor.onCluster (·.perform chain (.initialise anchor))
    (result.mapError .storage, supervisor)

def period (supervisor : Supervisor) : Nat := supervisor.config.interval.toNat * 1000

/-- Starts the worker of a chain, which asks the given source. -/
def start (supervisor : Supervisor) (chain : ChainId) (source : BlockSource)
    (observers : List String) : Except SupervisorError Unit × Supervisor :=
  if supervisor.config.dependencySet.members.contains chain
      && supervisor.workers.contains chain then
    (.error (.alreadyStarted chain), supervisor)
  else
    match supervisor.openChain chain with
    | (.error e, supervisor) => (.error e, supervisor)
    | (.ok (), supervisor) =>
      let worker := Worker.start supervisor.config.channelCapacity.toNat supervisor.period
        supervisor.now observers
      let worker := if supervisor.cancelled then worker.stop else worker
      (.ok (), { supervisor with
        sources := supervisor.sources.give .worker chain source
        receivers := supervisor.receivers.insert chain .worker
        workers := supervisor.workers.insert chain worker }.observe
          [.promotionStarted chain, .rewindingStarted chain])

def shutdown (supervisor : Supervisor) : Supervisor :=
  { supervisor with workers := .empty, cancelled := true }

def advance (supervisor : Supervisor) (milliseconds : Nat) : Supervisor :=
  { supervisor with now := supervisor.now + milliseconds }

/-- The handlers of a worker, in the order in which they see an event. -/
def handlers (supervisor : Supervisor) (chain : ChainId) (worker : Worker) :
    List (Handler Supervisor) :=
  [promoting supervisor.config.hazardLimit.toNat chain, rewinding chain]
    ++ (worker.watchers chain).map watching

/-- Lets the first worker that has something to take handle one event. -/
def step? (supervisor : Supervisor) : Option Supervisor :=
  supervisor.workers.toList.findSome? fun (chain, worker) =>
    (worker.next? supervisor.now).map fun (event, worker) =>
      (dispatch event (supervisor.handlers chain worker)
        { supervisor with workers := supervisor.workers.insert chain worker }).2

def settle : Nat → Supervisor → Supervisor
  | 0, supervisor => supervisor
  | fuel + 1, supervisor =>
    match supervisor.step? with
    | none => supervisor
    | some supervisor => settle fuel supervisor

/-- Enough fuel for all that waits. Handling a request or a reorg emits events that nothing more
comes of, no more of them than all inboxes can hold. -/
def fuel (supervisor : Supervisor) : Nat :=
  let workers := supervisor.workers.values
  let held := workers.foldl (fun held worker => held + worker.fuel) 0
  held * workers.foldl (fun room worker => room + worker.inbox.capacity) 1

def settled (supervisor : Supervisor) : Supervisor := settle supervisor.fuel supervisor

/-- Sends an event to the worker of a chain. If it cannot be taken at once, waits until the workers
have made room. Says whether it was taken. -/
def sendWaiting (supervisor : Supervisor) (chain : ChainId) (event : Event) : Bool × Supervisor :=
  match supervisor.send chain event with
  | (true, supervisor) => (true, supervisor)
  | (false, supervisor) => supervisor.settled.send chain event

end Supervisor

end CrossSafety
