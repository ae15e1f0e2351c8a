import CrossSafety.Event.Channel
import CrossSafety.Event.Dispatch
import CrossSafety.Worker.Ticker

/-!
# Workers

A worker takes the events of one chain out of its inbox, one at a time, and on every tick asks for
a promotion. It runs until it is stopped; then nobody can send to it any more.
-/
namespace CrossSafety

structure Worker where
  inbox : Channel
  ticker : Ticker
  running : Bool
  /-- Names under which the events are noted. -/
  observers : List String
deriving DecidableEq

namespace Worker

/-- A worker that starts at `now`. Without any time between two ticks it stops at once. -/
def start (capacity period now : Nat) (observers : List String) : Worker :=
  ⟨.empty capacity, .start period now, period != 0, observers⟩

/-- The worker with one more event to take, unless it is stopped or has too many. -/
def send? (worker : Worker) (event : Event) : Option Worker :=
  if worker.running then
    (worker.inbox.send? event).map fun inbox => { worker with inbox }
  else none

/-- Sends events one after the other. Says of each one whether it will be taken. -/
def sendAll (worker : Worker) : List Event → List Bool × Worker
  | [] => ([], worker)
  | event :: rest =>
    let sent := worker.send? event
    let (others, worker) := sendAll (sent.getD worker) rest
    (sent.isSome :: others, worker)

/-- Stops the worker. What it has not taken is lost. -/
def stop (worker : Worker) : Worker :=
  { worker with inbox := .empty worker.inbox.capacity, running := false }

/-- The event that the worker takes next: the one that waits longest, or else a tick that is due. -/
def next? (worker : Worker) (now : Nat) : Option (Event × Worker) :=
  if worker.running then
    match worker.inbox.receive? with
    | some (event, inbox) => some (event, { worker with inbox })
    | none => (worker.ticker.tick? now).map fun ticker =>
        (.updateCrossSafeRequest, { worker with ticker })
  else none

/-- The handlers that only watch: they note the events of a chain and publish them. -/
def watchers (worker : Worker) (chain : ChainId) : List (Handler EventLog) :=
  worker.observers.map EventLog.noting ++ [EventLog.forwarding chain]

/-- Lets the worker take events until nothing is left, at most `fuel` of them. -/
def run {σ : Type} (now : Nat) (handlers : List (Handler σ)) : Nat → Worker → σ → Worker × σ
  | 0, worker, state => (worker, state)
  | fuel + 1, worker, state =>
    match worker.next? now with
    | none => (worker, state)
    | some (event, worker) => run now handlers fuel worker (dispatch event handlers state).2

/-- Enough fuel for what waits now: handlers that only watch send nothing, and a ticker with a
period ticks at most once more for each millisecond that is tolerated. -/
def fuel (worker : Worker) : Nat := worker.inbox.waiting.length + Ticker.tolerance + 1

/-- Lets a worker whose handlers only watch take all that waits. -/
def watch (worker : Worker) (now : Nat) (chain : ChainId) (log : EventLog) : Worker × EventLog :=
  worker.run now (worker.watchers chain) worker.fuel log

end Worker

end CrossSafety
