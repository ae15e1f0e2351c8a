import CrossSafety.Event.Feed

/-!
# Handlers of events

The events of a chain go to its handlers one after the other. A handler may change a state, and
says whether it acted on the event.
-/
namespace CrossSafety

/-- Handles an event in a state. Says whether it acted on it. -/
abbrev Handler (σ : Type) := Event → σ → Bool × σ

/-- Hands an event to handlers in order. Says whether one of them acted on it. -/
def dispatch {σ : Type} (event : Event) : List (Handler σ) → σ → Bool × σ
  | [], state => (false, state)
  | handler :: rest, state =>
    let (acted, state) := handler event state
    let (others, state) := dispatch event rest state
    (acted || others, state)

/-- What passed through handlers that only watch. -/
structure EventLog where
  /-- Events with the names of the handlers that noted them, last first. -/
  noted : List (String × Event)
  feed : Feed
deriving DecidableEq

namespace EventLog

def empty (capacity : Nat) : EventLog := ⟨[], .empty capacity⟩

def noting (name : String) : Handler EventLog := fun event log =>
  (false, { log with noted := (name, event) :: log.noted })

def forwarding (chain : ChainId) : Handler EventLog := fun event log =>
  (false, { log with feed := log.feed.publish chain event })

def takeNoted (log : EventLog) : List (String × Event) × EventLog :=
  (log.noted.reverse, { log with noted := [] })

def takePublished (log : EventLog) : List (ChainId × Event) × EventLog :=
  let (published, feed) := log.feed.receive
  (published, { log with feed })

end EventLog

end CrossSafety
