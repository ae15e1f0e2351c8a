import CrossSafety.Event.Basic

/-!
# The feed of a subscriber

All events that workers pass on are published to subscribers. A subscriber keeps only so many
events that it has not received. If more come, the oldest are lost, and the subscriber finds out
the next time it receives: then it gets nothing, and goes on with what it still keeps.
-/
namespace CrossSafety

/-- What one subscriber has not received yet. -/
structure Feed where
  slots : Nat
  /-- The kept events with their chains, oldest first. -/
  kept : List (ChainId × Event)
  lagged : Bool
deriving DecidableEq

namespace Feed

/-- A feed for at least `capacity` events. The number of slots is a power of two. -/
def empty (capacity : Nat) : Feed := ⟨capacity.nextPowerOfTwo, [], false⟩

def publish (feed : Feed) (chain : ChainId) (event : Event) : Feed :=
  let kept := feed.kept ++ [(chain, event)]
  if feed.slots < kept.length then { feed with kept := kept.drop 1, lagged := true }
  else { feed with kept }

def receive (feed : Feed) : List (ChainId × Event) × Feed :=
  if feed.lagged then ([], { feed with lagged := false })
  else (feed.kept, { feed with kept := [] })

end Feed

def eventsByChain (events : List (ChainId × Event)) : Table ChainId (List Event) :=
  events.foldr (fun (chain, event) table =>
    table.insert chain (event :: (table.get? chain).getD [])) .empty

end CrossSafety
