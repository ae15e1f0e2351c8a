import CrossSafety.Event.Basic

/-!
# Channels

A channel holds the events that wait for one receiver, up to a limit. What is sent to a full
channel is refused, and what waits there stays as it is.
-/
namespace CrossSafety

structure Channel where
  capacity : Nat
  /-- The waiting events, oldest first. -/
  waiting : List Event
deriving DecidableEq

namespace Channel

def empty (capacity : Nat) : Channel := ⟨capacity, []⟩

def send? (channel : Channel) (event : Event) : Option Channel :=
  if channel.waiting.length < channel.capacity then
    some { channel with waiting := channel.waiting ++ [event] }
  else none

/-- The event that waits longest, and the channel without it. -/
def receive? (channel : Channel) : Option (Event × Channel) :=
  match channel.waiting with
  | [] => none
  | event :: rest => some (event, { channel with waiting := rest })

end Channel

end CrossSafety
