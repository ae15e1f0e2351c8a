import CrossSafety.Block

/-!
# The dependency set

The chains that take part in messaging, with the index that messages use for each and the times
from which it may execute and initiate messages. The checks ask a `DependencySet`, which is any
way to answer the four lookups. `Membership` is the one fixed by configuration.
-/
namespace CrossSafety

inductive MembershipError where
  | unknownChain (chain : ChainId)
  | unknownIndex (index : MemberIndex)
deriving DecidableEq

def MembershipError.message : MembershipError → String
  | .unknownChain chain => "unknown chain id " ++ toString chain
  | .unknownIndex index => "unknown chain index " ++ toString index

/-- The lookups that the checks between chains make. -/
structure DependencySet where
  idOfIndex : MemberIndex → Except MembershipError ChainId
  indexOfId : ChainId → Except MembershipError MemberIndex
  /-- Whether a chain may execute messages in a block with this timestamp. -/
  mayExecuteAt : ChainId → UInt64 → Except MembershipError Bool
  /-- Whether a chain may initiate messages at this time. -/
  mayInitiateAt : ChainId → UInt64 → Except MembershipError Bool

structure Member where
  index : MemberIndex
  /-- First timestamp at which the chain may execute messages. -/
  activationTime : UInt64
  /-- First timestamp at which logs of the chain may be referred to. -/
  historyMinTime : UInt64
deriving DecidableEq, Inhabited

/-- The members of a set with their ids, in the order in which a walk over the set meets them. -/
abbrev Roster := List (ChainId × Member)

namespace Roster

/-- Whether the sorted indices hold no two equal ones next to each other. -/
def hasDistinctIndices (roster : Roster) : Bool :=
  let indices := (roster.map fun entry => entry.2.index).mergeSort
  (indices.zip indices.tail).all fun (index, next) => index != next

/-- The id of the first member with an index. -/
def idOfIndex (roster : Roster) (index : MemberIndex) : Except MembershipError ChainId :=
  match roster.find? fun entry => entry.2.index = index with
  | some entry => .ok entry.1
  | none => .error (.unknownIndex index)

/-- Whether index and id of one member come before those of another. -/
def precedes (a b : MemberIndex × ChainId) : Bool := a.1 < b.1 || (a.1 == b.1 && a.2 ≤ b.2)

/-- The members in the order of their indices. Members that share one are in the order of their
ids. -/
def chains (roster : Roster) : List ChainId :=
  ((roster.map fun entry => (entry.2.index, entry.1)).mergeSort precedes).map Prod.snd

end Roster

/-- The members fixed by configuration. -/
structure Membership where
  members : Table ChainId Member
deriving DecidableEq, Inhabited

namespace Membership

/-- The members in the order of their ids. No answer below depends on that order, unless members
share an index. -/
def roster (set : Membership) : Roster := set.members.toList

def hasDistinctIndices (set : Membership) : Bool := set.roster.hasDistinctIndices

def member (set : Membership) (chain : ChainId) : Except MembershipError Member :=
  match set.members.get? chain with
  | some member => .ok member
  | none => .error (.unknownChain chain)

def idOfIndex (set : Membership) (index : MemberIndex) : Except MembershipError ChainId :=
  set.roster.idOfIndex index

def indexOfId (set : Membership) (chain : ChainId) : Except MembershipError MemberIndex :=
  (set.member chain).map Member.index

def mayExecuteAt (set : Membership) (chain : ChainId) (timestamp : UInt64) :
    Except MembershipError Bool :=
  (set.member chain).map fun member => decide (member.activationTime ≤ timestamp)

def mayInitiateAt (set : Membership) (chain : ChainId) (timestamp : UInt64) :
    Except MembershipError Bool :=
  (set.member chain).map fun member => decide (member.historyMinTime ≤ timestamp)

def chains (set : Membership) : List ChainId := set.roster.chains

def lookups (set : Membership) : DependencySet where
  idOfIndex := set.idOfIndex
  indexOfId := set.indexOfId
  mayExecuteAt := set.mayExecuteAt
  mayInitiateAt := set.mayInitiateAt

end Membership

namespace Member

def toJson (member : Member) : Json :=
  .record [("chainIndex", .halfWord member.index),
    ("activationTime", .word member.activationTime),
    ("historyMinTime", .word member.historyMinTime)]

/-- Reads a member. Both times are zero unless given. -/
def ofJson? (value : Json) : Option Member := do
  let fields ← value.toFields? (.ofNames ["chainIndex", "activationTime", "historyMinTime"])
  return {
    index := ← fields.required 0 Json.toHalfWord?
    activationTime := ← fields.withDefault 1 0 Json.toWord?
    historyMinTime := ← fields.withDefault 2 0 Json.toWord? }

end Member

namespace Membership

def toJson (set : Membership) : Json := .record [("dependencies", .table Member.toJson set.members)]

def ofJson? (value : Json) : Option Membership := do
  let fields ← value.toFields? (.ofNames ["dependencies"])
  return ⟨← fields.required 0 (Json.toTable? Member.ofJson?)⟩

end Membership

end CrossSafety
