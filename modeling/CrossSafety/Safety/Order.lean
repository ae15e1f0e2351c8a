import CrossSafety.Safety.Hazard

/-!
# The order of logs in hazard blocks

The logs of the hazard blocks have to fit into one order in which the logs of a block keep their
order and the log that initiates a message comes before the log that executes it. The order is
sought by placing logs: in every block the logs up to the first one that still waits are placed,
and a wait ends once the log waited for is placed. If no wait is left, the placing is the order.
If some are left and none of them can end, they form a cycle.
-/
namespace CrossSafety

/-- A log that executes a message and has to come after the log that initiates it. -/
structure LogWait where
  log : Nat
  chain : MemberIndex
  /-- Position of the initiating log in the hazard block of that chain. -/
  target : Nat
deriving DecidableEq

/-- The logs of a hazard block that still wait, in the order of the block. -/
structure WaitingLogs where
  chain : MemberIndex
  logCount : Nat
  waits : List LogWait
deriving DecidableEq

namespace WaitingLogs

/-- How many logs of the block are placed: all before the first that waits. -/
def placed (block : WaitingLogs) : Nat :=
  match block.waits with
  | [] => block.logCount
  | wait :: _ => wait.log

/-- How many logs of a chain's hazard block are placed. -/
def placedOn (blocks : List WaitingLogs) (chain : MemberIndex) : Nat :=
  ((blocks.find? fun block => block.chain = chain).map placed).getD 0

/-- Ends the waits at the front of each block for logs that are placed. -/
def advance (blocks : List WaitingLogs) : List WaitingLogs :=
  blocks.map fun block =>
    { block with
      waits := block.waits.dropWhile fun wait => wait.target < placedOn blocks wait.chain }

def waiting : List WaitingLogs → Nat
  | [] => 0
  | block :: rest => block.waits.length + waiting rest

/-- Ends waits until no more can end. -/
def settle (blocks : List WaitingLogs) : List WaitingLogs :=
  let next := advance blocks
  if waiting next < waiting blocks then settle next else blocks
termination_by waiting blocks

def canBePlaced (blocks : List WaitingLogs) : Bool :=
  (settle blocks).all fun block => block.waits.isEmpty

end WaitingLogs

namespace Hazards

/-- Opens a hazard block and checks the positions of its executing logs. -/
def openHazard (view : SafetyView) (set : DependencySet) (index : MemberIndex) (block : BlockSeal) :
    Check BlockContents := do
  let chain ← .ofResult ((set.idOfIndex index).mapError .ofIndexLookup)
  let opened ← view.openExactly chain block
  match opened.messages.keys.find? fun logIndex => opened.logCount ≤ logIndex with
  | some logIndex => .reject (.invalidLogIndex index logIndex opened.logCount)
  | none => return opened

def openHazards (view : SafetyView) (set : DependencySet) :
    List (MemberIndex × BlockSeal) → Table MemberIndex BlockContents →
      Check (Table MemberIndex BlockContents)
  | [], opened => pure opened
  | (index, block) :: rest, opened => do
    openHazards view set rest (opened.insert index (← openHazard view set index block))

/-- The wait of a log for the message that it executes. A message of another time or from another
block than the hazard block of its chain makes no wait. -/
def waitOf (blocks : Table MemberIndex BlockContents) (timestamp : UInt64) (index : MemberIndex)
    (logIndex : UInt32) (message : ExecutingMessage) :
    Except RuleViolation (Option LogWait) :=
  if message.timestamp ≠ timestamp then .ok none
  else
    match blocks.get? message.chain with
    | none => .error (.unknownChain message.chain)
    | some initiating =>
      if message.chain = index ∧ message.logIndex = logIndex then
        .error (.selfReferencing index logIndex)
      else if message.blockNumber ≠ initiating.block.number then .ok none
      else if initiating.logCount ≤ message.logIndex then
        .error (.invalidLogIndex message.chain message.logIndex initiating.logCount)
      else .ok (some ⟨logIndex.toNat, message.chain, message.logIndex.toNat⟩)

/-- The waits of a block's logs, in the order of the block. -/
def waitsOf (blocks : Table MemberIndex BlockContents) (timestamp : UInt64) (index : MemberIndex) :
    List (UInt32 × ExecutingMessage) → Except RuleViolation (List LogWait)
  | [] => .ok []
  | (logIndex, message) :: rest => do
    let wait ← waitOf blocks timestamp index logIndex message
    return wait.toList ++ (← waitsOf blocks timestamp index rest)

/-- The waits of all blocks, in the order of the chain indices. -/
def waits (blocks : Table MemberIndex BlockContents) (timestamp : UInt64) :
    Except RuleViolation (List WaitingLogs) :=
  blocks.toList.mapM fun (index, opened) => do
    return ⟨index, opened.logCount.toNat,
      ← waitsOf blocks timestamp index opened.messages.toList⟩

/-- Checks that the logs of the hazard blocks can be put in order. -/
def checkOrder (view : SafetyView) (set : DependencySet) (timestamp : UInt64)
    (hazards : Hazards) : Check Unit := do
  let blocks ← openHazards view set hazards.toList .empty
  let waiting ← .ofResult ((waits blocks timestamp).mapError .conflict)
  if WaitingLogs.canBePlaced waiting then pure () else .reject (.cycle timestamp)

end Hazards

end CrossSafety
