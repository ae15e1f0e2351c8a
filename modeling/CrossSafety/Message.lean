import CrossSafety.Block

/-!
# Logs and messages between chains

A log may execute a message, that is, refer to a log of some chain. The message says where the
initiating log is (chain, block, position, timestamp) and what its hash is.
-/
namespace CrossSafety

/-- A reference to the log that initiated a message. -/
structure ExecutingMessage where
  chain : MemberIndex
  blockNumber : UInt64
  logIndex : UInt32
  timestamp : UInt64
  hash : Hash
deriving DecidableEq, Inhabited

/-- A question whether a log exists at a position. -/
structure LogQuery where
  timestamp : UInt64
  blockNumber : UInt64
  logIndex : UInt32
  hash : Hash
deriving DecidableEq, Inhabited

namespace ExecutingMessage

def query (message : ExecutingMessage) : LogQuery where
  timestamp := message.timestamp
  blockNumber := message.blockNumber
  logIndex := message.logIndex
  hash := message.hash

def text (message : ExecutingMessage) : String :=
  "chain " ++ toString message.chain ++ " block " ++ toString message.blockNumber ++ " log "
    ++ toString message.logIndex ++ " at " ++ toString message.timestamp

def toJson (message : ExecutingMessage) : Json :=
  .record [("chain", .halfWord message.chain), ("blockNumber", .word message.blockNumber),
    ("logIndex", .halfWord message.logIndex), ("timestamp", .word message.timestamp),
    ("hash", message.hash.toJson)]

def shape : Json.Shape :=
  .record [("chain", .any), ("blockNumber", .any), ("logIndex", .any), ("timestamp", .any),
    ("hash", Hash.shape)]

def ofJson? (value : Json) : Option ExecutingMessage := do
  let fields ← value.toFields? shape
  return {
    chain := ← fields.required 0 Json.toHalfWord?
    blockNumber := ← fields.required 1 Json.toWord?
    logIndex := ← fields.required 2 Json.toHalfWord?
    timestamp := ← fields.required 3 Json.toWord?
    hash := ← fields.required 4 Hash.ofJson? }

end ExecutingMessage

/-- A log of a block, without its content. -/
structure Log where
  index : UInt32
  hash : Hash
  message : Option ExecutingMessage
deriving DecidableEq, Inhabited

/-- A sealed block and what the checks between chains need to know about its logs. -/
structure BlockContents where
  block : BlockRef
  logCount : UInt32
  /-- The messages that the block executes, by position of the executing log. -/
  messages : Table UInt32 ExecutingMessage
deriving DecidableEq, Inhabited

/-- The block as a JSON object. Its messages are pairs, in the order of the executing logs. -/
def BlockContents.toJson (opened : BlockContents) : Json :=
  .record [("block", opened.block.toJson), ("logCount", .halfWord opened.logCount),
    ("messages", .list (fun (index, message) => .array [.halfWord index, message.toJson])
      opened.messages.toList)]

end CrossSafety
