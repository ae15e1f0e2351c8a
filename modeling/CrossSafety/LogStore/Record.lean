import CrossSafety.LogStore.Position
import CrossSafety.StorageError

/-!
# Records of the log file

A record has 24 bytes: its kind, then its fields with the lowest byte first, then zeroes.

* `checkpoint`: block number (8 bytes), log index (4), timestamp (8)
* `canonicalHash`: first 20 bytes of a block's hash
* `logRecord`: distance in blocks (1), flags (1), first 20 bytes of a log's hash
* `executingLink`, `executingCheck`: reserved
* `padding`: fills the file up to the place of the next checkpoint

An initiating event gives its position relative to the log before it: `LogRecord.between`
computes the event that moves from one position to another and `apply` makes the move.
-/
namespace CrossSafety

inductive RecordKind where
  | checkpoint
  | canonicalHash
  | logRecord
  | executingLink
  | executingCheck
  | padding
deriving DecidableEq

namespace RecordKind

def code : RecordKind → UInt8
  | .checkpoint => 0
  | .canonicalHash => 1
  | .logRecord => 2
  | .executingLink => 3
  | .executingCheck => 4
  | .padding => 5

def ofCode? : UInt8 → Option RecordKind
  | 0 => some .checkpoint
  | 1 => some .canonicalHash
  | 2 => some .logRecord
  | 3 => some .executingLink
  | 4 => some .executingCheck
  | 5 => some .padding
  | _ => none

def name : RecordKind → String
  | .checkpoint => "SearchCheckpoint"
  | .canonicalHash => "CanonicalHash"
  | .logRecord => "InitiatingEvent"
  | .executingLink => "ExecutingLink"
  | .executingCheck => "ExecutingCheck"
  | .padding => "Padding"

@[simp] theorem ofCode?_code (kind : RecordKind) : ofCode? kind.code = some kind := by
  cases kind <;> rfl

end RecordKind

structure Record where
  bytes : Bytes
  length_eq : bytes.length = 24
deriving DecidableEq

namespace Record

/-- The record of the first 24 of the given bytes, filled up with zeroes. -/
def ofBytes (bytes : Bytes) : Record := ⟨bytes.fit 24, Bytes.length_fit 24 bytes⟩

instance : Inhabited Record := ⟨ofBytes []⟩

def make (kind : RecordKind) (content : Bytes) : Record := ofBytes (kind.code :: content)

def padding : Record := make .padding []

def code (record : Record) : UInt8 := record.bytes.headD 0

def field (record : Record) (start width : Nat) : Bytes := (record.bytes.drop start).take width

def number (record : Record) (start width : Nat) : Nat :=
  Bytes.littleValue (record.field start width)

def hash (record : Record) (start : Nat) : ShortHash := .ofBytes (record.field start 20)

def kind (record : Record) : Except StorageError RecordKind :=
  match RecordKind.ofCode? record.code with
  | some kind => .ok kind
  | none => .error (.dataCorruption ("unknown entry type " ++ toString record.code))

def expect (record : Record) (index : Nat) (kind : RecordKind) : Except StorageError Unit :=
  if record.code = kind.code then .ok ()
  else .error (.dataCorruption ("expected " ++ kind.name ++ " at entry " ++ toString index
    ++ " but was type " ++ toString record.code))

def wholeIn (file : Bytes) : List Record := go (file.length / 24) file
where
  go : Nat → Bytes → List Record
    | 0, _ => []
    | count + 1, rest => ofBytes rest :: go count (rest.drop 24)

end Record

/-- The place of a log, given in full. -/
structure Checkpoint where
  block : UInt64
  index : UInt32
  timestamp : UInt64
deriving DecidableEq, Inhabited

namespace Checkpoint

def position (checkpoint : Checkpoint) : Position := ⟨checkpoint.block, checkpoint.index⟩

def encode (checkpoint : Checkpoint) : Record :=
  .make .checkpoint (Bytes.little 8 checkpoint.block.toNat
    ++ Bytes.little 4 checkpoint.index.toNat ++ Bytes.little 8 checkpoint.timestamp.toNat)

def ofRecord (record : Record) : Checkpoint where
  block := UInt64.ofNat (record.number 1 8)
  index := UInt32.ofNat (record.number 9 4)
  timestamp := UInt64.ofNat (record.number 13 8)

def decode (index : Nat) (record : Record) : Except StorageError Checkpoint := do
  record.expect index .checkpoint
  return ofRecord record

end Checkpoint

namespace ShortHash

def encode (hash : ShortHash) : Record := .make .canonicalHash hash.bytes

def decode (index : Nat) (record : Record) : Except StorageError ShortHash := do
  record.expect index .canonicalHash
  return record.hash 1

end ShortHash

/-- A log, placed relative to the log before it. -/
structure LogRecord where
  /-- How many blocks above the log before it. -/
  blockDiff : UInt8
  /-- Whether its index is one above the last index in its block. -/
  incrementsIndex : Bool
  hash : ShortHash
deriving DecidableEq, Inhabited

namespace LogRecord

/-- The event of the log at `next` with the log before it at `prev`. There is one only if `next`
is at most 255 blocks ahead and at most one index above the start. -/
def between (prev next : Position) (hash : ShortHash) : Except StorageError LogRecord :=
  let outOfOrder : StorageError := .logOutOfOrder ("cannot move from log " ++ toString prev.index
    ++ " of block " ++ toString prev.block ++ " to log " ++ toString next.index ++ " of block "
    ++ toString next.block)
  if next.block < prev.block then .error outOfOrder
  else
    let blocks := next.block - prev.block
    if 255 < blocks then
      .error (.logOutOfOrder ("too many blocks skipped between " ++ toString prev.block ++ " and "
        ++ toString next.block))
    else
      let start := if 0 < blocks then 0 else prev.index
      if next.index < start then .error outOfOrder
      else if 1 < next.index - start then
        .error (.logOutOfOrder ("skipped logs between " ++ toString start ++ " and "
          ++ toString next.index))
      else .ok ⟨blocks.toUInt8, decide (0 < next.index - start), hash⟩

def apply (event : LogRecord) (prev : Position) : Position :=
  let start : Position := if 0 < event.blockDiff then ⟨prev.block + event.blockDiff.toUInt64, 0⟩
    else prev
  if event.incrementsIndex then ⟨start.block, start.index + 1⟩ else start

def encode (event : LogRecord) : Record :=
  .make .logRecord
    (event.blockDiff :: (if event.incrementsIndex then 1 else 0) :: event.hash.bytes)

def ofRecord (record : Record) : LogRecord where
  blockDiff := UInt8.ofNat (record.number 1 1)
  incrementsIndex := record.number 2 1 % 2 == 1
  hash := record.hash 3

def decode (index : Nat) (record : Record) : Except StorageError LogRecord := do
  record.expect index .logRecord
  return ofRecord record

end LogRecord

end CrossSafety
