import CrossSafety.LogStore.Record

/-!
# The log store

An append-only list of every log of one chain, kept in records. Every 256th record is a search
checkpoint with the position of the log after it, so a lookup finds its checkpoint by bisection
and reads on from there. A log more than 255 blocks after the one before it also starts at a
checkpoint: the places in between are filled with padding.

`add` appends a log: `recordsFor` checks it and makes its records, and `append` puts them behind
the others. `search` looks a log up, `rewind` drops the logs of all blocks above a number, and
`openFile` restores the position of the last log from the records of a file.
-/
namespace CrossSafety

/-- Distance between two search checkpoints, in records. -/
def checkpointSpacing : Nat := 256

/-- The records of one chain's logs. -/
structure LogStore where
  records : Array Record
  /-- Position of the last log, the origin while there is none. -/
  head : Position

inductive LogObservation where
  | entries (count : Nat)
  /-- Number of records that a lookup read after its checkpoint. -/
  | read (count : Nat)
  | truncation
deriving DecidableEq

/-- A walk over records from a checkpoint on. -/
structure Scan where
  next : Nat
  /-- Position of the log read last, at first that of the checkpoint. -/
  current : Position
  read : Nat

structure Search where
  found : Except StorageError Bool
  /-- Number of records read after the checkpoint, unless no scan was started. -/
  read : Option Nat

namespace LogStore

def empty : LogStore := ⟨#[], .origin⟩

instance : Inhabited LogStore := ⟨empty⟩

def count (store : LogStore) : Nat := store.records.size

def fileOf (records : Array Record) : Bytes :=
  records.foldr (fun record later => record.bytes ++ later) []

def bytes (store : LogStore) : Bytes := fileOf store.records

def recordAt (records : Array Record) (index : Nat) : Except StorageError Record :=
  match records[index]? with
  | some record => .ok record
  | none => .error (.dataCorruption ("read of entry " ++ toString index ++ " beyond end "
      ++ toString records.size))

def checkpointAt (records : Array Record) (index : Nat) : Except StorageError Checkpoint := do
  Checkpoint.decode index (← recordAt records index)

/-- Starts a walk behind the checkpoint at `index` and the hash that belongs to it. -/
def scanFrom (records : Array Record) (index : Nat) : Except StorageError Scan := do
  return ⟨index + 2, (← checkpointAt records index).position, 0⟩

/-- Reads one record. Gives the hash of the log if the record is one. -/
def step (scan : Scan) (record : Record) : Except StorageError (Option ShortHash × Scan) := do
  let passed := { scan with next := scan.next + 1, read := scan.read + 1 }
  match ← record.kind with
  | .checkpoint => return (none, { passed with current := (Checkpoint.ofRecord record).position })
  | .logRecord =>
    let event := LogRecord.ofRecord record
    return (some event.hash, { passed with current := event.apply scan.current })
  | _ => return (none, passed)

/-- Walks up to the log at `target`, over at most `fuel` records, and compares its hash. -/
def scanUntil (records : Array Record) (target : Position) (hash : ShortHash) : Nat → Scan → Search
  | 0, scan => ⟨.ok false, some scan.read⟩
  | fuel + 1, scan =>
    match records[scan.next]? with
    | none => ⟨.ok false, some scan.read⟩
    | some record =>
      match step scan record with
      | .error e => ⟨.error e, some (scan.read + 1)⟩
      | .ok (none, scan) => scanUntil records target hash fuel scan
      | .ok (some found, scan) =>
        if scan.current = target then ⟨.ok (found = hash), some scan.read⟩
        else if target < scan.current then ⟨.ok false, some scan.read⟩
        else scanUntil records target hash fuel scan

/-- Walks to the end, over at most `fuel` records, and gives the position of the last log. -/
def scanToEnd (records : Array Record) : Nat → Scan → Except StorageError Position
  | 0, scan => .ok scan.current
  | fuel + 1, scan =>
    match records[scan.next]? with
    | none => .ok scan.current
    | some record =>
      match step scan record with
      | .error e => .error e
      | .ok (_, scan) => scanToEnd records fuel scan

/-- Walks to the first log of a block above `block`, over at most `fuel` records, and gives the
index behind the last log before it, at first `keep`. Gives nothing if no such log comes. -/
def scanAbove (records : Array Record) (block : UInt64) :
    Nat → Nat → Scan → Except StorageError (Option Nat)
  | 0, _, _ => .ok none
  | fuel + 1, keep, scan =>
    match records[scan.next]? with
    | none => .ok none
    | some record =>
      match step scan record with
      | .error e => .error e
      | .ok (none, scan) => scanAbove records block fuel keep scan
      | .ok (some _, scan) =>
        if block < scan.current.block then .ok (some keep)
        else scanAbove records block fuel scan.next scan

/-- The position of the last log: that of a walk from the last checkpoint to the end. -/
def lastPosition (records : Array Record) : Except StorageError Position :=
  if records.size = 0 then .ok .origin
  else do
    let checkpoint := (records.size - 1) / checkpointSpacing * checkpointSpacing
    scanToEnd records records.size (← scanFrom records checkpoint)

def load (records : Array Record) : Except StorageError LogStore := do
  return ⟨records, ← lastPosition records⟩

/-- Opens the content of a file. What is left of a record that was not written as a whole is cut
off. A failure comes with what the file then holds. -/
def openFile (file : Bytes) : Except (StorageError × Bytes) LogStore :=
  let records := (Record.wholeIn file).toArray
  match load records with
  | .ok store => .ok store
  | .error e => .error (e, fileOf records)

/-- The number of checkpoints below `target` among those numbered from `lo` to `hi`, found by
bisection in at most `fuel` steps. -/
def bisect (records : Array Record) (target : Position) :
    Nat → Nat → Nat → Except StorageError Nat
  | 0, lo, _ => .ok lo
  | fuel + 1, lo, hi =>
    if lo < hi then do
      let mid := lo + (hi - lo) / 2
      let checkpoint ← checkpointAt records (mid * checkpointSpacing)
      if checkpoint.position < target then bisect records target fuel (mid + 1) hi
      else bisect records target fuel lo mid
    else .ok lo

def findCheckpoint (records : Array Record) (target : Position) :
    Except StorageError (Option Nat) :=
  if records.size = 0 then .ok none
  else do
    let checkpoints := (records.size - 1) / checkpointSpacing + 1
    let below ← bisect records target checkpoints 0 checkpoints
    let exact ← if below < checkpoints then do
        let checkpoint ← checkpointAt records (below * checkpointSpacing)
        pure (checkpoint.position == target)
      else pure false
    if exact then return some (below * checkpointSpacing)
    else if below = 0 then return none
    else return some ((below - 1) * checkpointSpacing)

/-- Looks for a log with this hash at `target`. Only the first 20 bytes are compared. -/
def search (store : LogStore) (target : Position) (hash : Hash) : Search :=
  match findCheckpoint store.records target with
  | .error e => ⟨.error e, none⟩
  | .ok none => ⟨.ok false, none⟩
  | .ok (some index) =>
    match scanFrom store.records index with
    | .error e => ⟨.error e, none⟩
    | .ok scan => scanUntil store.records target hash.short store.records.size scan

def contains (store : LogStore) (target : Position) (hash : Hash) : Except StorageError Bool :=
  (store.search target hash).found

/-- Number and hash of the last block at or below `block` that has a checkpoint. -/
def closestBlock (store : LogStore) (block : UInt64) :
    Except StorageError (UInt64 × ShortHash) := do
  match ← findCheckpoint store.records ⟨block, 0xFFFFFFFF⟩ with
  | none => throw (.notFound (.checkpoint block))
  | some index =>
    let checkpoint ← checkpointAt store.records index
    let hash ← ShortHash.decode (index + 1) (← recordAt store.records (index + 1))
    return (checkpoint.block, hash)

/-- Whether a log may come next: the next index of the last block or index zero of a later block.
Block zero never has logs. -/
def checkNext (head next : Position) : Except StorageError Unit :=
  if next.block = 0 then .error (.logOutOfOrder "block 0 cannot contain logs")
  else if next.block < head.block then
    .error (.logOutOfOrder ("log in block " ++ toString next.block ++ " is behind head block "
      ++ toString head.block))
  else if next.block = head.block ∧ ¬(head.index ≠ 0xFFFFFFFF ∧ head.index + 1 = next.index) then
    .error (.logOutOfOrder ("expected log " ++ toString (head.index + 1) ++ " of block "
      ++ toString next.block ++ ", got log " ++ toString next.index))
  else if head.block < next.block ∧ next.index ≠ 0 then
    .error (.logOutOfOrder ("first log of block " ++ toString next.block
      ++ " must have index 0, got " ++ toString next.index))
  else .ok ()

/-- The records that a log of a block needs behind those that are there, if it may come next. -/
def recordsFor (store : LogStore) (hash : Hash) (block : BlockId) (timestamp : UInt64)
    (index : UInt32) : Except StorageError (List Record) := do
  let next : Position := ⟨block.number, index⟩
  checkNext store.head next
  let offset := store.count % checkpointSpacing
  if offset = 0 ∨ 255 < block.number - store.head.block then
    let padding := if offset = 0 then 0 else checkpointSpacing - offset
    let event ← LogRecord.between next next hash.short
    return List.replicate padding Record.padding
      ++ [(Checkpoint.mk block.number index timestamp).encode, block.hash.short.encode,
        event.encode]
  else
    let event ← LogRecord.between store.head next hash.short
    return [event.encode]

/-- Appends records, of which the last one is that of the log at `head`. -/
def append (store : LogStore) (fresh : List Record) (head : Position) : LogStore :=
  ⟨store.records ++ fresh, head⟩

/-- Appends a log of a block. A log that is refused leaves the store as it is. -/
def add (store : LogStore) (hash : Hash) (block : BlockId) (timestamp : UInt64) (index : UInt32) :
    Except StorageError Unit × LogStore :=
  match store.recordsFor hash block timestamp index with
  | .error e => (.error e, store)
  | .ok fresh => (.ok (), store.append fresh ⟨block.number, index⟩)

/-- Drops the logs of all blocks above `block` and says whether there were any. -/
def rewind (store : LogStore) (block : UInt64) : Except StorageError Bool × LogStore :=
  if store.head.block ≤ block then (.ok false, store)
  else
    match cut store.records with
    | .error e => (.error e, store)
    | .ok none => (.ok false, store)
    | .ok (some keep) =>
      let records := store.records.take keep
      match lastPosition records with
      | .error e => (.error e, { store with records })
      | .ok head => (.ok true, ⟨records, head⟩)
where
  cut (records : Array Record) : Except StorageError (Option Nat) := do
    match ← findCheckpoint records ⟨block + 1, 0⟩ with
    | none => return some 0
    | some index => scanAbove records block records.size index (← scanFrom records index)

def latest (store : LogStore) : Option Position := if store.count = 0 then none else some store.head

def rewindObservations (dropped : Bool) (store : LogStore) : List LogObservation :=
  if dropped then [.truncation, .entries store.count] else []

end LogStore

end CrossSafety
