import CrossSafety.Chain.Journal
import CrossSafety.Chain.Operation
import CrossSafety.LogStore.Basic

/-!
# The store of one chain

A `ChainStore` joins the log store, the journal and the indexes of a chain. `perform` carries out
a write. `load` opens the files of a directory: it drops what was cut short, replays the journal,
brings logs and indexes back in line, and replaces a long journal by a snapshot. A failed opening
still leaves its marks on the files, so it returns the directory too.
-/
namespace CrossSafety

/-- The files of one chain, as far as they exist. -/
structure Directory where
  logs : Option Bytes
  journal : Option Bytes
  /-- The file that a snapshot is written to before it replaces the journal. -/
  spare : Option Bytes
deriving DecidableEq, Inhabited

def Directory.empty : Directory := ⟨none, none, none⟩

inductive ChainFile where
  | logs
  | journal
  | spare
deriving DecidableEq

def ChainFile.name : ChainFile → String
  | .logs => "logs.db"
  | .journal => "state.jsonl"
  | .spare => "state.tmp"

def ChainFile.ofName? (name : String) : Option ChainFile :=
  [.logs, .journal, .spare].find? fun file => file.name = name

namespace Directory

def get (directory : Directory) : ChainFile → Option Bytes
  | .logs => directory.logs
  | .journal => directory.journal
  | .spare => directory.spare

def set (directory : Directory) (content : Option Bytes) : ChainFile → Directory
  | .logs => { directory with logs := content }
  | .journal => { directory with journal := content }
  | .spare => { directory with spare := content }

end Directory

/-- The open store of one chain. -/
structure ChainStore where
  logs : LogStore
  journal : Journal
  state : Ledger
  /-- A spare file that was there at opening and is not in use. -/
  spare : Option Bytes

/-- What a write did. -/
structure Performed where
  result : Except StorageError Unit
  store : ChainStore
  observed : List LogObservation

namespace ChainStore

def empty : ChainStore := ⟨.empty, .empty, .empty, none⟩

instance : Inhabited ChainStore := ⟨empty⟩

def content (store : ChainStore) : ChainFile → Option Bytes
  | .logs => some store.logs.bytes
  | .journal => some store.journal.bytes
  | .spare => store.spare

/-- The files that the store leaves when it is closed. -/
def directory (store : ChainStore) : Directory :=
  ⟨store.content .logs, store.content .journal, store.content .spare⟩

def rewindLogs (store : ChainStore) (block : UInt64) : Performed :=
  match store.logs.rewind block with
  | (.ok dropped, logs) => ⟨.ok (), { store with logs }, LogStore.rewindObservations dropped logs⟩
  | (.error e, logs) => ⟨.error e, { store with logs }, []⟩

def commit (store : ChainStore) (change : Change) : ChainStore :=
  { store with journal := store.journal.append change, state := store.state.apply change }

/-- Takes one step of a write. A log that is refused undoes the logs of blocks above `rollback`. -/
def take (rollback : UInt64) (store : ChainStore) : WriteStep → Performed
  | .addLog hash block timestamp index =>
    match store.logs.add hash block timestamp index with
    | (.ok (), logs) => ⟨.ok (), { store with logs }, [.entries logs.count]⟩
    | (.error e, logs) =>
      let undone := { store with logs }.rewindLogs rollback
      match undone.result with
      | .ok () => { undone with result := .error e }
      | .error _ => undone
  | .rewindLogs block => store.rewindLogs block
  | .commit change => ⟨.ok (), store.commit change, []⟩

/-- Takes steps in order and stops at the first that fails. -/
def takeAll (rollback : UInt64) : ChainStore → List WriteStep → Performed
  | store, [] => ⟨.ok (), store, []⟩
  | store, step :: rest =>
    let first := store.take rollback step
    match first.result with
    | .error _ => first
    | .ok () =>
      let later := takeAll rollback first.store rest
      { later with observed := first.observed ++ later.observed }

def perform (store : ChainStore) (operation : Operation) : Performed :=
  match store.state.plan operation with
  | .error e => ⟨.error e, store, []⟩
  | .ok steps => takeAll store.state.latestNumber store steps

/-- The block that holds a log, if the log is stored with the hash that is asked for. -/
def contains (store : ChainStore) (query : LogQuery) : Except StorageError BlockSeal := do
  let sealed ← store.state.blockOfQuery query
  let stored ← if query.logIndex < sealed.logCount then
      store.logs.contains ⟨query.blockNumber, query.logIndex⟩ query.hash
    else pure false
  if stored then return sealed.block.toSeal else throw .conflict

/-- What the log store reports when a query is answered. -/
def containsObservations (store : ChainStore) (query : LogQuery) : List LogObservation :=
  match store.state.blockOfQuery query with
  | .error _ => []
  | .ok sealed =>
    if query.logIndex < sealed.logCount then
      match (store.logs.search ⟨query.blockNumber, query.logIndex⟩ query.hash).read with
      | some count => [.read count]
      | none => []
    else []

/-- Drops the sealed block `number` and everything above it, because its logs are missing. -/
def dropBlocksFrom (store : ChainStore) (number : UInt64) : Performed :=
  let target := numberBefore number
  match store.state.requireAboveFinalized target with
  | .error _ =>
    ⟨.error (.dataCorruption ("logs of finalized block " ++ toString number ++ " are missing")),
      store, []⟩
  | .ok () => store.takeAll target [.rewindLogs target, .commit (.rewindLocalUnsafe target)]

/-- Whether a sealed block has logs that are not stored when `latest` is the last stored log. -/
def lacksLogs (latest : Option Position) (sealed : SealedBlock) : Bool :=
  sealed.hasLogs && match latest with
    | none => true
    | some latest => latest < sealed.lastLog

/-- Brings logs and indexes in line after an interrupted write. Logs of a block that never reached
the journal are dropped, and so are sealed blocks whose logs are gone. -/
def reconcile (store : ChainStore) : Performed :=
  let sealedUpTo := store.state.latestNumber
  let excess : Bool := match store.logs.latest with
    | some latest => sealedUpTo < latest.block
    | none => false
  let trimmed := if excess then store.rewindLogs sealedUpTo else ⟨.ok (), store, []⟩
  match trimmed.result with
  | .error _ => trimmed
  | .ok () =>
    let store := trimmed.store
    let latest := store.logs.latest
    match store.state.blocks.values.find? (lacksLogs latest) with
    | some sealed => store.dropBlocksFrom sealed.block.number
    | none =>
      match latest with
      | some position =>
        if store.state.lastSealedLog = some position then ⟨.ok (), store, []⟩
        else ⟨.error (.dataCorruption ("last log " ++ position.text
          ++ " is not indexed by any sealed block")), store, []⟩
      | none => ⟨.ok (), store, []⟩

/-- Replaces a long journal by a snapshot, which uses up the spare file. -/
def compact (store : ChainStore) : ChainStore :=
  if Journal.compactionThreshold < store.journal.count then
    { store with journal := .ofSnapshot store.state, spare := none }
  else store

/-- Opens the files of a directory. On failure gives the files as they are left. -/
def load (directory : Directory) : Except (StorageError × Directory) ChainStore :=
  match LogStore.openFile (directory.logs.getD []) with
  | .error (e, file) => .error (e, { directory with logs := some file })
  | .ok logs =>
    let journal := Journal.ofFile (directory.journal.getD [])
    match journal.changes with
    | .error e => .error (e, ⟨some logs.bytes, some journal.bytes, directory.spare⟩)
    | .ok changes =>
      let store : ChainStore := ⟨logs, journal, Ledger.empty.replay changes, directory.spare⟩
      let reconciled := store.reconcile
      match reconciled.result with
      | .error e => .error (e, reconciled.store.directory)
      | .ok () => .ok reconciled.store.compact

end ChainStore

end CrossSafety
