import CrossSafety.LogStore.Basic

/-!
# The file of a log store

While a log store is open, its file holds its records. It can be closed and opened again, and
while it is closed somebody else may change the file. All work is reported.
-/
namespace CrossSafety

structure LogFile where
  /-- Content of the file while the store is closed, unless there is none. -/
  closed : Option Bytes
  store : Option LogStore
  /-- What was reported, last first. -/
  observed : List LogObservation

namespace LogFile

def empty : LogFile := ⟨none, none, []⟩

def content (file : LogFile) : Option Bytes :=
  match file.store with
  | some store => some store.bytes
  | none => file.closed

/-- Closes the store and gives the file another content. -/
def replace (file : LogFile) (content : Option Bytes) : LogFile :=
  { file with closed := content, store := none }

def report (file : LogFile) (observations : List LogObservation) : LogFile :=
  { file with observed := observations.reverse ++ file.observed }

/-- What was reported since the last time, in order. -/
def takeObserved (file : LogFile) : List LogObservation × LogFile :=
  (file.observed.reverse, { file with observed := [] })

/-- Opens the store, or closes it and opens it again. -/
def reopen (file : LogFile) : Except StorageError Unit × LogFile :=
  match LogStore.openFile (file.content.getD []) with
  | .ok store =>
    (.ok (), { file with closed := none, store := some store }.report [.entries store.count])
  | .error (e, content) => (.error e, file.replace (some content))

def isOpen (file : LogFile) : Bool := file.store.isSome

/-- Works on the store and reports what it did. There is no answer while the store is closed. -/
def onStore {α : Type} (file : LogFile) (work : LogStore → α × LogStore × List LogObservation) :
    Option α × LogFile :=
  match file with
  | ⟨closed, some store, observed⟩ =>
    let (answer, store, fresh) := work store
    (some answer, LogFile.report ⟨closed, some store, observed⟩ fresh)
  | ⟨closed, none, observed⟩ => (none, ⟨closed, none, observed⟩)

def add (file : LogFile) (hash : Hash) (block : BlockId) (timestamp : UInt64) (index : UInt32) :
    Option (Except StorageError Unit) × LogFile :=
  file.onStore fun store =>
    match store.add hash block timestamp index with
    | (.ok (), store) => (.ok (), store, [.entries store.count])
    | (.error e, store) => (.error e, store, [])

def contains (file : LogFile) (target : Position) (hash : Hash) :
    Option (Except StorageError Bool) × LogFile :=
  file.onStore fun store =>
    let search := store.search target hash
    (search.found, store, (search.read.map LogObservation.read).toList)

def rewind (file : LogFile) (block : UInt64) : Option (Except StorageError Unit) × LogFile :=
  file.onStore fun store =>
    match store.rewind block with
    | (.ok dropped, store) => (.ok (), store, LogStore.rewindObservations dropped store)
    | (.error e, store) => (.error e, store, [])

end LogFile

end CrossSafety
