import CrossSafety.LogStore.File
import CrossSafety.Proofs.LogStore.Append
import CrossSafety.Proofs.LogStore.Truncate

/-!
# The log file stands for a list

A log file takes additions, rewinds, lookups and reopenings in any order. The same requests are
carried out on a plain list of positions with short hashes. After any number of them the file is
open, and `LogFile.Answers` says that everything it is asked is answered from the list.
-/
namespace CrossSafety

namespace Record

theorem ofBytes_bytes (record : Record) (rest : Bytes) : ofBytes (record.bytes ++ rest) = record := by
  cases record with
  | mk bytes h =>
    simp only [ofBytes, Bytes.fit_eq, List.take_append_of_le_length (Nat.le_of_eq h.symm),
      List.length_append, h, mk.injEq]
    rw [List.take_of_length_le (Nat.le_of_eq h), Nat.sub_eq_zero_of_le (Nat.le_add_right _ _)]
    exact List.append_nil bytes

theorem length_flatMap_bytes (records : List Record) :
    (records.flatMap Record.bytes).length = records.length * 24 := by
  induction records with
  | nil => rfl
  | cons record rest ih =>
    rw [List.flatMap_cons, List.length_append, record.length_eq, ih, List.length_cons]
    omega

/-- The whole records of a file that holds records, and perhaps a part of one behind them, are these
records. -/
theorem wholeIn_flatMap_append (records : List Record) {part : Bytes} (hpart : part.length < 24) :
    wholeIn (records.flatMap Record.bytes ++ part) = records := by
  have h : ∀ records : List Record,
      wholeIn.go records.length (records.flatMap Record.bytes ++ part) = records := by
    intro records
    induction records with
    | nil => rfl
    | cons record rest ih =>
      have hdrop : (record.bytes ++ (rest.flatMap Record.bytes ++ part)).drop 24 =
          rest.flatMap Record.bytes ++ part := by
        rw [← record.length_eq, List.drop_left]
      rw [List.flatMap_cons, List.append_assoc, List.length_cons, wholeIn.go, ofBytes_bytes, hdrop,
        ih]
  have hcount : (records.length * 24 + part.length) / 24 = records.length := by omega
  rw [wholeIn, List.length_append, length_flatMap_bytes, hcount, h]

theorem wholeIn_flatMap (records : List Record) :
    wholeIn (records.flatMap Record.bytes) = records := by
  have h := wholeIn_flatMap_append records (show ([] : Bytes).length < 24 by decide)
  rwa [List.append_nil] at h

end Record

namespace LogStore

theorem fileOf_eq (records : Array Record) :
    fileOf records = records.toList.flatMap Record.bytes := by
  rw [fileOf, ← Array.foldr_toList]
  induction records.toList with
  | nil => rfl
  | cons record rest ih => rw [List.foldr_cons, ih, List.flatMap_cons]

/-- The bytes of a store tell its records. -/
theorem bytes_eq_iff {store other : LogStore} :
    store.bytes = other.bytes ↔ store.records.toList = other.records.toList := by
  rw [bytes, bytes, fileOf_eq, fileOf_eq]
  refine ⟨fun h => ?_, congrArg _⟩
  rw [← Record.wholeIn_flatMap store.records.toList, h, Record.wholeIn_flatMap]

theorem openFile_bytes {store : LogStore} {logs : LogList} (h : Represents store logs) :
    openFile store.bytes = .ok store := by
  rw [openFile, bytes, fileOf_eq, Record.wholeIn_flatMap, Array.toArray_toList, h.load_records]

end LogStore

namespace LogFile

/-- What a log file is asked to do. -/
inductive Request where
  | add (hash : Hash) (block : BlockId) (timestamp : UInt64) (index : UInt32)
  | rewind (block : UInt64)
  | contains (target : Position) (hash : Hash)
  | reopen

def after (file : LogFile) : Request → LogFile
  | .add hash block timestamp index => (file.add hash block timestamp index).2
  | .rewind block => (file.rewind block).2
  | .contains target hash => (file.contains target hash).2
  | .reopen => file.reopen.2

def run (file : LogFile) (requests : List Request) : LogFile := requests.foldl after file

end LogFile

namespace LogList

/-- The list after a request. Only additions and rewinds change it. -/
def after (logs : LogList) : LogFile.Request → LogList
  | .add hash block _ index => logs.add ⟨block.number, index⟩ hash.short
  | .rewind block => logs.rewind block
  | .contains _ _ => logs
  | .reopen => logs

def run (logs : LogList) (requests : List LogFile.Request) : LogList := requests.foldl after logs

end LogList

namespace LogFile

/-- Every question to the file is answered from the list. -/
structure Answers (file : LogFile) (logs : LogList) : Prop where
  /-- A lookup says whether the list has the log. -/
  contains_eq : ∀ target hash,
    (file.contains target hash).1 = some (.ok (decide (⟨target, hash.short⟩ ∈ logs)))
  /-- The last log is the last of the list. -/
  latest_eq : file.store.map LogStore.latest = some logs.latest
  /-- A log that may follow is accepted. -/
  add_accepted : ∀ hash block timestamp index, logs.head.Follows ⟨block.number, index⟩ →
    (file.add hash block timestamp index).1 = some (.ok ())
  /-- Any other log is out of order and changes nothing. -/
  add_refused : ∀ hash block timestamp index, ¬logs.head.Follows ⟨block.number, index⟩ →
    ∃ detail, file.add hash block timestamp index = (some (.error (.logOutOfOrder detail)), file)
  /-- A rewind works, and the same rewind again changes nothing. -/
  rewind_twice : ∀ block, ∃ once, file.rewind block = (some (.ok ()), once) ∧
    once.rewind block = (some (.ok ()), once)
  /-- Closing and opening the file again gives the same store. -/
  reopen_same : file.reopen.1 = .ok () ∧ file.reopen.2.store = file.store

/-- An open file whose store stands for the list. -/
def Holds (file : LogFile) (logs : LogList) : Prop :=
  ∃ store, file.store = some store ∧ store.Represents logs

theorem holds_empty : Holds empty.reopen.2 [] := ⟨.empty, rfl, LogStore.represents_empty⟩

section Holds

variable {closed : Option Bytes} {store : LogStore} {observed : List LogObservation}
  {logs : LogList}

theorem reopen_eq (h : store.Represents logs) :
    reopen ⟨closed, some store, observed⟩ =
      (.ok (), report ⟨none, some store, observed⟩ [.entries store.count]) := by
  have hopen : LogStore.openFile ((content ⟨closed, some store, observed⟩).getD []) = .ok store :=
    LogStore.openFile_bytes h
  rw [reopen, hopen]

/-- One request keeps the file in step with the list. -/
theorem holds_after {file : LogFile} (h : Holds file logs) (request : Request) :
    Holds (file.after request) (logs.after request) := by
  obtain ⟨closed, _, observed⟩ := file
  obtain ⟨store, rfl, hrep⟩ := h
  cases request with
  | add hash block timestamp index =>
    by_cases hfollows : logs.head.Follows ⟨block.number, index⟩
    · obtain ⟨grown, hadd, hgrown⟩ :=
        LogStore.represents_add hrep hash block timestamp index hfollows
      rw [LogList.after, LogList.add, if_pos hfollows]
      exact ⟨grown, by rw [after, add, onStore, hadd]; rfl, hgrown⟩
    · obtain ⟨detail, hadd⟩ := LogStore.add_refused hrep hash block timestamp index hfollows
      rw [LogList.after, LogList.add, if_neg hfollows]
      exact ⟨store, by rw [after, add, onStore, hadd]; rfl, hrep⟩
  | rewind block =>
    obtain ⟨dropped, kept, hrewind, hkept⟩ := LogStore.represents_rewind hrep block
    exact ⟨kept, by rw [after, rewind, onStore, hrewind]; rfl, hkept⟩
  | contains target hash => exact ⟨store, rfl, hrep⟩
  | reopen => exact ⟨store, by rw [after, reopen_eq hrep]; rfl, hrep⟩

theorem holds_run {file : LogFile} (h : Holds file logs) (requests : List Request) :
    Holds (file.run requests) (logs.run requests) := by
  induction requests generalizing file logs with
  | nil => exact h
  | cons request rest ih => exact ih (holds_after h request)

theorem answers_of_holds {file : LogFile} (h : Holds file logs) : Answers file logs := by
  obtain ⟨closed, _, observed⟩ := file
  obtain ⟨store, rfl, hrep⟩ := h
  refine ⟨fun target hash => ?_, ?_, fun hash block timestamp index hfollows => ?_,
    fun hash block timestamp index hrefused => ?_, fun block => ?_, ?_⟩
  · rw [← hrep.contains_eq]
    rfl
  · rw [← hrep.latest_eq]
    rfl
  · obtain ⟨grown, hadd, -⟩ := LogStore.represents_add hrep hash block timestamp index hfollows
    rw [add, onStore, hadd]
  · obtain ⟨detail, hadd⟩ := LogStore.add_refused hrep hash block timestamp index hrefused
    exact ⟨detail, by rw [add, onStore, hadd]; rfl⟩
  · obtain ⟨dropped, kept, hrewind, hkept⟩ := LogStore.represents_rewind hrep block
    have hagain : kept.rewind block = (.ok false, kept) :=
      LogStore.rewind_noop hkept fun _ hmem => of_decide_eq_true (List.mem_filter.mp hmem).2
    refine ⟨_, by rw [rewind, onStore, hrewind], ?_⟩
    rw [report, rewind, onStore, hagain]
    rfl
  · rw [reopen_eq hrep]
    exact ⟨rfl, rfl⟩

end Holds

/-- A new file that is opened and then takes any requests answers as the list does. -/
theorem answers_run (requests : List Request) :
    Answers (empty.reopen.2.run requests) (LogList.run [] requests) :=
  answers_of_holds (holds_run holds_empty requests)

end LogFile

end CrossSafety
