import Mathlib.Data.List.Induction
import CrossSafety.Proofs.LogStore.Acceptance
import CrossSafety.Proofs.LogStore.Checkpoints

/-!
# Which addition wrote a checkpoint

An accepted log is written as its event, or behind padding as a group of its own. `Wrote` says of a
run which addition wrote a record that is still there. `signed_run` then says of every checkpoint that
it has the block number and the block hash that the addition that wrote it was given.
-/
namespace CrossSafety

namespace LogStore

/-- Whether a log of a block is written as the first of a group: a checkpoint is due, or the block is
out of reach of an event. -/
def StartsGroup (store : LogStore) (block : UInt64) : Prop :=
  store.count % checkpointSpacing = 0 ∨ 255 < block - store.head.block

instance (store : LogStore) (block : UInt64) : Decidable (store.StartsGroup block) :=
  inferInstanceAs (Decidable (_ ∨ _))

section Add

variable {store grown : LogStore} {hash : Hash} {block : BlockId} {timestamp : UInt64}
  {index : UInt32} {fresh : List Record}

/-- The records of a log are those of a group that starts with it, or its event. -/
theorem recordsFor_cases (h : store.recordsFor hash block timestamp index = .ok fresh) :
    store.StartsGroup block.number ∧
        fresh = List.replicate (gapAt store.count) Record.padding ++
          (opening hash block timestamp index).records ∨
      ¬store.StartsGroup block.number ∧ ∃ event : LogRecord, fresh = [event.encode] := by
  rw [recordsFor] at h
  obtain ⟨-, -, h⟩ := Outcome.bind_eq_ok.mp h
  dsimp only at h
  split at h
  · rename_i hstarts
    rw [LogRecord.between_self, Outcome.ok_bind] at h
    exact .inl ⟨hstarts, (Except.ok.inj h).symm⟩
  · rename_i hinside
    obtain ⟨event, -, h⟩ := Outcome.bind_eq_ok.mp h
    exact .inr ⟨hinside, event, (Except.ok.inj h).symm⟩

theorem add_eq_ok (h : store.add hash block timestamp index = (.ok (), grown)) :
    ∃ fresh, store.recordsFor hash block timestamp index = .ok fresh ∧
      grown = store.append fresh ⟨block.number, index⟩ := by
  rw [add] at h
  split at h
  · cases h
  · rename_i fresh hfresh
    cases h
    exact ⟨fresh, hfresh, rfl⟩

theorem toList_append (fresh : List Record) (head : Position) :
    (store.append fresh head).records.toList = store.records.toList ++ fresh :=
  Array.toList_appendList

/-- Among the records of a log there is a checkpoint only if it starts a group, behind the padding. -/
theorem checkpoint_of_recordsFor (h : store.recordsFor hash block timestamp index = .ok fresh)
    {j : Nat} (hkind : kindAt fresh j = some .checkpoint) :
    store.StartsGroup block.number ∧ j = gapAt store.count := by
  rcases recordsFor_cases h with ⟨hstarts, rfl⟩ | ⟨-, event, rfl⟩
  · refine ⟨hstarts, ?_⟩
    by_cases hgap : j < gapAt store.count
    · rw [kindAt_append_left _ (by rwa [List.length_replicate]), kindAt_replicate_padding hgap]
        at hkind
      cases hkind
    · obtain ⟨place, rfl⟩ := Nat.exists_eq_add_of_le (Nat.not_lt.mp hgap)
      have hplace := @kindAt_append_right (List.replicate (gapAt store.count) Record.padding)
        (opening hash block timestamp index).records place
      rw [List.length_replicate] at hplace
      cases place with
      | zero => rfl
      | succ place => exact absurd rfl (LogGroup.kindAt_records_succ _ (hplace ▸ hkind)).1
  · obtain ⟨record, hget, hrecord⟩ := kindAt_eq_some.mp hkind
    rw [List.mem_singleton.mp (List.mem_of_getElem? hget), LogRecord.kind_encode] at hrecord
    cases hrecord

/-- A log that starts a group has the block and the block's hash that it was added with. -/
theorem read_opening (h : store.recordsFor hash block timestamp index = .ok fresh)
    (hstarts : store.StartsGroup block.number) (head : Position) :
    checkpointAt (store.append fresh head).records (store.count + gapAt store.count) =
        .ok ⟨block.number, index, timestamp⟩ ∧
      (recordAt (store.append fresh head).records (store.count + gapAt store.count + 1) >>=
          ShortHash.decode (store.count + gapAt store.count + 1)) = .ok block.hash.short := by
  obtain ⟨-, rfl⟩ := (recordsFor_cases h).resolve_right fun hinside => hinside.1 hstarts
  have hcount : store.count = store.records.toList.length := (Array.length_toList).symm
  have hdrop : (store.append (List.replicate (gapAt store.count) Record.padding ++
      (opening hash block timestamp index).records) head).records.toList.drop
        (store.count + gapAt store.count) = (opening hash block timestamp index).records := by
    rw [toList_append, hcount, ← List.drop_drop, List.drop_left]
    exact List.drop_left' List.length_replicate
  constructor
  · rw [checkpointAt, recordAt_of_drop hdrop, Outcome.ok_bind]
    exact Checkpoint.decode_encode _ _
  · rw [recordAt_of_drop (drop_succ_of_drop hdrop), Outcome.ok_bind]
    exact ShortHash.decode_encode _ _

end Add

theorem rewind_initial (store : LogStore) (block : UInt64) :
    (store.rewind block).2.records.toList <+: store.records.toList := by
  rw [rewind]
  split
  · exact List.prefix_rfl
  · split
    · exact List.prefix_rfl
    · exact List.prefix_rfl
    · dsimp only
      split <;> exact toList_take _ _ ▸ List.take_prefix _ _

end LogStore

namespace LogFile

open LogStore

/-- Number of records of an open file. -/
def recordCount (file : LogFile) : Nat := (file.store.map LogStore.count).getD 0

/-- In a run on a new file, the addition of a log of a block wrote the record at an index, and no later
request dropped it. -/
def Wrote (requests : List Request) (i : Nat) (block : BlockId) : Prop :=
  ∃ before hash timestamp index after,
    requests = before ++ .add hash block timestamp index :: after ∧
      (empty.reopen.2.run before).recordCount ≤ i ∧
      ∀ done, done <+: after →
        i < (empty.reopen.2.run (before ++ .add hash block timestamp index :: done)).recordCount

/-- What is known of a checkpoint: the addition that wrote it was that of a log of its block, and gave
the hash behind it. -/
def Signed (requests : List Request) (records : Array Record) : Prop :=
  ∀ i checkpoint, checkpointAt records i = .ok checkpoint → ∃ block, Wrote requests i block ∧
    checkpoint.block = block.number ∧
    (recordAt records (i + 1) >>= ShortHash.decode (i + 1)) = .ok block.hash.short

theorem run_snoc (file : LogFile) (requests : List Request) (request : Request) :
    file.run (requests ++ [request]) = (file.run requests).after request := by
  rw [run, List.foldl_append]
  rfl

theorem recordCount_of_store {file : LogFile} {store : LogStore} (h : file.store = some store) :
    file.recordCount = store.count := by
  rw [recordCount, h]
  rfl

theorem rewind_store {file : LogFile} {store : LogStore} (h : file.store = some store)
    (block : UInt64) : (file.rewind block).2.store = some (store.rewind block).2 := by
  rw [rewind, onStore_eq h]
  cases store.rewind block with
  | mk outcome kept => cases outcome <;> rfl

theorem contains_store (file : LogFile) (target : Position) (hash : Hash) :
    (file.contains target hash).2.store = file.store := by
  obtain ⟨closed, _ | store, observed⟩ := file <;> rfl

section Signed

variable {requests : List Request} {request : Request} {store later : LogStore} {logs : LogList}

/-- A record that is still there after one more request was written by the same addition. -/
theorem Wrote.snoc {i : Nat} {block : BlockId} (h : Wrote requests i block)
    (hkept : i < (empty.reopen.2.run (requests ++ [request])).recordCount) :
    Wrote (requests ++ [request]) i block := by
  obtain ⟨before, hash, timestamp, index, after, rfl, hnew, hdone⟩ := h
  refine ⟨before, hash, timestamp, index, after ++ [request], by simp, hnew, fun done hinitial => ?_⟩
  rcases List.prefix_concat_iff.mp hinitial with rfl | hinitial
  · simpa using hkept
  · exact hdone done hinitial

theorem Wrote.new {hash : Hash} {block : BlockId} {timestamp : UInt64} {index : UInt32} {i : Nat}
    (hnew : (empty.reopen.2.run requests).recordCount ≤ i)
    (hkept : i <
      (empty.reopen.2.run (requests ++ [.add hash block timestamp index])).recordCount) :
    Wrote (requests ++ [.add hash block timestamp index]) i block := by
  refine ⟨requests, hash, timestamp, index, [], rfl, hnew, fun done hinitial => ?_⟩
  rw [List.prefix_nil.mp hinitial]
  exact hkept

/-- A request that leaves a first part of the records leaves what is known of its checkpoints. -/
theorem Signed.of_initial (h : Signed requests store.records)
    (hlater : (empty.reopen.2.run (requests ++ [request])).store = some later)
    (hrep : later.Represents logs) (hinitial : later.records.toList <+: store.records.toList) :
    Signed (requests ++ [request]) later.records := by
  intro i checkpoint hread
  obtain ⟨block, hwrote, hnumber, hhash⟩ := h i checkpoint (read_of_initial hinitial hread)
  obtain ⟨⟨hash, hfound⟩, -⟩ := hrep.opened hread
  have hsame := (read_of_initial hinitial hfound).symm.trans hhash
  refine ⟨block, hwrote.snoc ?_, hnumber, hfound.trans hsame⟩
  rw [recordCount_of_store hlater]
  exact lt_of_checkpointAt hread

/-- An addition that is accepted writes the checkpoint among its records, if there is one. -/
theorem Signed.add (h : Signed requests store.records) {hash : Hash} {block : BlockId}
    {timestamp : UInt64} {index : UInt32}
    (hstore : (empty.reopen.2.run requests).store = some store)
    (hlater : (empty.reopen.2.run (requests ++ [.add hash block timestamp index])).store =
      some later)
    (hadd : store.add hash block timestamp index = (.ok (), later)) :
    Signed (requests ++ [.add hash block timestamp index]) later.records := by
  obtain ⟨fresh, hfresh, rfl⟩ := add_eq_ok hadd
  intro i checkpoint hread
  have hkept : i < (empty.reopen.2.run (requests ++ [.add hash block timestamp index])).recordCount := by
    rw [recordCount_of_store hlater]
    exact lt_of_checkpointAt hread
  by_cases hold : i < store.records.toList.length
  · have hinitial : store.records.toList <+: (store.append fresh ⟨block.number, index⟩).records.toList :=
      toList_append _ _ ▸ List.prefix_append _ _
    rw [Array.length_toList] at hold
    rw [checkpointAt, recordAt_of_initial hinitial hold] at hread
    obtain ⟨author, hwrote, hnumber, hhash⟩ := h i checkpoint hread
    exact ⟨author, hwrote.snoc hkept, hnumber, read_of_initial hinitial hhash⟩
  · obtain ⟨j, rfl⟩ := Nat.exists_eq_add_of_le (Nat.not_lt.mp hold)
    have hkind := kindAt_of_checkpointAt hread
    rw [toList_append, kindAt_append_right] at hkind
    obtain ⟨hstarts, rfl⟩ := checkpoint_of_recordsFor hfresh hkind
    rw [Array.length_toList] at hread hkept ⊢
    obtain ⟨hcheckpoint, hhash⟩ := read_opening hfresh hstarts ⟨block.number, index⟩
    cases hcheckpoint.symm.trans hread
    refine ⟨block, .new ?_ hkept, rfl, hhash⟩
    rw [recordCount_of_store hstore]
    exact Nat.le_add_right _ _

/-- One more request keeps what is known of the checkpoints. -/
theorem Signed.snoc (h : ∀ store, (empty.reopen.2.run requests).store = some store →
      Signed requests store.records) (request : Request) :
    ∀ store, (empty.reopen.2.run (requests ++ [request])).store = some store →
      Signed (requests ++ [request]) store.records := by
  intro later hlater
  obtain ⟨store, hstore, hrep⟩ := holds_run holds_empty requests
  obtain ⟨_, hsame, hrepLater⟩ := holds_run holds_empty (requests ++ [request])
  cases hsame.symm.trans hlater
  have hsigned := h store hstore
  have hprefixed : later.records.toList <+: store.records.toList →
      Signed (requests ++ [request]) later.records :=
    hsigned.of_initial hlater hrepLater
  have hafter := hlater
  rw [run_snoc] at hafter
  cases request with
  | add hash block timestamp index =>
    rcases hrep.add_cases hash block timestamp index with
      ⟨-, -, grown, hadd, -⟩ | ⟨detail, -, -, hadd⟩
    · rw [after, add_of_ok hstore hadd] at hafter
      cases hafter
      exact hsigned.add hstore hlater hadd
    · rw [after, add_of_error hstore hadd, hstore] at hafter
      cases hafter
      exact hprefixed List.prefix_rfl
  | rewind block =>
    rw [after, rewind_store hstore] at hafter
    cases hafter
    exact hprefixed (rewind_initial store block)
  | contains target hash =>
    rw [after, contains_store, hstore] at hafter
    cases hafter
    exact hprefixed List.prefix_rfl
  | reopen =>
    rw [after, (answers_of_holds (holds_run holds_empty requests)).reopen_same.2, hstore] at hafter
    cases hafter
    exact hprefixed List.prefix_rfl

/-- In any run on a new file, every checkpoint is that of the addition that wrote it. -/
theorem signed_run (requests : List Request) :
    ∀ store, (empty.reopen.2.run requests).store = some store → Signed requests store.records := by
  induction requests using List.reverseRecOn with
  | nil =>
    rintro _ ⟨⟩ i checkpoint hread
    exact absurd (lt_of_checkpointAt hread) (Nat.not_lt_zero i)
  | append_singleton requests request ih => exact Signed.snoc ih request

end Signed

end LogFile

end CrossSafety
