import CrossSafety.Proofs.LogStore.Cut

/-!
# The format of the log file

`Formatted` says what every log file looks like that was written from the start: where its
checkpoints are, what follows each of them, and where there may be padding. Most of it holds in any
layout of groups. That padding reaches the place of the next checkpoint does not: an addition
writes such padding as a whole and no rewind cuts into it, which is what `Padded` keeps track of.
-/
namespace CrossSafety

namespace LogStore

/-- The kind of the record at an index, if there is such a record. -/
def kindAt (records : List Record) (index : Nat) : Option RecordKind :=
  records[index]?.bind fun record => record.kind.toOption

/-- Padding goes on up to the place of the next checkpoint, and the records reach that far. -/
def Padded (records : List Record) : Prop :=
  ∀ i, kindAt records i = some .padding →
    ∀ j, i ≤ j → j / checkpointSpacing = i / checkpointSpacing →
      kindAt records j = some .padding

structure Formatted (records : Array Record) : Prop where
  /-- There is a checkpoint at every multiple of 256, and nowhere else. -/
  checkpoint_iff : ∀ i, i < records.size →
    (kindAt records.toList i = some .checkpoint ↔ i % checkpointSpacing = 0)
  /-- A hash and a log follow each checkpoint, and the log is at the position it gives. -/
  opened : ∀ i, kindAt records.toList i = some .checkpoint →
    ∃ checkpoint hash event, checkpointAt records i = .ok checkpoint ∧
      (recordAt records (i + 1) >>= ShortHash.decode (i + 1)) = .ok hash ∧
      (recordAt records (i + 2) >>= LogRecord.decode (i + 2)) = .ok event ∧
      event.apply checkpoint.position = checkpoint.position
  ascending : ∀ i j first second, i < j → checkpointAt records i = .ok first →
    checkpointAt records j = .ok second → first.position < second.position
  /-- The reserved kinds are not in use. -/
  unreserved : ∀ i kind, kindAt records.toList i = some kind →
    kind ≠ .executingLink ∧ kind ≠ .executingCheck
  padded : Padded records.toList
  /-- A checkpoint or its hash never comes last. -/
  complete : records.size % checkpointSpacing ≠ 1 ∧ records.size % checkpointSpacing ≠ 2
  /-- The number of checkpoints is that of the records, divided by 256 and rounded up. -/
  count : records.toList.countP (fun record => record.code == RecordKind.checkpoint.code) =
    (records.size + (checkpointSpacing - 1)) / checkpointSpacing

section Kinds

variable {records : List Record}

theorem kindAt_eq_some {i : Nat} {kind : RecordKind} :
    kindAt records i = some kind ↔ ∃ record, records[i]? = some record ∧ record.kind = .ok kind := by
  rw [kindAt, Option.bind_eq_some_iff]
  exact exists_congr fun _ => and_congr_right fun _ => Outcome.mem_toOption

theorem lt_of_kindAt {i : Nat} {kind : RecordKind} (h : kindAt records i = some kind) :
    i < records.length := by
  obtain ⟨record, hget, -⟩ := kindAt_eq_some.mp h
  exact (List.getElem?_eq_some_iff.mp hget).1

theorem kindAt_append_left (later : List Record) {i : Nat} (h : i < records.length) :
    kindAt (records ++ later) i = kindAt records i := by
  rw [kindAt, List.getElem?_append_left h, kindAt]

theorem kindAt_append_right (later : List Record) (i : Nat) :
    kindAt (records ++ later) (records.length + i) = kindAt later i := by
  rw [kindAt, List.getElem?_append_right (Nat.le_add_right _ _), Nat.add_sub_cancel_left, kindAt]

theorem kindAt_take {count i : Nat} (h : i < count) :
    kindAt (records.take count) i = kindAt records i := by
  rw [kindAt, List.getElem?_take_of_lt h, kindAt]

theorem kindAt_take_eq_some {count i : Nat} {kind : RecordKind}
    (h : kindAt (records.take count) i = some kind) : i < count ∧ kindAt records i = some kind := by
  have hlt := lt_of_kindAt h
  rw [List.length_take] at hlt
  have hcount : i < count := by omega
  exact ⟨hcount, kindAt_take hcount ▸ h⟩

theorem kindAt_replicate_padding {count i : Nat} (h : i < count) :
    kindAt (List.replicate count Record.padding) i = some .padding := by
  rw [kindAt_eq_some]
  exact ⟨.padding, List.getElem?_replicate_of_lt h, Record.kind_padding⟩

end Kinds

/-! ### Padding -/

section Padding

variable {records : List Record}

theorem padded_nil : Padded [] := fun _ h => absurd (lt_of_kindAt h) (Nat.not_lt_zero _)

/-- Padding that ends in front of the place of a checkpoint may be put behind padded records, and
then records of other kinds. -/
theorem Padded.append (h : Padded records) {gap : Nat} {fresh : List Record}
    (hgap : gap = 0 ∨ (records.length + gap) % checkpointSpacing = 0 ∧ gap < checkpointSpacing)
    (hfresh : ∀ record ∈ fresh, record.kind ≠ .ok .padding) :
    Padded (records ++ (List.replicate gap Record.padding ++ fresh)) := by
  intro i hi j hij hplace
  by_cases hold : i < records.length
  · rw [kindAt_append_left _ hold] at hi
    have hj := h i hi j hij hplace
    rwa [kindAt_append_left _ (lt_of_kindAt hj)]
  · obtain ⟨i, rfl⟩ := Nat.exists_eq_add_of_le (Nat.not_lt.mp hold)
    rw [kindAt_append_right] at hi
    -- what comes behind the padding is of another kind
    have hin : i < gap := by
      refine Nat.not_le.mp fun hle => ?_
      obtain ⟨k, rfl⟩ := Nat.exists_eq_add_of_le hle
      have hk := @kindAt_append_right (List.replicate gap Record.padding) fresh k
      rw [List.length_replicate] at hk
      obtain ⟨record, hget, hkind⟩ := kindAt_eq_some.mp (hk ▸ hi)
      exact hfresh record (List.mem_of_getElem? hget) hkind
    obtain ⟨j, rfl⟩ := Nat.exists_eq_add_of_le (Nat.le_trans (Nat.le_add_right _ i) hij)
    have hjn : j < gap := by
      rw [checkpointSpacing] at hgap hplace
      omega
    rw [kindAt_append_right, kindAt_append_left _ (by rwa [List.length_replicate])]
    exact kindAt_replicate_padding hjn

/-- Padded records may be cut at the place of a checkpoint, or behind a record of another kind. -/
theorem Padded.take (h : Padded records) {count : Nat}
    (hcut : count % checkpointSpacing = 0 ∨
      ∃ last, count = last + 1 ∧ kindAt records last ≠ some .padding) :
    Padded (records.take count) := by
  intro i hi j hij hplace
  obtain ⟨hlt, hold⟩ := kindAt_take_eq_some hi
  have hj : j < count := by
    rcases hcut with hzero | ⟨last, rfl, hlast⟩
    · rw [checkpointSpacing] at hzero hplace
      omega
    · refine Nat.not_le.mp fun hle => hlast (h i hold last (Nat.le_of_lt_succ hlt) ?_)
      rw [checkpointSpacing] at hplace ⊢
      omega
  rw [kindAt_take hj]
  exact h i hold j hij hplace

end Padding

section Store

variable {store : LogStore}

/-- The records of a log are its event or, behind padding up to a place for them, a checkpoint, its
hash and the event. -/
theorem recordsFor_eq_ok {hash : Hash} {block : BlockId} {timestamp : UInt64} {index : UInt32}
    {fresh : List Record} (h : store.recordsFor hash block timestamp index = .ok fresh) :
    ∃ gap written, fresh = List.replicate gap Record.padding ++ written ∧
      (gap = 0 ∨ (store.count + gap) % checkpointSpacing = 0 ∧ gap < checkpointSpacing) ∧
      ∀ record ∈ written, record.kind ≠ .ok .padding := by
  rw [recordsFor] at h
  obtain ⟨-, -, h⟩ := Outcome.bind_eq_ok.mp h
  dsimp only at h
  split at h
  · obtain ⟨event, -, h⟩ := Outcome.bind_eq_ok.mp h
    refine ⟨gapAt store.count, _, (Except.ok.inj h).symm, ?_, by simp⟩
    rw [gapAt, checkpointSpacing]
    split <;> omega
  · obtain ⟨event, -, h⟩ := Outcome.bind_eq_ok.mp h
    exact ⟨0, [event.encode], (Except.ok.inj h).symm, .inl rfl, by simp⟩

theorem padded_add (h : Padded store.records.toList) (hash : Hash) (block : BlockId)
    (timestamp : UInt64) (index : UInt32) :
    Padded (store.add hash block timestamp index).2.records.toList := by
  rw [add]
  split
  · exact h
  · rename_i fresh hfresh
    obtain ⟨gap, written, rfl, hgap, hwritten⟩ := recordsFor_eq_ok hfresh
    rw [append, Array.toList_appendList]
    exact h.append (by rwa [Array.length_toList]) hwritten

theorem findCheckpoint_eq_some {records : Array Record} {target : Position} {i : Nat}
    (h : findCheckpoint records target = .ok (some i)) : i % checkpointSpacing = 0 := by
  rw [findCheckpoint] at h
  split at h
  · cases h
  · obtain ⟨below, -, h⟩ := Outcome.bind_eq_ok.mp h
    have hplace : ∀ met : Bool, (if met = true then pure (some (below * checkpointSpacing))
        else if below = 0 then pure none else pure (some ((below - 1) * checkpointSpacing)) :
          Except StorageError (Option Nat)) = .ok (some i) → i % checkpointSpacing = 0 := by
      intro met h
      split at h
      · cases h
        exact Nat.mul_mod_left _ _
      · split at h <;> cases h
        exact Nat.mul_mod_left _ _
    dsimp only at h
    split at h
    · obtain ⟨checkpoint, -, h⟩ := Outcome.bind_eq_ok.mp h
      exact hplace (checkpoint.position == target) h
    · exact hplace false h

/-- A record that is not a log is passed over. -/
theorem exists_step (scan : Scan) {record : Record} {kind : RecordKind}
    (hkind : record.kind = .ok kind) (hlog : kind ≠ .logRecord) :
    ∃ later, step scan record = .ok (none, later) := by
  by_cases hcheckpoint : kind = .checkpoint
  · subst hcheckpoint
    exact ⟨_, step_checkpoint scan hkind⟩
  · exact ⟨_, step_other scan hkind hcheckpoint hlog⟩

/-- A walk to the first log above a block gives where it started to keep records or the place behind
a log. -/
theorem scanAbove_eq_some {records : Array Record} {block : UInt64} {count : Nat} :
    ∀ (fuel keep : Nat) (scan : Scan),
      scanAbove records block fuel keep scan = .ok (some count) →
      count = keep ∨ ∃ last, count = last + 1 ∧ kindAt records.toList last = some .logRecord := by
  intro fuel
  induction fuel with
  | zero => intro keep scan h; cases h
  | succ fuel ih =>
    intro keep scan h
    rw [scanAbove] at h
    cases hget : records[scan.next]? with
    | none => rw [hget] at h; cases h
    | some record =>
      rw [hget] at h
      dsimp only at h
      cases hkind : record.kind with
      | error e =>
        have hstep : step scan record = .error e := by rw [step, hkind]; rfl
        rw [hstep] at h
        cases h
      | ok kind =>
        by_cases hlog : kind = .logRecord
        · subst hlog
          rw [step_log scan hkind] at h
          dsimp only at h
          split at h
          · exact .inl (Option.some.inj (Except.ok.inj h)).symm
          · rcases ih _ _ h with rfl | hlater
            · refine .inr ⟨scan.next, rfl, kindAt_eq_some.mpr ⟨record, ?_, hkind⟩⟩
              rwa [Array.getElem?_toList]
            · exact .inr hlater
        · obtain ⟨later, hstep⟩ := exists_step scan hkind hlog
          rw [hstep] at h
          exact ih _ _ h

theorem padded_rewind (h : Padded store.records.toList) (block : UInt64) :
    Padded (store.rewind block).2.records.toList := by
  rw [rewind]
  split
  · exact h
  · cases hcut : rewind.cut block store.records with
    | error e => exact h
    | ok place =>
      cases place with
      | none => exact h
      | some count =>
        have htake : Padded (store.records.take count).toList := by
          rw [toList_take]
          refine h.take ?_
          rw [rewind.cut] at hcut
          obtain ⟨found, hfound, hcut⟩ := Outcome.bind_eq_ok.mp hcut
          cases found with
          | none =>
            cases hcut
            exact .inl rfl
          | some index =>
            obtain ⟨scan, -, hcut⟩ := Outcome.bind_eq_ok.mp hcut
            rcases scanAbove_eq_some _ _ _ hcut with rfl | ⟨last, rfl, hlast⟩
            · exact .inl (findCheckpoint_eq_some hfound)
            · exact .inr ⟨last, rfl, by rw [hlast]; simp⟩
        dsimp only
        split <;> exact htake

end Store

/-! ### Groups -/

end LogStore

namespace LogGroup

variable (group : LogGroup)

theorem kindAt_records_zero : LogStore.kindAt group.records 0 = some .checkpoint :=
  LogStore.kindAt_eq_some.mpr ⟨_, rfl, Checkpoint.kind_encode _⟩

/-- What follows the checkpoint of a group is of another kind, and of none of the reserved ones. -/
theorem kindAt_records_succ {place : Nat} {kind : RecordKind}
    (h : LogStore.kindAt group.records (place + 1) = some kind) :
    kind ≠ .checkpoint ∧ kind ≠ .executingLink ∧ kind ≠ .executingCheck := by
  obtain ⟨record, hget, hkind⟩ := LogStore.kindAt_eq_some.mp h
  rw [records, List.getElem?_cons_succ] at hget
  rcases List.mem_cons.mp (List.mem_of_getElem? hget) with rfl | hmem
  · cases (ShortHash.kind_encode _).symm.trans hkind
    decide
  · obtain ⟨slot, -, rfl⟩ := List.mem_map.mp hmem
    cases slot with
    | none =>
      cases Record.kind_padding.symm.trans hkind
      decide
    | some event =>
      cases (LogRecord.kind_encode event).symm.trans hkind
      decide

/-- A group has one checkpoint. -/
theorem countP_records :
    group.records.countP (fun record => record.code == RecordKind.checkpoint.code) = 1 := by
  have hnone : group.records.tail.countP
      (fun record => record.code == RecordKind.checkpoint.code) = 0 := by
    refine List.countP_eq_zero.mpr fun record hmem => ?_
    rcases List.mem_cons.mp hmem with rfl | hmem
    · exact Bool.false_ne_true
    · obtain ⟨slot, -, rfl⟩ := List.mem_map.mp hmem
      cases slot <;> exact Bool.false_ne_true
  rw [records, List.countP_cons]
  exact congrArg (· + 1) hnone

end LogGroup

namespace LogStore

section Groups

variable {groups : List LogGroup} {records : Array Record}

theorem Layout.kindAt_group (layout : Layout groups) {k place : Nat} (hk : k < groups.length)
    (hplace : place < groups[k].size) :
    kindAt (groups.flatMap LogGroup.records) (k * checkpointSpacing + place) =
      kindAt groups[k].records place := by
  have hget : (groups.flatMap LogGroup.records)[k * checkpointSpacing + place]? =
      groups[k].records[place]? := by
    rw [← List.getElem?_drop, layout.drop_records k hk, List.drop_eq_getElem_cons hk,
      List.flatMap_cons, List.getElem?_append_left (by rwa [LogGroup.length_records])]
  rw [kindAt, hget, kindAt]

/-- A record is that of its group at its distance from the checkpoint. -/
theorem Layout.kindAt_eq (layout : Layout groups) {i : Nat}
    (hi : i < (groups.flatMap LogGroup.records).length) :
    ∃ group ∈ groups, i % checkpointSpacing < group.size ∧
      kindAt (groups.flatMap LogGroup.records) i = kindAt group.records (i % checkpointSpacing) := by
  obtain ⟨k, hk, hplace, hsize⟩ := layout.place hi
  refine ⟨groups[k], List.getElem_mem hk, hsize, ?_⟩
  rw [← layout.kindAt_group hk hsize, ← hplace]

theorem Layout.checkpoint_iff (layout : Layout groups) {i : Nat}
    (hi : i < (groups.flatMap LogGroup.records).length) :
    kindAt (groups.flatMap LogGroup.records) i = some .checkpoint ↔ i % checkpointSpacing = 0 := by
  obtain ⟨group, -, -, hkind⟩ := layout.kindAt_eq hi
  rw [hkind]
  cases hplace : i % checkpointSpacing with
  | zero => simp [group.kindAt_records_zero]
  | succ place =>
    refine iff_of_false (fun h => (group.kindAt_records_succ h).1 rfl) (Nat.succ_ne_zero place)

theorem kindAt_of_checkpointAt {i : Nat} {checkpoint : Checkpoint}
    (h : checkpointAt records i = .ok checkpoint) : kindAt records.toList i = some .checkpoint := by
  rw [checkpointAt] at h
  obtain ⟨record, hread, h⟩ := Outcome.bind_eq_ok.mp h
  rw [Checkpoint.decode] at h
  obtain ⟨_, hexpect, -⟩ := Outcome.bind_eq_ok.mp h
  refine kindAt_eq_some.mpr ⟨record, ?_, Record.kind_of_expect hexpect⟩
  rw [Array.getElem?_toList, recordAt_eq_ok.mp hread]

theorem lt_of_checkpointAt {i : Nat} {checkpoint : Checkpoint}
    (h : checkpointAt records i = .ok checkpoint) : i < records.size := by
  rw [← Array.length_toList]
  exact lt_of_kindAt (kindAt_of_checkpointAt h)

theorem Layout.place_of_checkpoint (layout : Layout groups) {i : Nat}
    (h : kindAt (groups.flatMap LogGroup.records) i = some .checkpoint) :
    ∃ k, k < groups.length ∧ i = k * checkpointSpacing := by
  have hlt := lt_of_kindAt h
  obtain ⟨k, hk, hplace, -⟩ := layout.place hlt
  rw [(layout.checkpoint_iff hlt).mp h, Nat.add_zero] at hplace
  exact ⟨k, hk, hplace⟩

/-- A group is read as its checkpoint, its hash and the event of its first log. -/
theorem Layout.opened (layout : Layout groups)
    (hrecords : records.toList = groups.flatMap LogGroup.records) {k : Nat} (hk : k < groups.length) :
    checkpointAt records (k * checkpointSpacing) = .ok groups[k].checkpoint ∧
      (recordAt records (k * checkpointSpacing + 1) >>=
        ShortHash.decode (k * checkpointSpacing + 1)) = .ok groups[k].blockHash ∧
      (recordAt records (k * checkpointSpacing + 2) >>=
        LogRecord.decode (k * checkpointSpacing + 2)) = .ok (.still groups[k].firstHash) := by
  have hdrop := layout.drop_checkpoint hk
  rw [← hrecords] at hdrop
  have hhash := drop_succ_of_drop hdrop
  have hevent := drop_succ_of_drop hhash
  rw [behind, LogGroup.slots, List.map_cons, List.cons_append] at hevent
  refine ⟨?_, ?_, ?_⟩
  · rw [checkpointAt, recordAt_of_drop hdrop, Outcome.ok_bind, Checkpoint.decode_encode]
  · rw [recordAt_of_drop hhash, Outcome.ok_bind, ShortHash.decode_encode]
  · rw [recordAt_of_drop hevent, Outcome.ok_bind]
    exact LogRecord.decode_encode _ _

theorem Layout.kind_unreserved (layout : Layout groups) {i : Nat} {kind : RecordKind}
    (h : kindAt (groups.flatMap LogGroup.records) i = some kind) :
    kind ≠ .executingLink ∧ kind ≠ .executingCheck := by
  obtain ⟨group, -, -, hkind⟩ := layout.kindAt_eq (lt_of_kindAt h)
  rw [hkind] at h
  cases hplace : i % checkpointSpacing with
  | zero =>
    rw [hplace, group.kindAt_records_zero] at h
    cases h
    decide
  | succ place => exact (group.kindAt_records_succ (hplace ▸ h)).2

/-- The last group has its first log. -/
theorem Layout.complete (layout : Layout groups) :
    (groups.flatMap LogGroup.records).length % checkpointSpacing ≠ 1 ∧
      (groups.flatMap LogGroup.records).length % checkpointSpacing ≠ 2 := by
  rcases List.eq_nil_or_concat groups with rfl | ⟨init, last, rfl⟩
  · decide
  · rw [List.concat_eq_append] at layout ⊢
    have hfits := (Layout.snoc_iff.mp layout).2
    rw [layout.length_snoc]
    rw [LogGroup.size, checkpointSpacing] at *
    omega

theorem countP_groups (groups : List LogGroup) :
    (groups.flatMap LogGroup.records).countP
      (fun record => record.code == RecordKind.checkpoint.code) = groups.length := by
  induction groups with
  | nil => rfl
  | cons group later ih =>
    rw [List.flatMap_cons, List.countP_append, group.countP_records, ih, List.length_cons,
      Nat.add_comm]

/-- Groups with padding only up to the places of checkpoints are in the format. -/
theorem Represents.formatted {store : LogStore} {logs : LogList} (h : Represents store logs)
    (padded : Padded store.records.toList) : Formatted store.records := by
  obtain ⟨groups, layout, hrecords, hlogs⟩ := h.laid
  have hindexed := indexed layout (h.ascending hlogs) hrecords
  have hsize : (groups.flatMap LogGroup.records).length = store.records.size := by
    rw [← hrecords, Array.length_toList]
  refine ⟨fun i hi => ?_, fun i hi => ?_, fun i j first second hij hfirst hsecond => ?_,
    fun i kind hi => ?_, padded, ?_, ?_⟩
  · rw [hrecords]
    exact layout.checkpoint_iff (hsize ▸ hi)
  · rw [hrecords] at hi
    obtain ⟨k, hk, rfl⟩ := layout.place_of_checkpoint hi
    obtain ⟨hcheckpoint, hhash, hevent⟩ := layout.opened hrecords hk
    exact ⟨_, _, _, hcheckpoint, hhash, hevent, LogRecord.apply_still _ _⟩
  · obtain ⟨k, hk, rfl⟩ := layout.place_of_checkpoint (hrecords ▸ kindAt_of_checkpointAt hfirst)
    obtain ⟨l, hl, rfl⟩ := layout.place_of_checkpoint (hrecords ▸ kindAt_of_checkpointAt hsecond)
    have hk : k < (groups.map LogGroup.checkpoint).length := by rwa [List.length_map]
    have hl : l < (groups.map LogGroup.checkpoint).length := by rwa [List.length_map]
    cases (hindexed.decoded k hk).symm.trans hfirst
    cases (hindexed.decoded l hl).symm.trans hsecond
    exact hindexed.position_lt (Nat.lt_of_mul_lt_mul_right hij) hk hl
  · exact layout.kind_unreserved (hrecords ▸ hi)
  · exact hsize ▸ layout.complete
  · rw [hrecords, countP_groups]
    exact length_groups layout hrecords

end Groups

end LogStore

namespace LogFile

open LogStore

/-- Every request leaves what padding there is complete. -/
theorem padded_after {file : LogFile} {logs : LogList} (h : Holds file logs)
    (padded : ∀ store, file.store = some store → Padded store.records.toList) (request : Request) :
    ∀ store, (file.after request).store = some store → Padded store.records.toList := by
  obtain ⟨closed, _, observed⟩ := file
  obtain ⟨store, rfl, hrep⟩ := h
  have hpadded := padded store rfl
  cases request with
  | add hash block timestamp index =>
    have hadd := padded_add hpadded hash block timestamp index
    intro later hlater
    rw [after, add, onStore] at hlater
    cases hwork : store.add hash block timestamp index with
    | mk outcome grown =>
      rw [hwork] at hlater hadd
      cases outcome <;> (cases hlater; exact hadd)
  | rewind block =>
    have hrewind := padded_rewind hpadded block
    intro later hlater
    rw [after, rewind, onStore] at hlater
    cases hwork : store.rewind block with
    | mk outcome kept =>
      rw [hwork] at hlater hrewind
      cases outcome <;> (cases hlater; exact hrewind)
  | contains target hash =>
    rintro _ ⟨⟩
    exact hpadded
  | reopen =>
    intro later hlater
    rw [after, reopen_eq hrep] at hlater
    cases hlater
    exact hpadded

theorem padded_run {file : LogFile} {logs : LogList} (h : Holds file logs)
    (padded : ∀ store, file.store = some store → Padded store.records.toList)
    (requests : List Request) :
    ∀ store, (file.run requests).store = some store → Padded store.records.toList := by
  induction requests generalizing file logs with
  | nil => exact padded
  | cons request rest ih => exact ih (holds_after h request) (padded_after h padded request)

/-- After any requests to a new file, its records are in the format. -/
theorem formatted_run (requests : List Request) :
    ∃ store, (empty.reopen.2.run requests).store = some store ∧
      (empty.reopen.2.run requests).content = some (fileOf store.records) ∧
      Formatted store.records := by
  obtain ⟨store, hstore, hrep⟩ := holds_run holds_empty requests
  have hpadded := padded_run holds_empty (fun _ h => by cases h; exact padded_nil) requests
  refine ⟨store, hstore, ?_, hrep.formatted (hpadded store hstore)⟩
  rw [content, hstore]
  rfl

end LogFile

end CrossSafety
