import CrossSafety.Proofs.LogStore.Refinement

/-!
# A log file that lost its end

The end of a log file can get lost at any byte. The records that are still there as a whole open as
the store of a first part of the logs, unless they end with a checkpoint or its hash. Such an end
gives the position of a log that is not there, and the head of the store is taken from it.
-/
namespace CrossSafety

/-- The whole records of a file that was cut are those in front of the cut. -/
theorem Record.wholeIn_take (records : List Record) (length : Nat) :
    wholeIn ((records.flatMap Record.bytes).take length) = records.take (length / 24) := by
  have hsplit : records.flatMap Record.bytes = (records.take (length / 24)).flatMap Record.bytes ++
      (records.drop (length / 24)).flatMap Record.bytes := by
    rw [← List.flatMap_append, List.take_append_drop]
  have hle : ((records.take (length / 24)).flatMap Record.bytes).length ≤ length := by
    rw [length_flatMap_bytes, List.length_take]
    omega
  rw [hsplit, List.take_append, List.take_of_length_le hle]
  refine wholeIn_flatMap_append _ ?_
  simp only [List.length_take, length_flatMap_bytes, List.length_drop]
  omega

theorem LogGroup.entries_eq_cut (group : LogGroup) (kept : Nat) :
    ∃ lost, group.entries = (group.cut kept).entries ++ lost := by
  refine ⟨LogRecord.places (LogRecord.endOf group.checkpoint.position
    (LogRecord.eventsOf (group.slots.take (kept + 1))))
      (LogRecord.eventsOf (group.slots.drop (kept + 1))), ?_⟩
  rw [entries_cut, ← LogRecord.places_append, ← LogRecord.eventsOf_append, List.take_append_drop]
  rfl

namespace LogStore

section Cut

variable {store : LogStore} {logs : LogList} {groups : List LogGroup}

/-- A place among the records lies in one of the groups. -/
theorem Layout.place (layout : Layout groups) {count : Nat}
    (hlt : count < (groups.flatMap LogGroup.records).length) :
    ∃ i, ∃ hi : i < groups.length, count = i * checkpointSpacing + count % checkpointSpacing ∧
      count % checkpointSpacing < groups[i].size := by
  rcases List.eq_nil_or_concat groups with rfl | ⟨init, last, rfl⟩
  · exact absurd hlt (Nat.not_lt_zero _)
  · rw [List.concat_eq_append] at layout hlt ⊢
    obtain ⟨hfilled, hfits⟩ := Layout.snoc_iff.mp layout
    rw [layout.length_snoc] at hlt
    have hspacing : checkpointSpacing = 256 := rfl
    have hi : count / checkpointSpacing < (init ++ [last]).length := by
      rw [List.length_append, List.length_singleton]
      rw [hspacing] at hlt hfits ⊢
      omega
    refine ⟨count / checkpointSpacing, hi, ?_, ?_⟩
    · rw [Nat.mul_comm]
      exact (Nat.div_add_mod _ _).symm
    · by_cases hinner : count / checkpointSpacing < init.length
      · rw [List.getElem_append_left hinner, hfilled _ (List.getElem_mem hinner)]
        exact Nat.mod_lt _ (by decide)
      · have hlast : count / checkpointSpacing = init.length := by
          rw [List.length_append, List.length_singleton] at hi
          omega
        rw [List.getElem_append_right (Nat.not_lt.mp hinner)]
        simp only [hlast, Nat.sub_self, List.getElem_cons_zero]
        rw [hspacing] at hlt hlast ⊢
        omega

/-- Records that do not end with a checkpoint or its hash are those of a first part of the logs. -/
theorem Represents.take (h : Represents store logs) {count : Nat}
    (hcheckpoint : count % checkpointSpacing ≠ 1) (hhash : count % checkpointSpacing ≠ 2) :
    ∃ survivor kept lost, load (store.records.take count) = .ok survivor ∧
      survivor.Represents kept ∧ logs = kept ++ lost := by
  obtain ⟨groups, layout, hrecords, hlogs⟩ := h.laid
  by_cases hlt : count < (groups.flatMap LogGroup.records).length
  · obtain ⟨i, hi, hcount, hplace⟩ := layout.place hlt
    have hsplit : logs = (groups.take i).flatMap LogGroup.entries ++ (groups[i].entries ++
        (groups.drop (i + 1)).flatMap LogGroup.entries) := by
      rw [hlogs, ← List.flatMap_cons, ← List.drop_eq_getElem_cons hi, ← List.flatMap_append,
        List.take_append_drop]
    by_cases hzero : count % checkpointSpacing = 0
    · -- the cut falls between two groups
      rw [hzero, Nat.add_zero] at hcount
      have htake := take_groups layout hi
      rw [← hcount, ← hrecords] at htake
      obtain ⟨head, hhead, hrep⟩ := represents_prefix h (layout.take i) htake hsplit
      exact ⟨_, _, _, by rw [load, hhead]; rfl, hrep, hsplit⟩
    · obtain ⟨inside, hinside⟩ : ∃ inside, count % checkpointSpacing = inside + 3 :=
        ⟨count % checkpointSpacing - 3, by omega⟩
      rw [hinside] at hcount hplace
      have hroom : inside ≤ groups[i].later.length := by
        rw [LogGroup.size] at hplace
        omega
      obtain ⟨hlayout, htake⟩ := take_records layout hi hroom
      rw [← hcount, ← hrecords] at htake
      obtain ⟨lost, hlost⟩ := groups[i].entries_eq_cut inside
      rw [hlost, List.append_assoc, ← List.append_assoc, ← List.flatMap_singleton LogGroup.entries,
        ← List.flatMap_append] at hsplit
      obtain ⟨head, hhead, hrep⟩ := represents_prefix h hlayout htake hsplit
      exact ⟨_, _, _, by rw [load, hhead]; rfl, hrep, hsplit⟩
  · have htake : store.records.take count = store.records := by
      rw [← hrecords, Array.length_toList] at hlt
      rw [Array.take_eq_extract]
      exact Array.extract_eq_self_of_le (Nat.not_lt.mp hlt)
    exact ⟨store, logs, [], by rw [htake]; exact h.load_records, h, (List.append_nil _).symm⟩

/-- The first bytes of a file are read as the records that lie in them as a whole. -/
theorem openFile_take_bytes {left : LogStore} (length : Nat)
    (hload : load (store.records.take (length / 24)) = .ok left) :
    openFile (store.bytes.take length) = .ok left := by
  have hrecords : (store.records.toList.take (length / 24)).toArray =
      store.records.take (length / 24) := by
    rw [← Array.toList_inj, toList_take]
  rw [openFile, bytes, fileOf_eq, Record.wholeIn_take, hrecords, hload]

/-- A file that was cut at any byte opens with a first part of the logs, unless its whole records end
with a checkpoint or its hash. -/
theorem openFile_take (h : Represents store logs) {length : Nat}
    (hcheckpoint : length / 24 % checkpointSpacing ≠ 1)
    (hhash : length / 24 % checkpointSpacing ≠ 2) :
    ∃ survivor kept lost, openFile (store.bytes.take length) = .ok survivor ∧
      survivor.Represents kept ∧ logs = kept ++ lost := by
  obtain ⟨survivor, kept, lost, hload, hrep, hsplit⟩ := h.take hcheckpoint hhash
  exact ⟨survivor, kept, lost, openFile_take_bytes length hload, hrep, hsplit⟩

/-- A checkpoint and its hash without the log behind them count as the log. -/
example :
    let hash : Hash := .ofBytes [7]
    let store := (empty.add hash ⟨2, .ofBytes [2]⟩ 2 0).2
    ∃ survivor, openFile (store.bytes.take 48) = .ok survivor ∧
      survivor.latest = some ⟨2, 0⟩ ∧ survivor.contains ⟨2, 0⟩ hash = .ok false :=
  ⟨_, rfl, rfl, rfl⟩

end Cut

end LogStore

end CrossSafety
