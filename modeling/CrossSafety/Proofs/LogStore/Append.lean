import CrossSafety.Proofs.LogStore.Represents

/-!
# Adding a log

A log that may follow the head is written in one of two ways. Where a checkpoint is due, or the
next block is too far ahead for an event, the last group is filled with padding and a new group
starts. Otherwise the last group gets one more event. Both add exactly this log to the list.
A log that may not follow is refused as out of order and changes nothing.
-/
namespace CrossSafety

namespace LogStore

/-- The group that starts with a log. -/
def opening (hash : Hash) (block : BlockId) (timestamp : UInt64) (index : UInt32) : LogGroup :=
  ⟨⟨block.number, index, timestamp⟩, block.hash.short, hash.short, []⟩

theorem entries_opening (hash : Hash) (block : BlockId) (timestamp : UInt64) (index : UInt32) :
    (opening hash block timestamp index).entries =
      [⟨⟨block.number, index⟩, hash.short⟩] := rfl

theorem size_opening (hash : Hash) (block : BlockId) (timestamp : UInt64) (index : UInt32) :
    (opening hash block timestamp index).size = 3 := rfl

end LogStore

namespace LogGroup

/-- A group filled up to the place of the next checkpoint. -/
def fill (group : LogGroup) : LogGroup :=
  { group with later := group.later ++ List.replicate (checkpointSpacing - group.size) none }

theorem size_fill {group : LogGroup} (h : group.size ≤ checkpointSpacing) :
    group.fill.size = checkpointSpacing := by
  have hsize : group.fill.size = group.size + (checkpointSpacing - group.size) := by
    simp only [size, fill, List.length_append, List.length_replicate]
    omega
  omega

theorem records_fill (group : LogGroup) :
    group.fill.records =
      group.records ++ List.replicate (checkpointSpacing - group.size) Record.padding := by
  simp only [records, fill, slots, List.map_cons, List.map_append, List.map_replicate,
    List.cons_append]
  rfl

@[simp] theorem entries_fill (group : LogGroup) : group.fill.entries = group.entries := by
  have hevents : group.fill.events = group.events := by
    change LogRecord.eventsOf (group.slots ++ _) = _
    rw [LogRecord.eventsOf_append, LogRecord.eventsOf_replicate, List.append_nil]
    rfl
  rw [entries, hevents, entries, fill]

def push (group : LogGroup) (event : LogRecord) : LogGroup :=
  { group with later := group.later ++ [some event] }

theorem size_push (group : LogGroup) (event : LogRecord) :
    (group.push event).size = group.size + 1 := by
  simp only [size, push, List.length_append, List.length_singleton]

theorem records_push (group : LogGroup) (event : LogRecord) :
    (group.push event).records = group.records ++ [event.encode] := by
  simp [records, push, slots, LogRecord.encodeSlot]

theorem entries_push (group : LogGroup) (event : LogRecord) :
    (group.push event).entries =
      group.entries ++ [⟨event.apply group.last, event.hash⟩] := by
  have h : (group.push event).events = group.events ++ [event] :=
    LogRecord.eventsOf_append group.slots [some event]
  rw [entries, h, LogRecord.places_append]
  rfl

end LogGroup

namespace LogStore

section Append

variable {store : LogStore} {logs : LogList} {groups : List LogGroup}

/-- Number of padding records in front of a checkpoint that is written next. -/
def gapAt (count : Nat) : Nat :=
  if count % checkpointSpacing = 0 then 0 else checkpointSpacing - count % checkpointSpacing

theorem gapAt_eq_zero {count : Nat} : gapAt count = 0 ↔ count % checkpointSpacing = 0 := by
  unfold gapAt checkpointSpacing
  split <;> omega

/-- Padding up to the place of a checkpoint fills the last group and adds no log. -/
theorem filled_of_layout (layout : Layout groups) :
    ∃ filled : List LogGroup, (∀ g ∈ filled, g.size = checkpointSpacing) ∧
      filled.flatMap LogGroup.records = groups.flatMap LogGroup.records ++
        List.replicate (gapAt (groups.flatMap LogGroup.records).length) Record.padding ∧
      filled.flatMap LogGroup.entries = groups.flatMap LogGroup.entries := by
  rcases List.eq_nil_or_concat groups with rfl | ⟨init, last, rfl⟩
  · exact ⟨[], by simp, rfl, rfl⟩
  · rw [List.concat_eq_append] at *
    obtain ⟨hinit, hfits⟩ := Layout.snoc_iff.mp layout
    have hpos : 0 < last.size := by unfold LogGroup.size; omega
    have hgap : gapAt (init.length * checkpointSpacing + last.size) =
        checkpointSpacing - last.size := by
      unfold gapAt checkpointSpacing at *
      split <;> omega
    refine ⟨init ++ [last.fill], fun g hg => ?_, ?_, by simp⟩
    · rcases List.mem_append.mp hg with hg | hg
      · exact hinit g hg
      · rw [List.mem_singleton.mp hg]
        exact LogGroup.size_fill hfits
    · rw [layout.length_snoc, hgap]
      simp only [List.flatMap_append, List.flatMap_cons, List.flatMap_nil, List.append_nil,
        LogGroup.records_fill, List.append_assoc]

/-- Appending the records of a log adds it to the list, whichever group takes it. -/
theorem represents_snoc (h : Represents store logs) {next : Position} {hash : ShortHash}
    {fresh : List Record} {grown : List LogGroup} (follows : logs.head.Follows next)
    (layout : Layout grown)
    (hrecords : store.records.toList ++ fresh = grown.flatMap LogGroup.records)
    (hentries : grown.flatMap LogGroup.entries = logs ++ [⟨next, hash⟩]) :
    Represents (store.append fresh next) (logs ++ [⟨next, hash⟩]) where
  ordered := LogList.ordered_append.mpr ⟨h.ordered, follows, trivial⟩
  laid := ⟨grown, layout, by rw [append, Array.toList_appendList, hrecords], hentries.symm⟩
  head_eq := by rw [LogList.head, LogList.endFrom_snoc]; rfl

theorem Represents.checkNext_ok (h : Represents store logs) {next : Position}
    (follows : logs.head.Follows next) : checkNext store.head next = .ok () := by
  rcases checkNext_eq store.head next with ⟨hok, -⟩ | ⟨-, hnot⟩
  · exact hok
  · exact absurd (h.head_eq ▸ follows) hnot

theorem length_records_eq_count {groups : List LogGroup}
    (hrecords : store.records.toList = groups.flatMap LogGroup.records) :
    (groups.flatMap LogGroup.records).length = store.count := by
  rw [← hrecords, Array.length_toList]
  rfl

/-- Where a checkpoint is due, or the block is out of reach of an event, the log starts a group of its
own. -/
theorem represents_add_checkpoint (h : Represents store logs) (hash : Hash) (block : BlockId)
    (timestamp : UInt64) (index : UInt32) (follows : logs.head.Follows ⟨block.number, index⟩)
    (hnew : store.count % checkpointSpacing = 0 ∨ 255 < block.number - store.head.block) :
    ∃ grown, store.add hash block timestamp index = (.ok (), grown) ∧
      Represents grown (logs ++ [⟨⟨block.number, index⟩, hash.short⟩]) := by
  obtain ⟨groups, layout, hrecords, hlogs⟩ := h.laid
  obtain ⟨filled, hfull, hfilled, hkept⟩ := filled_of_layout layout
  rw [length_records_eq_count hrecords, ← hrecords] at hfilled
  have hfresh : store.recordsFor hash block timestamp index =
      .ok (List.replicate (gapAt store.count) Record.padding ++
        (opening hash block timestamp index).records) := by
    rw [recordsFor]
    simp only [h.checkNext_ok follows, Outcome.ok_bind]
    rw [if_pos hnew, LogRecord.between_self]
    rfl
  have hlayout : Layout (filled ++ [opening hash block timestamp index]) :=
    Layout.snoc_iff.mpr ⟨hfull, by rw [size_opening, checkpointSpacing]; omega⟩
  refine ⟨_, by rw [add, hfresh], represents_snoc h follows hlayout ?_ ?_⟩
  · simp [hfilled]
  · simp [hkept, hlogs, entries_opening]

/-- Otherwise the last group is not filled, and takes one more event. -/
theorem represents_add_event (h : Represents store logs) (hash : Hash) (block : BlockId)
    (timestamp : UInt64) (index : UInt32) (follows : logs.head.Follows ⟨block.number, index⟩)
    (hnew : ¬(store.count % checkpointSpacing = 0 ∨ 255 < block.number - store.head.block)) :
    ∃ grown, store.add hash block timestamp index = (.ok (), grown) ∧
      Represents grown (logs ++ [⟨⟨block.number, index⟩, hash.short⟩]) := by
  obtain ⟨groups, layout, hrecords, hlogs⟩ := h.laid
  have hcount := length_records_eq_count hrecords
  have hoffset : store.count % checkpointSpacing ≠ 0 := fun he => hnew (.inl he)
  rcases List.eq_nil_or_concat groups with rfl | ⟨init, last, rfl⟩
  · rw [← hcount] at hoffset
    exact absurd rfl hoffset
  · rw [List.concat_eq_append] at *
    obtain ⟨hinit, hfits⟩ := Layout.snoc_iff.mp layout
    rw [layout.length_snoc] at hcount
    have hroom : last.size < checkpointSpacing := by
      rw [← hcount] at hoffset
      unfold checkpointSpacing at *
      omega
    have hhead : store.head = last.last := by rw [h.head_eq, hlogs, head_snoc]
    obtain ⟨event, hevent, hhash, hnext⟩ := LogRecord.between_of_follows hash.short
      (h.head_eq ▸ follows) fun hfar => hnew (.inr hfar)
    have hfresh : store.recordsFor hash block timestamp index = .ok [event.encode] := by
      rw [recordsFor]
      simp only [h.checkNext_ok follows, Outcome.ok_bind]
      rw [if_neg hnew, hevent]
      rfl
    have hlayout : Layout (init ++ [last.push event]) :=
      Layout.snoc_iff.mpr ⟨hinit, by rw [LogGroup.size_push]; exact hroom⟩
    refine ⟨_, by rw [add, hfresh], represents_snoc h follows hlayout ?_ ?_⟩
    · simp [hrecords, LogGroup.records_push]
    · simp [hlogs, LogGroup.entries_push, ← hhead, hnext, hhash]

/-- A log that may follow is added behind the others. -/
theorem represents_add (h : Represents store logs) (hash : Hash) (block : BlockId)
    (timestamp : UInt64) (index : UInt32) (follows : logs.head.Follows ⟨block.number, index⟩) :
    ∃ grown, store.add hash block timestamp index = (.ok (), grown) ∧
      Represents grown (logs ++ [⟨⟨block.number, index⟩, hash.short⟩]) := by
  by_cases hnew : store.count % checkpointSpacing = 0 ∨ 255 < block.number - store.head.block
  · exact represents_add_checkpoint h hash block timestamp index follows hnew
  · exact represents_add_event h hash block timestamp index follows hnew

/-- A log that may not follow is out of order, and the store stays as it is. -/
theorem add_refused (h : Represents store logs) (hash : Hash) (block : BlockId)
    (timestamp : UInt64) (index : UInt32) (refused : ¬logs.head.Follows ⟨block.number, index⟩) :
    ∃ detail, store.add hash block timestamp index = (.error (.logOutOfOrder detail), store) := by
  rcases checkNext_eq store.head ⟨block.number, index⟩ with ⟨-, hf⟩ | ⟨⟨detail, herror⟩, -⟩
  · exact absurd (h.head_eq ▸ hf) refused
  · refine ⟨detail, ?_⟩
    rw [add, recordsFor]
    simp only [herror, Outcome.error_bind]

end Append

end LogStore

end CrossSafety
