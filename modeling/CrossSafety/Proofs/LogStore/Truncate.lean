import CrossSafety.Proofs.LogStore.Represents

/-!
# Dropping logs

A rewind cuts the records behind the last log that stays. The cut falls at a checkpoint or inside
a group, and then the group ends there with a log. What is left represents the logs of the
blocks that stay.
-/
namespace CrossSafety

theorem Position.block_succ_toNat {block later : UInt64} (h : block < later) :
    (block + 1).toNat = block.toNat + 1 := by
  have hlt := UInt64.lt_iff_toNat_lt.mp h
  have hlater := later.toNat_lt
  rw [UInt64.toNat_add, UInt64.toNat_one]
  omega

theorem Position.lt_block_iff {position : Position} {block later : UInt64} (h : block < later) :
    position < ⟨block + 1, 0⟩ ↔ position.block ≤ block := by
  have hsucc := block_succ_toNat h
  have hindex := position.index.toNat_lt
  rw [lt_def, rank, rank, hsucc, UInt64.le_iff_toNat_le, UInt32.toNat_zero]
  omega

/-- A sorted list is cut by a rewind where its first block above the number comes. -/
theorem LogList.rewind_of_split {block : UInt64} {kept dropped : LogList}
    (sorted : (kept ++ dropped).Pairwise fun a b => a.position < b.position)
    (hkept : ∀ entry ∈ kept, entry.position.block ≤ block)
    (hfirst : ∀ entry ∈ dropped.head?, block < entry.position.block) :
    (kept ++ dropped).rewind block = kept := by
  refine rewind_append hkept fun entry hmem => ?_
  cases dropped with
  | nil => simp at hmem
  | cons first rest =>
    have hlt := hfirst first rfl
    rcases List.mem_cons.mp hmem with rfl | hmem
    · exact hlt
    · have hsorted := (List.pairwise_append.mp sorted).2.1
      have habove := (List.pairwise_cons.mp hsorted).1 entry hmem
      exact UInt64.lt_of_lt_of_le hlt (Position.block_le_of_lt habove)

theorem LogList.Ordered.block_le_head {logs : LogList} (h : logs.Ordered .origin) :
    ∀ entry ∈ logs, entry.position.block ≤ logs.head.block := by
  intro entry hmem
  refine UInt64.not_lt.mp fun hlt => ?_
  exact h.le_end entry hmem (Position.lt_of_block_lt hlt)

theorem LogList.rewind_of_head_le {logs : LogList} {block : UInt64} (h : logs.Ordered .origin)
    (hle : logs.head.block ≤ block) : logs.rewind block = logs :=
  List.filter_eq_self.mpr fun entry hmem =>
    decide_eq_true (UInt64.le_trans (h.block_le_head entry hmem) hle)

theorem LogList.head_block_le {logs : LogList} {block : UInt64}
    (h : ∀ entry ∈ logs, entry.position.block ≤ block) : logs.head.block ≤ block := by
  rw [head, endFrom]
  cases hlast : logs.getLast? with
  | none => exact UInt64.zero_le
  | some entry => exact h entry (List.mem_of_getLast? hlast)

namespace LogStore

/-- The place behind some slots that are kept, counted from `index` on. It stays at `keep` if none
is. -/
def cutAt (index keep kept : Nat) : Nat := if kept = 0 then keep else index + kept

theorem cutAt_pass (index keep kept : Nat) :
    cutAt index keep (cutAt 1 0 kept) = cutAt (index + 1) keep kept := by
  unfold cutAt
  by_cases hzero : kept = 0
  · rw [if_pos hzero, if_pos hzero, if_pos rfl]
  · have hsome : 1 + kept ≠ 0 := by omega
    rw [if_neg hzero, if_neg hzero, if_neg hsome, Nat.add_assoc]

theorem cutAt_keep (index keep kept : Nat) :
    cutAt index keep (kept + 1) = cutAt (index + 1) (index + 1) kept := by
  unfold cutAt
  split <;> split <;> omega

/-- Of the logs from some slots on, those in the first `kept` slots stay. The others are dropped, and
the first of them lies above the block. -/
structure Splits (block : UInt64) (current : Position) (slots : List (Option LogRecord))
    (logs : LogList) (kept : Nat) (dropped : LogList) : Prop where
  inside : kept ≤ slots.length
  split : logs = LogRecord.places current (LogRecord.eventsOf (slots.take kept)) ++ dropped
  stay : ∀ entry ∈ LogRecord.places current (LogRecord.eventsOf (slots.take kept)),
    entry.position.block ≤ block
  leave : ∀ entry ∈ dropped.head?, block < entry.position.block

section Splits

variable {block : UInt64} {current : Position} {slots : List (Option LogRecord)}
  {logs dropped later : LogList} {kept : Nat}

theorem Splits.none_left (h : ∀ entry ∈ logs.head?, block < entry.position.block) :
    Splits block current slots logs 0 logs :=
  ⟨Nat.zero_le _, rfl, fun _ hmem => absurd hmem List.not_mem_nil, h⟩

/-- Padding in front of a log that stays is passed, and not kept without one. -/
theorem Splits.padding (h : Splits block current slots logs kept dropped) :
    Splits block current (none :: slots) logs (cutAt 1 0 kept) dropped := by
  have htake : LogRecord.eventsOf ((none :: slots).take (cutAt 1 0 kept)) =
      LogRecord.eventsOf (slots.take kept) := by
    cases kept with
    | zero => rfl
    | succ kept =>
      rw [cutAt, if_neg (Nat.succ_ne_zero kept), Nat.add_comm]
      rfl
  refine ⟨?_, htake ▸ h.split, htake ▸ h.stay, h.leave⟩
  have hinside := h.inside
  rw [cutAt, List.length_cons]
  split <;> omega

theorem Splits.event {event : LogRecord}
    (h : Splits block (event.apply current) slots logs kept dropped)
    (hstays : (event.apply current).block ≤ block) :
    Splits block current (some event :: slots) (⟨event.apply current, event.hash⟩ :: logs)
      (kept + 1) dropped := by
  refine ⟨Nat.succ_le_succ h.inside, ?_, fun entry hmem => ?_, h.leave⟩
  · rw [List.take_succ_cons, LogRecord.eventsOf_event, LogRecord.places, List.cons_append,
      ← h.split]
  · rw [List.take_succ_cons, LogRecord.eventsOf_event, LogRecord.places] at hmem
    rcases List.mem_cons.mp hmem with rfl | hmem
    · exact hstays
    · exact h.stay entry hmem

theorem Splits.append (h : Splits block current slots logs kept dropped)
    (hleave : ∀ entry ∈ (dropped ++ later).head?, block < entry.position.block) :
    Splits block current slots (logs ++ later) kept (dropped ++ later) :=
  ⟨h.inside, by rw [h.split, List.append_assoc], h.stay, hleave⟩

end Splits

/-- Behind a checkpoint the cut falls in front of the first log above the block, if any, and padding
behind the last log that stays is not kept. -/
theorem cutBelow_slots (block : UInt64) (rest : List Record) :
    ∀ (slots : List (Option LogRecord)) (index keep : Nat) (current : Position),
      ∃ kept dropped,
        Splits block current slots (LogRecord.places current (LogRecord.eventsOf slots)) kept
          dropped ∧
        cutBelow block index keep current (slots.map LogRecord.encodeSlot ++ rest) =
          if dropped = [] then cutBelow block (index + slots.length) (cutAt index keep kept)
            (LogRecord.endOf current (LogRecord.eventsOf slots)) rest
          else some (cutAt index keep kept) := by
  intro slots
  induction slots with
  | nil =>
    intro index keep current
    exact ⟨0, [], .none_left fun _ hmem => (nomatch hmem), rfl⟩
  | cons slot slots ih =>
    intro index keep current
    have hlength : index + 1 + slots.length = index + (slot :: slots).length := by
      rw [List.length_cons, Nat.add_assoc, Nat.add_comm 1]
    cases slot with
    | none =>
      obtain ⟨kept, dropped, hsplits, hcut⟩ := ih (index + 1) keep current
      refine ⟨cutAt 1 0 kept, dropped, hsplits.padding, ?_⟩
      rw [List.map_cons, List.cons_append, LogRecord.encodeSlot, cutBelow_padding, hcut, cutAt_pass,
        hlength]
      rfl
    | some event =>
      by_cases habove : block < (event.apply current).block
      · refine ⟨0, _, .none_left fun entry hmem => ?_, ?_⟩
        · cases hmem
          exact habove
        · rw [List.map_cons, List.cons_append, LogRecord.encodeSlot, cutBelow_event, if_pos habove,
            LogRecord.eventsOf_event, LogRecord.places, if_neg (List.cons_ne_nil _ _)]
          rfl
      · obtain ⟨kept, dropped, hsplits, hcut⟩ := ih (index + 1) (index + 1) (event.apply current)
        refine ⟨kept + 1, dropped, hsplits.event (UInt64.not_lt.mp habove), ?_⟩
        rw [List.map_cons, List.cons_append, LogRecord.encodeSlot, cutBelow_event, if_neg habove,
          hcut, cutAt_keep, hlength]
        rfl

/-- A group whose first log lies above the block is not entered. -/
theorem cutBelow_group (block : UInt64) (index keep : Nat) (current : Position)
    (group : LogGroup) (later : List LogGroup) (h : block < group.checkpoint.block) :
    cutBelow block index keep current ((group :: later).flatMap LogGroup.records) =
      some keep := by
  rw [records_eq_behind, cutBelow_checkpoint, cutBelow_hash, behind, LogGroup.slots, List.map_cons,
    List.cons_append, LogRecord.encodeSlot, cutBelow_event, LogRecord.apply_still]
  exact if_pos h

/-- From a group on, the cut splits the logs into those that stay and those that do not. -/
theorem cutBelow_behind (block : UInt64) (index keep : Nat) (group : LogGroup)
    (later : List LogGroup) (hlater : ∀ next ∈ later.head?, block < next.checkpoint.block) :
    ∃ kept dropped, Splits block group.checkpoint.position group.slots
        ((group :: later).flatMap LogGroup.entries) kept dropped ∧
      (dropped ≠ [] → cutBelow block index keep group.checkpoint.position (behind group later) =
        some (cutAt index keep kept)) := by
  obtain ⟨kept, dropped, hsplits, hcut⟩ := cutBelow_slots block
    (later.flatMap LogGroup.records) group.slots index keep group.checkpoint.position
  have hleave : ∀ entry ∈ (dropped ++ later.flatMap LogGroup.entries).head?,
      block < entry.position.block := by
    intro entry hmem
    cases dropped with
    | cons first rest => exact hsplits.leave entry hmem
    | nil =>
      cases later with
      | nil => cases hmem
      | cons next rest =>
        rw [List.nil_append, List.flatMap_cons, LogGroup.entries_eq] at hmem
        cases hmem
        exact hlater next rfl
  refine ⟨kept, dropped ++ later.flatMap LogGroup.entries, hsplits.append hleave, fun hne => ?_⟩
  rw [behind, hcut]
  split
  · rename_i hnil
    cases later with
    | nil => exact absurd (by rw [hnil]; rfl) hne
    | cons next rest => exact cutBelow_group _ _ _ _ _ _ (hlater next rfl)
  · rfl

end LogStore

/-- A group cut behind some of what follows its first log. -/
def LogGroup.cut (group : LogGroup) (kept : Nat) : LogGroup :=
  { group with later := group.later.take kept }

namespace LogGroup

variable (group : LogGroup) {kept : Nat}

theorem size_cut (h : kept ≤ group.later.length) : (group.cut kept).size = kept + 3 := by
  simp only [size, cut, List.length_take, Nat.min_eq_left h]

theorem records_cut : (group.cut kept).records = group.records.take (kept + 3) := by
  simp only [records, cut, slots, List.map_cons, List.take_succ_cons, List.map_take]

theorem entries_cut :
    (group.cut kept).entries =
      LogRecord.places group.checkpoint.position
        (LogRecord.eventsOf (group.slots.take (kept + 1))) := rfl

end LogGroup

namespace LogStore

section Truncate

variable {store : LogStore} {logs : LogList} {groups : List LogGroup}

theorem filled_take (layout : Layout groups) {i : Nat} (hi : i < groups.length) :
    ∀ g ∈ groups.take i, g.size = checkpointSpacing := by
  intro g hg
  refine layout.filled g ?_
  rw [List.dropLast_eq_take]
  exact List.take_subset_take_left _ (Nat.le_sub_one_of_lt hi) hg

theorem length_take_groups (layout : Layout groups) {i : Nat} (hi : i < groups.length) :
    ((groups.take i).flatMap LogGroup.records).length = i * checkpointSpacing := by
  rw [Layout.length_filled (filled_take layout hi), List.length_take,
    Nat.min_eq_left (Nat.le_of_lt hi)]

theorem records_split {i : Nat} (hi : i < groups.length) :
    groups.flatMap LogGroup.records = (groups.take i).flatMap LogGroup.records ++
      (groups[i].records ++ (groups.drop (i + 1)).flatMap LogGroup.records) := by
  rw [← List.flatMap_cons, ← List.drop_eq_getElem_cons hi, ← List.flatMap_append,
    List.take_append_drop]

/-- The records up to the place of a checkpoint are the groups in front of it. -/
theorem take_groups (layout : Layout groups) {i : Nat} (hi : i < groups.length) :
    (groups.flatMap LogGroup.records).take (i * checkpointSpacing) =
      (groups.take i).flatMap LogGroup.records := by
  rw [records_split hi, ← length_take_groups layout hi, List.take_left]

/-- The records up to a place inside a group are the groups in front of it and its start. -/
theorem take_records (layout : Layout groups) {i : Nat} (hi : i < groups.length) {kept : Nat}
    (hkept : kept ≤ groups[i].later.length) :
    Layout (groups.take i ++ [groups[i].cut kept]) ∧
      (groups.flatMap LogGroup.records).take (i * checkpointSpacing + (kept + 3)) =
        (groups.take i ++ [groups[i].cut kept]).flatMap LogGroup.records := by
  have hsize : kept + 3 ≤ groups[i].size := by
    unfold LogGroup.size
    omega
  have hfits := layout.fits groups[i] (List.getElem_mem hi)
  constructor
  · refine Layout.snoc_iff.mpr ⟨filled_take layout hi, ?_⟩
    rw [LogGroup.size_cut _ hkept]
    exact Nat.le_trans hsize hfits
  · rw [records_split hi, ← length_take_groups layout hi, List.take_length_add_append,
      List.take_append_of_le_length (by rwa [LogGroup.length_records]),
      ← LogGroup.records_cut, List.flatMap_append, List.flatMap_singleton]

theorem toList_take (records : Array Record) (count : Nat) :
    (records.take count).toList = records.toList.take count := by
  rw [Array.take_eq_extract, Array.toList_extract, List.extract_eq_take_drop]
  rfl

/-- Groups that spell a first part of the list are what a store of this part consists of. -/
theorem represents_prefix (h : Represents store logs) {count : Nat} {dropped : LogList}
    (layout : Layout groups)
    (hrecords : store.records.toList.take count = groups.flatMap LogGroup.records)
    (hlogs : logs = groups.flatMap LogGroup.entries ++ dropped) :
    ∃ head, lastPosition (store.records.take count) = .ok head ∧
      Represents ⟨store.records.take count, head⟩ (groups.flatMap LogGroup.entries) := by
  have hordered : LogList.Ordered .origin (groups.flatMap LogGroup.entries) :=
    (LogList.ordered_append.mp (hlogs ▸ h.ordered)).1
  have hrecords : (store.records.take count).toList = groups.flatMap LogGroup.records :=
    (toList_take store.records count).trans hrecords
  exact ⟨_, lastPosition_eq layout hordered.sorted hrecords,
    hordered, ⟨groups, layout, hrecords, rfl⟩, rfl⟩

/-- A rewind to a block cuts the records in front of the first log that is dropped. -/
structure Cuts (store : LogStore) (logs : LogList) (block : UInt64) (count : Nat)
    (kept : List LogGroup) (dropped : LogList) : Prop where
  found : rewind.cut block store.records = .ok (some count)
  layout : Layout kept
  records : store.records.toList.take count = kept.flatMap LogGroup.records
  split : logs = kept.flatMap LogGroup.entries ++ dropped
  stay : ∀ entry ∈ kept.flatMap LogGroup.entries, entry.position.block ≤ block
  leave : ∀ entry ∈ dropped.head?, block < entry.position.block

/-- Without a checkpoint that stays, nothing does. -/
theorem cuts_all {block : UInt64} (hlogs : logs = groups.flatMap LogGroup.entries)
    (hfind : findCheckpoint store.records ⟨block + 1, 0⟩ = .ok none)
    (hfirst : ∀ first ∈ groups.head?, block < first.checkpoint.block) :
    Cuts store logs block 0 [] logs where
  found := by rw [rewind.cut, hfind]; rfl
  layout := .nil
  records := rfl
  split := rfl
  stay := by simp
  leave := by
    intro entry hmem
    cases groups with
    | nil => simp [hlogs] at hmem
    | cons first rest =>
      rw [hlogs, List.flatMap_cons, LogGroup.entries_eq] at hmem
      cases hmem
      exact hfirst first rfl

section Checkpoint

variable {block : UInt64} {i : Nat}

/-- The place of the cut is looked for behind the last checkpoint that stays. -/
theorem cut_scan (layout : Layout groups) (ascending : Ascending groups)
    (hrecords : store.records.toList = groups.flatMap LogGroup.records) (hi : i < groups.length)
    (hfind : findCheckpoint store.records ⟨block + 1, 0⟩ = .ok (some (i * checkpointSpacing))) :
    rewind.cut block store.records = .ok (cutBelow block (i * checkpointSpacing + 2)
      (i * checkpointSpacing) groups[i].checkpoint.position
      (behind groups[i] (groups.drop (i + 1)))) := by
  have hdrop := layout.drop_behind hi
  rw [← hrecords] at hdrop
  have hscan := scanAbove_eq block _ store.records.size (i * checkpointSpacing)
    ⟨i * checkpointSpacing + 2, groups[i].checkpoint.position, 0⟩ hdrop
    (length_behind_le layout hrecords hi) (readable_behind _ _)
  rw [rewind.cut, hfind, Outcome.ok_bind]
  simp only
  rw [scanFrom_eq layout ascending hrecords hi, Outcome.ok_bind]
  exact hscan

/-- The logs in front of the last checkpoint that stays all stay. The group of the checkpoint is cut
where its first log above the block comes. -/
theorem exists_cuts (h : Represents store logs) (hlt : block < store.head.block)
    (layout : Layout groups) (ascending : Ascending groups)
    (hrecords : store.records.toList = groups.flatMap LogGroup.records)
    (hlogs : logs = groups.flatMap LogGroup.entries) (hi : i < groups.length)
    (hfind : findCheckpoint store.records ⟨block + 1, 0⟩ = .ok (some (i * checkpointSpacing)))
    (hearlier : ∀ entry ∈ (groups.take i).flatMap LogGroup.entries,
      entry.position.block ≤ block)
    (hnext : ∀ next ∈ (groups.drop (i + 1)).head?, block < next.checkpoint.block) :
    ∃ count kept dropped, Cuts store logs block count kept dropped := by
  have hcut := cut_scan layout ascending hrecords hi hfind
  obtain ⟨kept, dropped, hsplits, hcutAt⟩ :=
    cutBelow_behind block (i * checkpointSpacing + 2) (i * checkpointSpacing) groups[i]
      (groups.drop (i + 1)) hnext
  have hsplit : logs = (groups.take i).flatMap LogGroup.entries ++ (LogRecord.places
      groups[i].checkpoint.position (LogRecord.eventsOf (groups[i].slots.take kept)) ++
        dropped) := by
    rw [hlogs, ← hsplits.split, ← List.drop_eq_getElem_cons hi, ← List.flatMap_append,
      List.take_append_drop]
  -- the last log lies above the block, so some log is dropped
  have hdropped : dropped ≠ [] := by
    rintro rfl
    have hall : ∀ entry ∈ logs, entry.position.block ≤ block := by
      intro entry hmem
      rw [hsplit, List.append_nil] at hmem
      exact (List.mem_append.mp hmem).elim (hearlier entry) (hsplits.stay entry)
    exact UInt64.not_lt.mpr (LogList.head_block_le hall) (h.head_eq ▸ hlt)
  rw [hcutAt hdropped] at hcut
  cases kept with
  | zero =>
    exact ⟨_, groups.take i, dropped, hcut, layout.take i,
      by rw [hrecords]; exact take_groups layout hi, hsplit, hearlier, hsplits.leave⟩
  | succ kept =>
    have hroom : kept ≤ groups[i].later.length := by simpa [LogGroup.slots] using hsplits.inside
    obtain ⟨hlayout, htake⟩ := take_records layout hi hroom
    rw [cutAt, if_neg (Nat.succ_ne_zero kept), Nat.add_assoc, Nat.add_comm 2, Nat.add_assoc] at hcut
    refine ⟨_, _, dropped, hcut, hlayout, by rw [hrecords, htake], ?_, ?_, hsplits.leave⟩
    · rw [hsplit, List.flatMap_append, List.flatMap_singleton, LogGroup.entries_cut,
        List.append_assoc]
    · intro entry hmem
      rw [List.flatMap_append, List.flatMap_singleton, LogGroup.entries_cut] at hmem
      exact (List.mem_append.mp hmem).elim (hearlier entry) (hsplits.stay entry)

end Checkpoint

/-- A rewind to a block below the last log finds its cut. -/
theorem Represents.cuts (h : Represents store logs) {block : UInt64}
    (hlt : block < store.head.block) :
    ∃ count kept dropped, Cuts store logs block count kept dropped := by
  obtain ⟨groups, layout, hrecords, hlogs⟩ := h.laid
  have ascending := h.ascending hlogs
  obtain ⟨count, hcount, hfind, hbelow, habove⟩ :=
    (indexed layout ascending hrecords).findCheckpoint_eq ⟨block + 1, 0⟩
  simp only [List.length_map, List.getElem_map] at hcount hbelow habove
  -- the group from `count` on starts in a block that is dropped
  have hlater : ∀ next ∈ (groups.drop count).head?, block < next.checkpoint.block := by
    intro next hmem
    rw [List.head?_drop] at hmem
    obtain ⟨hi, rfl⟩ := List.getElem?_eq_some_iff.mp hmem
    have hnot : ¬groups[count].checkpoint.position < ⟨block + 1, 0⟩ :=
      Position.lt_asymm (habove count hi (Nat.le_refl _))
    exact UInt64.not_le.mp fun hle => hnot ((Position.lt_block_iff hlt).mpr hle)
  cases count with
  | zero => exact ⟨0, [], logs, cuts_all hlogs hfind hlater⟩
  | succ i =>
    have hstart : ¬(⟨block + 1, 0⟩ : Position) < groups[i].checkpoint.position :=
      hbelow i hcount (Nat.lt_succ_self i)
    have hearlier : ∀ entry ∈ (groups.take i).flatMap LogGroup.entries,
        entry.position.block ≤ block := fun entry hmem =>
      (Position.lt_block_iff hlt).mp
        (Position.lt_of_lt_of_le ((below_checkpoint ascending hcount).1 entry hmem) hstart)
    exact exists_cuts h hlt layout ascending hrecords hlogs hcount hfind hearlier hlater

/-- A rewind keeps exactly the logs of the list whose block is at most the number. -/
theorem represents_rewind (h : Represents store logs) (block : UInt64) :
    ∃ dropped kept, store.rewind block = (.ok dropped, kept) ∧
      Represents kept (logs.rewind block) := by
  by_cases hle : store.head.block ≤ block
  · refine ⟨false, store, by rw [rewind, if_pos hle], ?_⟩
    rwa [LogList.rewind_of_head_le h.ordered (h.head_eq ▸ hle)]
  · obtain ⟨count, groups, dropped, hcuts⟩ := h.cuts (UInt64.not_le.mp hle)
    obtain ⟨head, hhead, hrep⟩ := represents_prefix h hcuts.layout hcuts.records hcuts.split
    have hsorted := h.ordered.sorted
    rw [hcuts.split] at hsorted
    refine ⟨true, ⟨store.records.take count, head⟩, ?_, ?_⟩
    · rw [rewind, if_neg hle, hcuts.found]
      simp only [hhead]
    · rwa [hcuts.split, LogList.rewind_of_split hsorted hcuts.stay hcuts.leave]

/-- A store whose logs lie in blocks up to a number is left as it is by a rewind to the number. -/
theorem rewind_noop (h : Represents store logs) {block : UInt64}
    (hall : ∀ entry ∈ logs, entry.position.block ≤ block) :
    store.rewind block = (.ok false, store) := by
  have hle := LogList.head_block_le hall
  rw [rewind, if_pos (h.head_eq ▸ hle)]

end Truncate

end LogStore

end CrossSafety
