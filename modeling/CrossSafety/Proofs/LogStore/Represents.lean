import CrossSafety.Proofs.LogStore.Layout
import CrossSafety.Proofs.LogStore.LogList

/-!
# What a log store stands for

`Represents` joins the three views of a log store: the groups its records lie in, the plain list
of its logs and the position of its head. From it follow the answers of the store: a lookup finds
exactly the logs of the list, and reading the records again gives the store back.
-/
namespace CrossSafety.LogStore

/-- The records lie in groups that spell the list, and the head is its last position. -/
structure Represents (store : LogStore) (logs : LogList) : Prop where
  ordered : logs.Ordered .origin
  laid : ∃ groups, Layout groups ∧ store.records.toList = groups.flatMap LogGroup.records ∧
    logs = groups.flatMap LogGroup.entries
  head_eq : store.head = logs.head

theorem represents_empty : Represents empty [] := ⟨trivial, ⟨[], .nil, rfl, rfl⟩, rfl⟩

section Groups

variable {records : Array Record} {groups : List LogGroup}

/-- Positions go up in a list of groups and in each of them. -/
abbrev Ascending (groups : List LogGroup) : Prop :=
  (groups.flatMap LogGroup.entries).Pairwise fun a b => a.position < b.position

theorem recordAt_of_drop {i : Nat} {record : Record} {rest : List Record}
    (h : records.toList.drop i = record :: rest) : recordAt records i = .ok record := by
  rw [recordAt, getElem?_of_drop h]

theorem recordAt_eq_ok {i : Nat} {record : Record} :
    recordAt records i = .ok record ↔ records[i]? = some record := by
  rw [recordAt]
  split <;> simp_all

theorem recordAt_of_initial {first second : Array Record} {i : Nat}
    (hinitial : first.toList <+: second.toList) (hi : i < first.size) :
    recordAt second i = recordAt first i := by
  have hlength : i < first.toList.length := by rwa [Array.length_toList]
  have hsame := List.prefix_iff_getElem?.mp hinitial i hlength
  rw [recordAt, recordAt, ← Array.getElem?_toList, ← Array.getElem?_toList, hsame,
    List.getElem?_eq_getElem hlength]

/-- What is read from a first part of the records is read from all of them. -/
theorem read_of_initial {first second : Array Record} {i : Nat}
    (hinitial : first.toList <+: second.toList) {α : Type}
    {decode : Record → Except StorageError α} {content : α}
    (h : (recordAt first i >>= decode) = .ok content) :
    (recordAt second i >>= decode) = .ok content := by
  by_cases hi : i < first.size
  · rw [recordAt_of_initial hinitial hi, h]
  · rw [recordAt, Array.getElem?_eq_none (Nat.not_lt.mp hi)] at h
    cases h

theorem first_mem_entries (group : LogGroup) :
    ⟨group.checkpoint.position, group.firstHash⟩ ∈ group.entries := by
  rw [LogGroup.entries_eq]; exact List.mem_cons_self

theorem length_groups (layout : Layout groups)
    (hrecords : records.toList = groups.flatMap LogGroup.records) :
    groups.length = (records.size + 255) / checkpointSpacing := by
  rw [← Array.length_toList, hrecords]
  rcases List.eq_nil_or_concat groups with rfl | ⟨init, last, rfl⟩
  · rfl
  · rw [List.concat_eq_append] at layout ⊢
    have hfits := (Layout.snoc_iff.mp layout).2
    rw [layout.length_snoc, List.length_append, List.length_singleton]
    rw [LogGroup.size, checkpointSpacing] at *
    omega

theorem indexed (layout : Layout groups) (ascending : Ascending groups)
    (hrecords : records.toList = groups.flatMap LogGroup.records) :
    Indexed records (groups.map LogGroup.checkpoint) where
  length_eq := by rw [List.length_map]; exact length_groups layout hrecords
  decoded := by
    intro i hi
    have hi' : i < groups.length := by rwa [List.length_map] at hi
    have hdrop := layout.drop_checkpoint hi'
    rw [← hrecords] at hdrop
    rw [checkpointAt, recordAt_of_drop hdrop, Outcome.ok_bind, Checkpoint.decode_encode,
      List.getElem_map]
  sorted := by
    refine List.pairwise_map.mpr ((List.pairwise_flatMap.mp ascending).2.imp fun {a b} h => ?_)
    exact h ⟨a.checkpoint.position, a.firstHash⟩ (first_mem_entries a)
      ⟨b.checkpoint.position, b.firstHash⟩ (first_mem_entries b)

theorem scanFrom_eq (layout : Layout groups) (ascending : Ascending groups)
    (hrecords : records.toList = groups.flatMap LogGroup.records) {i : Nat}
    (hi : i < groups.length) :
    scanFrom records (i * checkpointSpacing) =
      .ok ⟨i * checkpointSpacing + 2, groups[i].checkpoint.position, 0⟩ := by
  have h := (indexed layout ascending hrecords).decoded i (by simpa using hi)
  rw [scanFrom, h, Outcome.ok_bind, List.getElem_map]
  rfl

theorem length_behind_le (layout : Layout groups)
    (hrecords : records.toList = groups.flatMap LogGroup.records) {i : Nat}
    (hi : i < groups.length) :
    (behind groups[i] (groups.drop (i + 1))).length ≤ records.size := by
  rw [← layout.drop_behind hi, List.length_drop, ← hrecords, Array.length_toList]
  exact Nat.sub_le _ _

/-- Every log from a group on lies at its checkpoint or above, every earlier log below it. -/
theorem below_checkpoint (ascending : Ascending groups) {i : Nat} (hi : i < groups.length) :
    (∀ entry ∈ (groups.take i).flatMap LogGroup.entries,
      entry.position < groups[i].checkpoint.position) ∧
    ∀ entry ∈ (groups.drop i).flatMap LogGroup.entries,
      ¬entry.position < groups[i].checkpoint.position := by
  have hsplit : groups.flatMap LogGroup.entries = (groups.take i).flatMap LogGroup.entries ++
      (groups.drop i).flatMap LogGroup.entries := by
    rw [← List.flatMap_append, List.take_append_drop]
  have hdrop := List.drop_eq_getElem_cons hi
  unfold Ascending at ascending
  rw [hsplit, List.pairwise_append] at ascending
  obtain ⟨-, hlater, hacross⟩ := ascending
  constructor
  · intro entry hmem
    refine hacross entry hmem ⟨groups[i].checkpoint.position, groups[i].firstHash⟩ ?_
    rw [hdrop, List.flatMap_cons]
    exact List.mem_append_left _ (first_mem_entries _)
  · intro entry hmem
    rw [hdrop, List.flatMap_cons, LogGroup.entries_eq, List.cons_append] at hlater hmem
    rcases List.mem_cons.mp hmem with rfl | hmem
    · exact Position.lt_irrefl _
    · exact Position.lt_asymm ((List.pairwise_cons.mp hlater).1 entry hmem)

theorem head_snoc (init : List LogGroup) (last : LogGroup) :
    LogList.head ((init ++ [last]).flatMap LogGroup.entries) = last.last := by
  rw [List.flatMap_append, LogList.head, LogList.endFrom_append]
  simp only [List.flatMap_cons, List.flatMap_nil, List.append_nil]
  rw [LogGroup.entries_eq, LogList.endFrom_cons, LogRecord.endFrom_places]
  rfl

/-- Reading from the last checkpoint to the end gives the position of the last log. -/
theorem lastPosition_eq (layout : Layout groups) (ascending : Ascending groups)
    (hrecords : records.toList = groups.flatMap LogGroup.records) :
    lastPosition records = .ok (LogList.head (groups.flatMap LogGroup.entries)) := by
  have hlength := length_groups layout hrecords
  rcases List.eq_nil_or_concat groups with rfl | ⟨init, last, rfl⟩
  · have hsize : records.size = 0 := by rw [← Array.length_toList, hrecords]; rfl
    rw [lastPosition, if_pos hsize]
    rfl
  · rw [List.concat_eq_append] at *
    rw [List.length_append, List.length_singleton] at hlength
    have hsize : records.size ≠ 0 := by
      rw [checkpointSpacing] at hlength
      omega
    have hslot : (records.size - 1) / checkpointSpacing = init.length := by
      rw [checkpointSpacing] at *
      omega
    have hi : init.length < (init ++ [last]).length := by simp
    have hget : (init ++ [last])[init.length] = last := by simp
    have hlater : (init ++ [last]).drop (init.length + 1) = [] := by simp
    have hdrop := layout.drop_behind hi
    rw [← hrecords] at hdrop
    have hend := scanToEnd_eq _ records.size ⟨_, last.checkpoint.position, 0⟩ hdrop
      (length_behind_le layout hrecords hi) (readable_behind _ _)
    rw [lastPosition, if_neg hsize]
    simp only [hslot]
    rw [scanFrom_eq layout ascending hrecords hi, Outcome.ok_bind, hget, hend, hget, hlater,
      endOf_behind, head_snoc]

end Groups

namespace Represents

variable {store : LogStore} {logs : LogList}

theorem ascending (h : Represents store logs) {groups : List LogGroup}
    (hlogs : logs = groups.flatMap LogGroup.entries) : Ascending groups := by
  unfold Ascending
  rw [← hlogs]
  exact h.ordered.sorted

/-- A lookup finds exactly the logs of the list. -/
theorem contains_eq (h : Represents store logs) (target : Position) (hash : Hash) :
    store.contains target hash = .ok (decide (⟨target, hash.short⟩ ∈ logs)) := by
  obtain ⟨groups, layout, hrecords, hlogs⟩ := h.laid
  have ascending := h.ascending hlogs
  obtain ⟨count, hcount, hfind, hbelow, habove⟩ :=
    (indexed layout ascending hrecords).findCheckpoint_eq target
  simp only [List.length_map, List.getElem_map] at hcount hbelow habove
  cases count with
  | zero =>
    have hnot : (⟨target, hash.short⟩ : LogEntry) ∉ logs := by
      intro hmem
      cases groups with
      | nil => simp [hlogs] at hmem
      | cons first rest =>
        have hle := (below_checkpoint ascending (Nat.zero_lt_succ _)).2 ⟨target, hash.short⟩ (by
          rw [List.drop_zero, ← hlogs]; exact hmem)
        exact hle (habove 0 (Nat.zero_lt_succ _) (Nat.le_refl _))
    rw [contains, search, hfind]
    simp [hnot]
  | succ i =>
    have hi : i < groups.length := hcount
    have hstart : ¬target < groups[i].checkpoint.position := hbelow i hi (Nat.lt_succ_self i)
    have hdrop := layout.drop_behind hi
    rw [← hrecords] at hdrop
    have hscan := scanUntil_found target hash.short _ store.records.size
      ⟨_, groups[i].checkpoint.position, 0⟩ hdrop (length_behind_le layout hrecords hi)
      (readable_behind _ _)
    have hentries : logsIn groups[i].checkpoint.position (behind groups[i] (groups.drop (i + 1))) =
        (groups.drop i).flatMap LogGroup.entries := by
      rw [logsIn_behind, ← List.drop_eq_getElem_cons hi]
    have hsplit : logs = (groups.take i).flatMap LogGroup.entries ++
        (groups.drop i).flatMap LogGroup.entries := by
      rw [hlogs, ← List.flatMap_append, List.take_append_drop]
    have hsorted := h.ordered.sorted
    rw [hsplit, List.pairwise_append] at hsorted
    have hearlier : (⟨target, hash.short⟩ : LogEntry) ∉ (groups.take i).flatMap LogGroup.entries :=
      fun hmem => hstart ((below_checkpoint ascending hi).1 ⟨target, hash.short⟩ hmem)
    rw [contains, search, hfind]
    simp only [Nat.add_one_ne_zero, if_false, Nat.add_sub_cancel]
    rw [scanFrom_eq layout ascending hrecords hi]
    simp only
    rw [hscan, hentries, foundIn_eq hsorted.2.1, hsplit]
    simp only [List.mem_append, hearlier, false_or]

theorem latest_eq (h : Represents store logs) : store.latest = logs.latest := by
  obtain ⟨groups, layout, hrecords, hlogs⟩ := h.laid
  have hempty : store.count = 0 ↔ logs = [] := by
    rw [count, ← Array.length_toList, hrecords, List.length_eq_zero_iff, hlogs]
    cases groups with
    | nil => simp
    | cons first rest => simp [LogGroup.records, LogGroup.entries_eq]
  rw [latest, LogList.latest_eq, h.head_eq]
  by_cases he : logs = []
  · rw [if_pos (hempty.mpr he), if_pos he]
  · rw [if_neg (fun hc => he (hempty.mp hc)), if_neg he]

theorem load_records (h : Represents store logs) : load store.records = .ok store := by
  obtain ⟨groups, layout, hrecords, hlogs⟩ := h.laid
  rw [load, lastPosition_eq layout (h.ascending hlogs) hrecords, Outcome.ok_bind, ← hlogs,
    ← h.head_eq]
  rfl

end Represents

end CrossSafety.LogStore
