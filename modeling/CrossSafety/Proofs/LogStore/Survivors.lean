import CrossSafety.Proofs.LogStore.Cut

/-!
# The logs that survive a cut

`survivors` are the logs whose own record lies in front of a cut through the file. Wherever the cut
falls, what is left opens, and its lookups find exactly these logs. If the whole records do not end
with a checkpoint or its hash, what is left is a log store of the survivors in every respect.
Otherwise the last log is said to be the one that was to follow, and `load_take_checkpoint` says
which one this is.
-/
namespace CrossSafety

namespace LogStore

/-- The logs that records spell, each with the index of its record. -/
def logPlaces : Nat → Position → List Record → List (Nat × LogEntry)
  | _, _, [] => []
  | index, current, record :: rest =>
    match record.kind with
    | .ok .checkpoint => logPlaces (index + 1) (Checkpoint.ofRecord record).position rest
    | .ok .logRecord =>
      let event := LogRecord.ofRecord record
      (index, ⟨event.apply current, event.hash⟩) ::
        logPlaces (index + 1) (event.apply current) rest
    | _ => logPlaces (index + 1) current rest

/-- The logs whose record lies within the first bytes of a file. -/
def survivors (records : List Record) (length : Nat) : LogList :=
  ((logPlaces 0 .origin records).filter fun place => (place.1 + 1) * 24 ≤ length).map Prod.snd

section Places

theorem map_logPlaces (index : Nat) (current : Position) (records : List Record) :
    (logPlaces index current records).map Prod.snd = logsIn current records := by
  induction records generalizing index current with
  | nil => rfl
  | cons record rest ih =>
    rw [logPlaces, logsIn]
    split <;> simp_all

theorem le_of_mem_logPlaces {index : Nat} {current : Position} {records : List Record} :
    ∀ place ∈ logPlaces index current records, index ≤ place.1 := by
  induction records generalizing index current with
  | nil => simp [logPlaces]
  | cons record rest ih =>
    intro place hmem
    rw [logPlaces] at hmem
    split at hmem
    · exact Nat.le_of_succ_le (ih place hmem)
    · rcases List.mem_cons.mp hmem with rfl | hmem
      · exact Nat.le_refl _
      · exact Nat.le_of_succ_le (ih place hmem)
    · exact Nat.le_of_succ_le (ih place hmem)

/-- The logs in front of an index are those that the records in front of it spell. -/
theorem filter_logPlaces (index count : Nat) (current : Position) (records : List Record) :
    ((logPlaces index current records).filter fun place => place.1 < index + count).map Prod.snd =
      logsIn current (records.take count) := by
  induction count generalizing index current records with
  | zero =>
    rw [List.take_zero, logsIn, List.map_eq_nil_iff, List.filter_eq_nil_iff]
    intro place hmem
    have hle := le_of_mem_logPlaces place hmem
    simpa using hle
  | succ count ih =>
    cases records with
    | nil => rfl
    | cons record rest =>
      have hcount : index + (count + 1) = index + 1 + count := by omega
      have hfirst : index < index + 1 + count := by omega
      rw [hcount, List.take_succ_cons, logPlaces, logsIn]
      split <;> simp_all

theorem survivors_eq (records : List Record) (length : Nat) :
    survivors records length = logsIn .origin (records.take (length / 24)) := by
  rw [← filter_logPlaces 0, survivors]
  refine congrArg (List.map Prod.snd) (List.filter_congr fun place _ => ?_)
  exact decide_eq_decide.mpr (by omega)

theorem logsIn_append (current : Position) (first second : List Record) :
    logsIn current (first ++ second) =
      logsIn current first ++ logsIn (endOf current first) second := by
  induction first generalizing current with
  | nil => rfl
  | cons record rest ih =>
    rw [List.cons_append, logsIn, logsIn, endOf]
    split <;> simp_all

end Places

section Take

variable {store : LogStore} {logs : LogList} {groups : List LogGroup} {count : Nat}

theorem Represents.logsIn_eq (h : Represents store logs) :
    logsIn .origin store.records.toList = logs := by
  obtain ⟨groups, -, hrecords, hlogs⟩ := h.laid
  rw [hrecords, logsIn_groups, hlogs]

theorem size_take (records : Array Record) (count : Nat) :
    (records.take count).size = min count records.size := by
  rw [Array.take_eq_extract, Array.size_extract, Nat.sub_zero]

theorem checkpointAt_take {records : Array Record} {i : Nat} {checkpoint : Checkpoint}
    (hi : i < count) (h : checkpointAt records i = .ok checkpoint) :
    checkpointAt (records.take count) i = .ok checkpoint := by
  rw [checkpointAt] at h ⊢
  obtain ⟨record, hrecord, h⟩ := Outcome.bind_eq_ok.mp h
  have hsame : recordAt (records.take count) i = .ok record := by
    rw [recordAt_eq_ok] at hrecord ⊢
    rwa [← Array.getElem?_toList, toList_take, List.getElem?_take_of_lt hi, Array.getElem?_toList]
  rw [hsame, Outcome.ok_bind]
  exact h

/-- The checkpoints in front of a cut are still found. -/
theorem indexed_take {records : Array Record} {checkpoints : List Checkpoint}
    (h : Indexed records checkpoints) :
    Indexed (records.take count) (checkpoints.take ((count + 255) / checkpointSpacing)) where
  length_eq := by
    rw [List.length_take, h.length_eq, size_take, checkpointSpacing]
    omega
  decoded := by
    intro i hi
    rw [List.length_take] at hi
    rw [List.getElem_take]
    refine checkpointAt_take ?_ (h.decoded i (by omega))
    rw [checkpointSpacing] at hi ⊢
    omega
  sorted := h.sorted.sublist (List.take_sublist _ _)

theorem drop_take_behind (layout : Layout groups)
    (hrecords : store.records.toList = groups.flatMap LogGroup.records) {i : Nat}
    (hi : i < groups.length) (count : Nat) :
    (store.records.take count).toList.drop (i * checkpointSpacing + 2) =
      (behind groups[i] (groups.drop (i + 1))).take (count - (i * checkpointSpacing + 2)) := by
  rw [toList_take, hrecords, List.drop_take, layout.drop_behind hi]

theorem scanFrom_take (h : Represents store logs) (layout : Layout groups)
    (hrecords : store.records.toList = groups.flatMap LogGroup.records)
    (hlogs : logs = groups.flatMap LogGroup.entries) {i : Nat} (hi : i < groups.length)
    (hcount : i * checkpointSpacing < count) :
    scanFrom (store.records.take count) (i * checkpointSpacing) =
      .ok ⟨i * checkpointSpacing + 2, groups[i].checkpoint.position, 0⟩ := by
  have hread := (indexed layout (h.ascending hlogs) hrecords).decoded i (by simpa using hi)
  rw [scanFrom, checkpointAt_take hcount hread, Outcome.ok_bind, List.getElem_map]
  rfl

theorem readable_take_behind (group : LogGroup) (later : List LogGroup) (count : Nat) :
    Readable ((behind group later).take count) :=
  fun record hmem => readable_behind group later record (List.mem_of_mem_take hmem)

/-- The last log of what is left is looked for behind the last checkpoint that is left. -/
theorem lastPosition_take (h : Represents store logs) (layout : Layout groups)
    (hrecords : store.records.toList = groups.flatMap LogGroup.records)
    (hlogs : logs = groups.flatMap LogGroup.entries) {i place : Nat} (hi : i < groups.length)
    (hcount : count = i * checkpointSpacing + (place + 1)) (hplace : place < checkpointSpacing)
    (hsize : count ≤ store.records.size) :
    lastPosition (store.records.take count) = .ok (endOf groups[i].checkpoint.position
      ((behind groups[i] (groups.drop (i + 1))).take (place - 1))) := by
  have htake : (store.records.take count).size = count := by
    rw [size_take, Nat.min_eq_left hsize]
  have hslot : (count - 1) / checkpointSpacing = i := by
    rw [checkpointSpacing] at *
    omega
  have hdrop := drop_take_behind layout hrecords hi count
  have hinside : count - (i * checkpointSpacing + 2) = place - 1 := by omega
  rw [hinside] at hdrop
  rw [lastPosition, htake, if_neg (by omega)]
  simp only [hslot]
  rw [scanFrom_take h layout hrecords hlogs hi (by omega), Outcome.ok_bind]
  refine scanToEnd_eq _ _ _ hdrop ?_ (readable_take_behind _ _ _)
  rw [← hdrop, List.length_drop, Array.length_toList, htake]
  exact Nat.sub_le _ _

/-- A first part of the records always opens. -/
theorem Represents.load_take (h : Represents store logs) (count : Nat) :
    ∃ head, load (store.records.take count) = .ok ⟨store.records.take count, head⟩ := by
  obtain ⟨groups, layout, hrecords, hlogs⟩ := h.laid
  by_cases hsize : count ≤ store.records.size
  · cases count with
    | zero => exact ⟨.origin, by rw [load, lastPosition, if_pos (by simp)]; rfl⟩
    | succ last =>
      have hlt : last < (groups.flatMap LogGroup.records).length := by
        rwa [← hrecords, Array.length_toList]
      obtain ⟨i, hi, hlast, -⟩ := layout.place hlt
      have hhead := lastPosition_take h layout hrecords hlogs hi
        (by omega : last + 1 = i * checkpointSpacing + (last % checkpointSpacing + 1))
        (Nat.mod_lt _ (by decide)) hsize
      exact ⟨_, by rw [load, hhead]; rfl⟩
  · have htake : store.records.take count = store.records := by
      rw [Array.take_eq_extract]
      exact Array.extract_eq_self_of_le (Nat.le_of_not_le hsize)
    exact ⟨store.head, by rw [htake, h.load_records]⟩

/-- The logs of a first part of the records are those of the groups in front of a checkpoint and
those that are read behind it. -/
theorem logsIn_take (layout : Layout groups)
    (hrecords : store.records.toList = groups.flatMap LogGroup.records) {i : Nat}
    (hi : i < groups.length) (hcount : i * checkpointSpacing < count) :
    logsIn .origin (store.records.toList.take count) =
      (groups.take i).flatMap LogGroup.entries ++ logsIn groups[i].checkpoint.position
        ((behind groups[i] (groups.drop (i + 1))).take (count - (i * checkpointSpacing + 2))) := by
  obtain ⟨place, rfl⟩ := Nat.exists_eq_add_of_lt hcount
  rw [hrecords, Nat.add_assoc, List.take_add, take_groups layout hi, layout.drop_checkpoint hi,
    logsIn_append, logsIn_groups, List.take_succ_cons, logsIn]
  simp only [Checkpoint.kind_encode, Checkpoint.ofRecord_encode]
  cases place with
  | zero =>
    rw [Nat.sub_eq_zero_of_le (by omega)]
    rfl
  | succ place =>
    have hinside : i * checkpointSpacing + (place + 1 + 1) - (i * checkpointSpacing + 2) = place := by
      omega
    rw [hinside, List.take_succ_cons, logsIn]
    simp only [ShortHash.kind_encode]

/-- The logs that a first part of the records spells come first in the list. -/
theorem Represents.split_take (h : Represents store logs) (count : Nat) :
    logs = logsIn .origin (store.records.toList.take count) ++
      logsIn (endOf .origin (store.records.toList.take count)) (store.records.toList.drop count) := by
  rw [← logsIn_append, List.take_append_drop, h.logsIn_eq]

/-- No log lies in front of the first checkpoint. -/
theorem Represents.not_mem_take (h : Represents store logs)
    (hlogs : logs = groups.flatMap LogGroup.entries) {entry : LogEntry}
    (hbelow : ∀ hgroups : 0 < groups.length, 0 < count →
      entry.position < groups[0].checkpoint.position) :
    entry ∉ logsIn .origin (store.records.toList.take count) := by
  intro hmem
  have hlog : entry ∈ groups.flatMap LogGroup.entries := by
    rw [← hlogs, h.split_take count]
    exact List.mem_append_left _ hmem
  have hgroups : 0 < groups.length := by
    refine List.length_pos_iff.mpr ?_
    rintro rfl
    cases hlog
  have hcount : 0 < count := by
    refine Nat.pos_of_ne_zero ?_
    rintro rfl
    cases hmem
  exact (below_checkpoint (h.ascending hlogs) hgroups).2 entry hlog (hbelow hgroups hcount)

/-- A lookup in a first part of the records finds exactly the logs that these records spell. -/
theorem Represents.contains_take (h : Represents store logs) (count : Nat) (head target : Position)
    (hash : Hash) :
    contains ⟨store.records.take count, head⟩ target hash =
      .ok (decide (⟨target, hash.short⟩ ∈ logsIn .origin (store.records.toList.take count))) := by
  obtain ⟨groups, layout, hrecords, hlogs⟩ := h.laid
  have ascending := h.ascending hlogs
  obtain ⟨found, hfound, hfind, hbelow, habove⟩ :=
    (indexed_take (indexed layout ascending hrecords)).findCheckpoint_eq target
  simp only [List.length_take, List.length_map, List.getElem_take, List.getElem_map]
    at hfound hbelow habove
  have hspacing : checkpointSpacing = 256 := rfl
  rw [contains, search, hfind]
  cases found with
  | zero =>
    have hnot : (⟨target, hash.short⟩ : LogEntry) ∉
        logsIn .origin (store.records.toList.take count) :=
      h.not_mem_take hlogs fun hgroups hcount =>
        habove 0 (by rw [hspacing]; omega) (Nat.le_refl _)
    simp [hnot]
  | succ i =>
    have hi : i < groups.length := by omega
    have hcount : i * checkpointSpacing < count := by
      rw [hspacing] at hfound ⊢
      omega
    have hstart : ¬target < groups[i].checkpoint.position := hbelow i (by omega) (Nat.lt_succ_self i)
    have hdrop := drop_take_behind layout hrecords hi count
    have hlength : ((behind groups[i] (groups.drop (i + 1))).take
        (count - (i * checkpointSpacing + 2))).length ≤ (store.records.take count).size := by
      rw [← hdrop, List.length_drop, Array.length_toList]
      exact Nat.sub_le _ _
    have hscan := scanUntil_found target hash.short _ (store.records.take count).size
      ⟨_, groups[i].checkpoint.position, 0⟩ hdrop hlength (readable_take_behind _ _ _)
    have hleft := logsIn_take layout hrecords hi hcount
    have hsorted := h.ordered.sorted
    rw [h.split_take count, hleft] at hsorted
    have hearlier : (⟨target, hash.short⟩ : LogEntry) ∉ (groups.take i).flatMap LogGroup.entries :=
      fun hmem => hstart ((below_checkpoint ascending hi).1 ⟨target, hash.short⟩ hmem)
    simp only [Nat.add_one_ne_zero, if_false, Nat.add_sub_cancel]
    rw [scanFrom_take h layout hrecords hlogs hi hcount]
    simp only
    rw [hscan, foundIn_eq (List.pairwise_append.mp (List.pairwise_append.mp hsorted).1).2.1, hleft]
    simp only [List.mem_append, hearlier, false_or]

/-- Records that end with a checkpoint or its hash give the position of the first log that is lost as
that of the last log. -/
theorem Represents.load_take_checkpoint (h : Represents store logs)
    (hsize : count ≤ store.records.size)
    (hcut : count % checkpointSpacing = 1 ∨ count % checkpointSpacing = 2) :
    ∃ lost, logs[(logsIn .origin (store.records.toList.take count)).length]? = some lost ∧
      load (store.records.take count) = .ok ⟨store.records.take count, lost.position⟩ := by
  obtain ⟨groups, layout, hrecords, hlogs⟩ := h.laid
  have hspacing : checkpointSpacing = 256 := rfl
  obtain ⟨last, rfl⟩ : ∃ last, count = last + 1 :=
    Nat.exists_eq_succ_of_ne_zero (by rintro rfl; simp at hcut)
  obtain ⟨i, hi, hlast, -⟩ := layout.place (by rwa [← hrecords, Array.length_toList])
  obtain ⟨hplace, hinside⟩ : last % checkpointSpacing - 1 = 0 ∧
      last + 1 - (i * checkpointSpacing + 2) = 0 := by
    rw [hspacing] at *
    omega
  have hhead := lastPosition_take h layout hrecords hlogs hi
    (by omega : last + 1 = i * checkpointSpacing + (last % checkpointSpacing + 1))
    (Nat.mod_lt _ (by decide)) hsize
  have hleft := logsIn_take layout hrecords hi (by omega : i * checkpointSpacing < last + 1)
  rw [hplace, List.take_zero, endOf] at hhead
  rw [hinside, List.take_zero, logsIn, List.append_nil] at hleft
  refine ⟨⟨groups[i].checkpoint.position, groups[i].firstHash⟩, ?_, by rw [load, hhead]; rfl⟩
  have hsplit : logs = (groups.take i).flatMap LogGroup.entries ++
      (groups.drop i).flatMap LogGroup.entries := by
    rw [hlogs, ← List.flatMap_append, List.take_append_drop]
  rw [hleft, hsplit, List.getElem?_append_right (Nat.le_refl _), Nat.sub_self,
    List.drop_eq_getElem_cons hi, List.flatMap_cons, LogGroup.entries_eq]
  rfl

end Take

end LogStore

namespace LogFile

open LogStore

theorem reopen_replace (file : LogFile) {bytes : Bytes} {store : LogStore}
    (h : openFile bytes = .ok store) :
    (file.replace (some bytes)).reopen.1 = .ok () ∧
      (file.replace (some bytes)).reopen.2.store = some store := by
  have hcontent : ((file.replace (some bytes)).content).getD [] = bytes := rfl
  rw [reopen, hcontent, h]
  exact ⟨rfl, rfl⟩

theorem contains_of_store {file : LogFile} {store : LogStore} (h : file.store = some store)
    (target : Position) (hash : Hash) :
    (file.contains target hash).1 = some (store.contains target hash) := by
  obtain ⟨closed, _, observed⟩ := file
  cases h
  rfl

/-- After any requests to a new file, the file may be cut at any byte: it opens, and lookups find the
logs whose record lies in front of the cut. Unless the whole records end with a checkpoint or its
hash, the file stands for these logs from then on, also through later requests. -/
theorem survivors_run (requests : List Request) (length : Nat) :
    ∃ store, (empty.reopen.2.run requests).store = some store ∧
      (logPlaces 0 .origin store.records.toList).map Prod.snd = LogList.run [] requests ∧
      let left := survivors store.records.toList length
      let torn := ((empty.reopen.2.run requests).replace (some (store.bytes.take length))).reopen
      torn.1 = .ok () ∧
        (∀ target hash, (torn.2.contains target hash).1 =
          some (.ok (decide (⟨target, hash.short⟩ ∈ left)))) ∧
        (length / 24 % checkpointSpacing ≠ 1 → length / 24 % checkpointSpacing ≠ 2 →
          ∀ later, Answers (torn.2.run later) (left.run later)) := by
  obtain ⟨store, hstore, hrep⟩ := holds_run holds_empty requests
  obtain ⟨head, hload⟩ := hrep.load_take (length / 24)
  have hopen := openFile_take_bytes length hload
  obtain ⟨hreopen, htorn⟩ := reopen_replace (empty.reopen.2.run requests) hopen
  refine ⟨store, hstore, by rw [map_logPlaces, hrep.logsIn_eq], hreopen, fun target hash => ?_,
    fun hcheckpoint hhash later => ?_⟩
  · rw [contains_of_store htorn, hrep.contains_take, survivors_eq]
  · obtain ⟨survivor, kept, lost, hsurvivor, hkept, -⟩ := openFile_take hrep hcheckpoint hhash
    cases hopen.symm.trans hsurvivor
    have hleft : survivors store.records.toList length = kept := by
      rw [survivors_eq, ← hkept.logsIn_eq, toList_take]
    rw [hleft]
    exact answers_of_holds (holds_run ⟨_, htorn, hkept⟩ later)

/-- The log of a second block is cut short. The first log is left, and takes others behind it. -/
theorem survivors_run_second_block :
    let first : Hash := .ofBytes [7]
    let requests := [Request.add first ⟨1, .ofBytes [1]⟩ 2 0,
      Request.add (.ofBytes [8]) ⟨2, .ofBytes [2]⟩ 4 0]
    ∃ store, (empty.reopen.2.run requests).store = some store ∧ store.bytes.length = 96 ∧
      let torn := ((empty.reopen.2.run requests).replace (some (store.bytes.take 80))).reopen
      torn.1 = .ok () ∧ ∀ later, Answers (torn.2.run later)
        (LogList.run [⟨⟨1, 0⟩, first.short⟩] later) := by
  intro first requests
  obtain ⟨store, hstore, -, hopen, -, hanswers⟩ := survivors_run requests 80
  have hleft : survivors store.records.toList 80 = [⟨⟨1, 0⟩, first.short⟩] := by
    cases hstore
    decide +kernel
  refine ⟨store, hstore, ?_, hopen, hleft ▸ hanswers (by decide) (by decide)⟩
  cases hstore
  decide +kernel

end LogFile

end CrossSafety
