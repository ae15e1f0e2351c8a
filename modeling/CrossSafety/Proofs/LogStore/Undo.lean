import CrossSafety.Proofs.LogStore.Trimmed
import CrossSafety.Proofs.LogStore.Written

/-!
# A rewind behind additions

Logs are added to a file, all of them in blocks above a number, and then the file is rewound to the
number. The logs and the head are those before the additions. The records are cut behind the last log
that stays, so padding at the end of the old records goes too. There is one exception: if the first
dropped log is log zero of the next block and starts a group, the search finds the checkpoint of this
group itself, and the cut falls in front of it. The padding that was written for it stays.
-/
namespace CrossSafety

namespace LogStore

section Cut

variable {store : LogStore} {logs : LogList} {block : UInt64} {i count : Nat}
  {checkpoint : Checkpoint}

/-- The record behind a checkpoint and its hash is that of the log at the checkpoint. -/
theorem Represents.log_behind (h : Represents store logs)
    (hread : checkpointAt store.records i = .ok checkpoint) :
    ∃ record hash, store.records[i + 2]? = some record ∧ record.kind = .ok .logRecord ∧
      LogRecord.ofRecord record = .still hash := by
  obtain ⟨-, hash, hevent, -⟩ := h.opened hread
  obtain ⟨record, hrecord, hdecode⟩ := Outcome.bind_eq_ok.mp hevent
  rw [LogRecord.decode] at hdecode
  obtain ⟨_, hexpect, hstill⟩ := Outcome.bind_eq_ok.mp hdecode
  exact ⟨record, hash, recordAt_eq_ok.mp hrecord, Record.kind_of_expect hexpect, Except.ok.inj hstill⟩

/-- The walk to the cut meets the log of its checkpoint first. -/
theorem Represents.cut_eq (h : Represents store logs)
    (hfind : findCheckpoint store.records ⟨block + 1, 0⟩ = .ok (some i))
    (hread : checkpointAt store.records i = .ok checkpoint) :
    rewind.cut block store.records =
      if block < checkpoint.block then .ok (some i)
      else scanAbove store.records block (store.records.size - 1) (i + 3)
        ⟨i + 3, checkpoint.position, 1⟩ := by
  obtain ⟨record, hash, hrecord, hkind, hstill⟩ := h.log_behind hread
  have hstep := step_log ⟨i + 2, checkpoint.position, 0⟩ hkind
  rw [hstill, LogRecord.apply_still] at hstep
  obtain ⟨fuel, hfuel⟩ := Nat.exists_eq_add_of_lt (lt_of_checkpointAt hread)
  rw [rewind.cut, hfind, Outcome.ok_bind]
  simp only
  rw [scanFrom, hread, Outcome.ok_bind, Outcome.pure_eq, Outcome.ok_bind, hfuel, scanAbove, hrecord]
  simp only [hstep]
  rfl

/-- A rewind cuts at the start, at the checkpoint of the log behind the block, or behind a log. -/
theorem Represents.cut_cases (h : Represents store logs)
    (hcut : rewind.cut block store.records = .ok (some count)) :
    count = 0 ∨
      (∃ checkpoint, LastUpTo store.records ⟨block + 1, 0⟩ count checkpoint ∧
        block < checkpoint.block) ∨
      ∃ last, count = last + 1 ∧ kindAt store.records.toList last = some .logRecord := by
  rcases h.findCheckpoint_cases ⟨block + 1, 0⟩ with ⟨hfind, -⟩ | ⟨i, checkpoint, hfind, hlast⟩
  · rw [rewind.cut, hfind] at hcut
    exact .inl (Option.some.inj (Except.ok.inj hcut)).symm
  · rw [h.cut_eq hfind hlast.read] at hcut
    split at hcut
    · rename_i habove
      cases hcut
      exact .inr (.inl ⟨checkpoint, hlast, habove⟩)
    · rcases scanAbove_eq_some _ _ _ hcut with rfl | hlog
      · obtain ⟨record, -, hrecord, hkind, -⟩ := h.log_behind hlast.read
        refine .inr (.inr ⟨i + 2, rfl, kindAt_eq_some.mpr ⟨record, ?_, hkind⟩⟩)
        rwa [Array.getElem?_toList]
      · exact .inr (.inr hlog)

end Cut

/-- A store that took a log, and perhaps others behind it, all in blocks above a number up to which
its logs were before. -/
structure GrownAbove (block : UInt64) (store : LogStore) (logs : LogList) (hash : Hash)
    (id : BlockId) (timestamp : UInt64) (index : UInt32) (last : LogStore) (later : LogList) :
    Prop where
  before : Represents store logs
  below : ∀ entry ∈ logs, entry.position.block ≤ block
  written : ∃ fresh, store.recordsFor hash id timestamp index = .ok fresh ∧
    store.records.toList ++ fresh <+: last.records.toList
  after : Represents last (logs ++ ⟨⟨id.number, index⟩, hash.short⟩ :: later)
  above : ∀ entry ∈ (⟨⟨id.number, index⟩, hash.short⟩ :: later : LogList),
    block < entry.position.block

namespace GrownAbove

variable {block : UInt64} {store : LogStore} {logs : LogList} {hash : Hash} {id : BlockId}
  {timestamp : UInt64} {index : UInt32} {last : LogStore} {later : LogList}

theorem first_above (h : GrownAbove block store logs hash id timestamp index last later) :
    block < id.number := h.above _ List.mem_cons_self

/-- The first log that was taken is the first of its block. -/
theorem index_eq (h : GrownAbove block store logs hash id timestamp index last later) :
    index = 0 := by
  have hhead := LogList.head_block_le h.below
  have follows := (LogList.ordered_append.mp h.after.ordered).2.1
  rcases follows with ⟨-, ⟨hsame, -⟩ | ⟨-, hindex⟩⟩
  · have hle : id.number ≤ block := by
      have hsame : id.number = logs.head.block := hsame
      rwa [hsame]
    exact absurd h.first_above (UInt64.not_lt.mpr hle)
  · exact hindex

/-- A rewind to the number finds its cut, and leaves the logs from before. -/
theorem exists_cut (h : GrownAbove block store logs hash id timestamp index last later) :
    ∃ count head, rewind.cut block last.records = .ok (some count) ∧
      last.rewind block = (.ok true, ⟨last.records.take count, head⟩) ∧
      Represents ⟨last.records.take count, head⟩ logs := by
  have hlt : block < last.head.block := by
    rw [h.after.head_eq]
    exact UInt64.lt_of_lt_of_le h.first_above
      (h.after.ordered.block_le_head ⟨⟨id.number, index⟩, hash.short⟩
        (List.mem_append_right _ List.mem_cons_self))
  obtain ⟨count, kept, dropped, hcuts⟩ := h.after.cuts hlt
  obtain ⟨head, hhead, hrep⟩ :=
    represents_prefix h.after hcuts.layout hcuts.records hcuts.split
  have hsorted := h.after.ordered.sorted
  rw [hcuts.split] at hsorted
  have hsame : kept.flatMap LogGroup.entries = logs := by
    rw [← LogList.rewind_of_split hsorted hcuts.stay hcuts.leave, ← hcuts.split]
    exact LogList.rewind_append h.below h.above
  refine ⟨count, head, hcuts.found, ?_, hsame ▸ hrep⟩
  rw [rewind, if_neg (UInt64.not_le.mpr hlt), hcuts.found]
  simp only [hhead]

/-- If the first log is log zero of the next block and starts a group, the cut falls in front of the
group and behind the padding that was written for it. -/
theorem cut_of_starts (h : GrownAbove block store logs hash id timestamp index last later)
    (hnext : id.number = block + 1) (hstarts : store.StartsGroup id.number) :
    rewind.cut block last.records = .ok (some (store.count + gapAt store.count)) ∧
      last.records.toList.take (store.count + gapAt store.count) =
        store.records.toList ++ List.replicate (gapAt store.count) Record.padding := by
  obtain ⟨fresh, hfresh, hinitial⟩ := h.written
  have hcheckpoint := read_of_initial (toList_append fresh ⟨id.number, index⟩ ▸ hinitial)
    (read_opening hfresh hstarts ⟨id.number, index⟩).1
  have hposition : (Checkpoint.mk id.number index timestamp).position = ⟨block + 1, 0⟩ := by
    rw [Checkpoint.position, hnext, h.index_eq]
  have hfind := h.after.findCheckpoint_exact hcheckpoint
  rw [hposition] at hfind
  constructor
  · rw [h.after.cut_eq hfind hcheckpoint, if_pos h.first_above]
  · obtain ⟨-, rfl⟩ := (recordsFor_cases hfresh).resolve_right fun hinside => hinside.1 hstarts
    obtain ⟨rest, hrest⟩ := hinitial
    rw [← hrest, ← List.append_assoc, List.append_assoc _ _ rest]
    refine List.take_left' ?_
    rw [List.length_append, List.length_replicate, Array.length_toList]
    rfl

theorem before_initial (h : GrownAbove block store logs hash id timestamp index last later) :
    store.records.toList <+: last.records.toList := by
  obtain ⟨fresh, -, hinitial⟩ := h.written
  exact (List.prefix_append _ _).trans hinitial

/-- A first part of the records that spells the logs from before has no log behind these. -/
theorem kindAt_take_behind (h : GrownAbove block store logs hash id timestamp index last later)
    {count : Nat} (hlogs : logsIn .origin (last.records.toList.take count) = logs) {i : Nat}
    (hbehind : store.count ≤ i) : kindAt (last.records.toList.take count) i ≠ some .logRecord := by
  intro hkind
  have hlt := lt_of_kindAt hkind
  have htaken := List.take_prefix count last.records.toList
  have hinitial : store.records.toList <+: last.records.toList.take count := by
    refine List.prefix_of_prefix_length_le h.before_initial htaken ?_
    rw [Array.length_toList]
    exact Nat.le_trans hbehind (Nat.le_of_lt hlt)
  refine kindAt_behind hinitial ?_ (by rwa [Array.length_toList]) hkind
  rw [hlogs, h.before.logsIn_eq]

/-- Only the first log that was taken can be the one at the first position behind the number. -/
theorem next_of_checkpoint (h : GrownAbove block store logs hash id timestamp index last later)
    {i : Nat} {checkpoint : Checkpoint} (hread : checkpointAt last.records i = .ok checkpoint)
    (hposition : checkpoint.position = ⟨block + 1, 0⟩) (habove : block < checkpoint.block) :
    id.number = block + 1 := by
  obtain ⟨-, found, -, hmem⟩ := h.after.opened hread
  rcases List.mem_append.mp hmem with hmem | hmem
  · exact absurd habove (UInt64.not_lt.mpr (h.below _ hmem))
  · rcases List.mem_cons.mp hmem with heq | hmem
    · exact congrArg Position.block ((congrArg LogEntry.position heq).symm.trans hposition)
    · have hsorted := (List.pairwise_append.mp h.after.ordered.sorted).2.1
      have hlt := (List.pairwise_cons.mp hsorted).1 _ hmem
      simp only [hposition] at hlt
      exact absurd h.first_above (UInt64.not_lt.mpr ((Position.lt_block_iff habove).mp hlt))

/-- A first log that starts no group has its event right behind the old records. -/
theorem event_of_inside (h : GrownAbove block store logs hash id timestamp index last later)
    (hinside : ¬store.StartsGroup id.number) :
    kindAt last.records.toList store.count = some .logRecord := by
  obtain ⟨fresh, hfresh, hinitial⟩ := h.written
  obtain ⟨-, event, rfl⟩ :=
    (recordsFor_cases hfresh).resolve_left fun hstarts => hinside hstarts.1
  refine kindAt_of_initial hinitial ?_
  have hkind := @kindAt_append_right store.records.toList [event.encode] 0
  rw [Array.length_toList] at hkind
  exact hkind.trans (kindAt_eq_some.mpr ⟨_, rfl, event.kind_encode⟩)

/-- Otherwise the cut does not fall at a checkpoint. -/
theorem not_at_checkpoint (h : GrownAbove block store logs hash id timestamp index last later)
    (hnot : ¬(id.number = block + 1 ∧ store.StartsGroup id.number)) {count : Nat}
    (hlogs : logsIn .origin (last.records.toList.take count) = logs) {checkpoint : Checkpoint}
    (hlast : LastUpTo last.records ⟨block + 1, 0⟩ count checkpoint) :
    ¬block < checkpoint.block := by
  intro habove
  have hposition : checkpoint.position = ⟨block + 1, 0⟩ :=
    (Position.lt_or_eq hlast.reached).resolve_left fun hlt =>
      UInt64.not_lt.mpr ((Position.lt_block_iff habove).mp hlt) habove
  have hinside : ¬store.StartsGroup id.number :=
    fun hstarts => hnot ⟨h.next_of_checkpoint hlast.read hposition habove, hstarts⟩
  have hevent := h.event_of_inside hinside
  rcases Nat.lt_trichotomy count store.count with hlt | rfl | hlt
  · have hread := hlast.read
    rw [checkpointAt, recordAt_of_initial h.before_initial hlt] at hread
    obtain ⟨-, found, -, hmem⟩ := h.before.opened hread
    exact absurd habove (UInt64.not_lt.mpr (h.below _ hmem))
  · cases hevent.symm.trans (kindAt_of_checkpointAt hlast.read)
  · exact h.kindAt_take_behind hlogs (Nat.le_refl _) ((kindAt_take hlt).trans hevent)

/-- A cut at the start or behind a log leaves the records in front of the old padding. -/
theorem take_eq_trimmed (h : GrownAbove block store logs hash id timestamp index last later)
    {count : Nat} (hlogs : logsIn .origin (last.records.toList.take count) = logs)
    (hcut : count = 0 ∨
      ∃ place, count = place + 1 ∧ kindAt last.records.toList place = some .logRecord) :
    last.records.toList.take count = store.trimmed := by
  have hlast : ∀ place, (last.records.toList.take count).length = place + 1 →
      kindAt (last.records.toList.take count) place = some .logRecord := by
    intro place hlength
    rw [List.length_take] at hlength
    rcases hcut with rfl | ⟨found, rfl, hkind⟩
    · omega
    · have hlt := lt_of_kindAt hkind
      obtain rfl : found = place := by omega
      exact (kindAt_take (Nat.lt_succ_self _)).trans hkind
  have hlength : (last.records.toList.take count).length ≤ store.records.toList.length := by
    refine Nat.le_of_not_lt fun hlt => ?_
    obtain ⟨place, hplace⟩ := Nat.exists_eq_add_of_lt hlt
    rw [Array.length_toList] at hplace
    exact h.kindAt_take_behind hlogs (Nat.le_add_right _ _) (hlast _ hplace)
  have htaken := List.take_prefix count last.records.toList
  have hinitial := List.prefix_of_prefix_length_le htaken h.before_initial hlength
  exact (h.before.trimmed_eq hinitial hlogs hlast).symm

/-- The rewind leaves the logs from before and cuts the records behind the last of them, or in front
of a group that the first dropped log starts at the place that is searched for. -/
theorem rewind_eq (h : GrownAbove block store logs hash id timestamp index last later) :
    ∃ left, last.rewind block = (.ok true, left) ∧ Represents left logs ∧
      left.records.toList =
        if id.number = block + 1 ∧ store.StartsGroup id.number then
          store.records.toList ++ List.replicate (gapAt store.count) Record.padding
        else store.trimmed := by
  obtain ⟨count, head, hcut, hrewind, hrep⟩ := h.exists_cut
  refine ⟨_, hrewind, hrep, ?_⟩
  have hlogs := hrep.logsIn_eq
  simp only [toList_take] at hlogs ⊢
  split
  · rename_i hstarts
    obtain ⟨hfound, htake⟩ := h.cut_of_starts hstarts.1 hstarts.2
    cases hcut.symm.trans hfound
    exact htake
  · rename_i hnot
    refine h.take_eq_trimmed hlogs ?_
    rcases h.after.cut_cases hcut with hzero | ⟨checkpoint, hlast, habove⟩ | hlog
    · exact .inl hzero
    · exact absurd habove (h.not_at_checkpoint hnot hlogs hlast)
    · exact .inr hlog

end GrownAbove

/-- The records that a rewind to a number leaves when logs were added above the number: those from
before without padding at their end, or together with the padding that the first log was given if it
is looked for itself. -/
def undone (store : LogStore) (block : UInt64) : List Position → List Record
  | [] => store.records.toList
  | first :: _ =>
    if first.block = block + 1 ∧ store.StartsGroup first.block then
      store.records.toList ++ List.replicate (gapAt store.count) Record.padding
    else store.trimmed

/-- The records are those from before exactly if they did not end with padding or, for a first log
that is looked for itself, if it was given none. -/
theorem undone_eq_self_iff {store : LogStore} {block : UInt64} {added : List Position} :
    store.undone block added = store.records.toList ↔ ∀ first ∈ added.head?,
      if first.block = block + 1 ∧ store.StartsGroup first.block then
        store.count % checkpointSpacing = 0
      else kindAt store.records.toList (store.count - 1) ≠ some .padding := by
  cases added with
  | nil => exact iff_of_true rfl fun _ hmem => nomatch hmem
  | cons first later =>
    simp only [undone, List.head?_cons, Option.mem_some, forall_eq']
    split
    · rw [List.append_right_eq_self, List.replicate_eq_nil_iff, gapAt_eq_zero]
    · exact trimmed_eq_self_iff

end LogStore

namespace LogFile

open LogStore

/-- Additions of logs at positions above a block, one after the other, all of them accepted. -/
inductive AddsAbove (block : UInt64) : LogFile → List Position → LogFile → Prop
  | done (file : LogFile) : AddsAbove block file [] file
  | add {file next last : LogFile} {hash : Hash} {id : BlockId} {timestamp : UInt64}
      {index : UInt32} {later : List Position} (above : block < id.number)
      (accepted : file.add hash id timestamp index = (some (.ok ()), next))
      (rest : AddsAbove block next later last) :
      AddsAbove block file (⟨id.number, index⟩ :: later) last

section Adds

variable {file next grown : LogFile} {store : LogStore} {logs : LogList} {block : UInt64}
  {added : List Position}

theorem add_accepted {hash : Hash} {id : BlockId} {timestamp : UInt64} {index : UInt32}
    (hstore : file.store = some store) (hrep : store.Represents logs)
    (haccepted : file.add hash id timestamp index = (some (.ok ()), next)) :
    ∃ fresh, store.recordsFor hash id timestamp index = .ok fresh ∧
      next.store = some (store.append fresh ⟨id.number, index⟩) ∧
      (store.append fresh ⟨id.number, index⟩).Represents
        (logs ++ [⟨⟨id.number, index⟩, hash.short⟩]) := by
  rcases hrep.add_cases hash id timestamp index with
    ⟨-, -, later, hadd, hlater⟩ | ⟨detail, -, -, hadd⟩
  · obtain ⟨fresh, hfresh, rfl⟩ := add_eq_ok hadd
    cases (add_of_ok hstore hadd).symm.trans haccepted
    exact ⟨fresh, hfresh, rfl, hlater⟩
  · cases (add_of_error hstore hadd).symm.trans haccepted

/-- Accepted additions put their logs and their records behind those that are there. -/
theorem AddsAbove.grows (h : AddsAbove block file added grown) (hstore : file.store = some store)
    (hrep : store.Represents logs) :
    ∃ last later, grown.store = some last ∧ last.Represents (logs ++ later) ∧
      store.records.toList <+: last.records.toList ∧
      ∀ entry ∈ later, block < entry.position.block := by
  induction h generalizing store logs with
  | done file => exact ⟨store, [], hstore, by rwa [List.append_nil], List.prefix_rfl, by simp⟩
  | @add _ _ _ hash id _ index _ above accepted _ ih =>
    obtain ⟨fresh, -, hnext, hgrown⟩ := add_accepted hstore hrep accepted
    obtain ⟨last, later, hlast, hlater, hinitial, habove⟩ := ih hnext hgrown
    rw [toList_append] at hinitial
    refine ⟨last, ⟨⟨id.number, index⟩, hash.short⟩ :: later, hlast, by simpa using hlater,
      (List.prefix_append _ _).trans hinitial, fun entry hmem => ?_⟩
    rcases List.mem_cons.mp hmem with rfl | hmem
    · exact above
    · exact habove entry hmem

theorem rewind_of_ok {kept : LogStore} {dropped : Bool} (hstore : file.store = some store)
    (hrewind : store.rewind block = (.ok dropped, kept)) :
    file.rewind block = (some (.ok ()),
      { file with store := some kept }.report (rewindObservations dropped kept)) := by
  rw [rewind, onStore_eq hstore, hrewind]

/-- A rewind behind accepted additions leaves the logs from before and the records that are said. -/
theorem AddsAbove.rewind_eq (h : AddsAbove block file added grown)
    (hstore : file.store = some store) (hrep : store.Represents logs)
    (hbelow : ∀ entry ∈ logs, entry.position.block ≤ block) :
    ∃ last left dropped, grown.store = some last ∧ last.rewind block = (.ok dropped, left) ∧
      left.Represents logs ∧ left.records.toList = store.undone block added := by
  cases h with
  | done =>
    exact ⟨store, store, false, hstore, rewind_noop hrep hbelow, hrep, rfl⟩
  | @add _ next _ hash id timestamp index later above accepted rest =>
    obtain ⟨fresh, hfresh, hnext, hgrown⟩ := add_accepted hstore hrep accepted
    obtain ⟨last, others, hlast, hlater, hinitial, habove⟩ := rest.grows hnext hgrown
    rw [List.append_assoc, List.singleton_append] at hlater
    have hgrownAbove : GrownAbove block store logs hash id timestamp index last others :=
      ⟨hrep, hbelow, ⟨fresh, hfresh, toList_append fresh _ ▸ hinitial⟩, hlater, fun entry hmem =>
        (List.mem_cons.mp hmem).elim (fun heq => heq ▸ above) (habove entry)⟩
    obtain ⟨left, hrewind, hleft, hrecords⟩ := hgrownAbove.rewind_eq
    exact ⟨last, left, true, hlast, hrewind, hleft, hrecords⟩

end Adds

/-- After any requests to a new file that leave its logs in blocks up to a number, logs may be
added above the number. A rewind to the number then leaves a file that stands for the logs from
before, also through later requests, and whose records are those of `undone`. The file has the same
bytes as before exactly if nothing was added, if log zero of the next block came first and started a
group without padding, or if another log came first and the records did not end with padding. -/
theorem rewind_undoes (requests : List Request) {block : UInt64} {added : List Position}
    {grown : LogFile}
    (hbelow : ∀ last, (empty.reopen.2.run requests).store.bind LogStore.latest = some last →
      last.block ≤ block)
    (hadds : AddsAbove block (empty.reopen.2.run requests) added grown) :
    let file := empty.reopen.2.run requests
    ∃ store left rewound, file.store = some store ∧
      grown.rewind block = (some (.ok ()), rewound) ∧ rewound.store = some left ∧
      left.records.toList = store.undone block added ∧
      (∀ later, Answers (rewound.run later) ((LogList.run [] requests).run later)) ∧
      (rewound.content = file.content ↔ ∀ first ∈ added.head?,
        if first.block = block + 1 ∧ store.StartsGroup first.block then
          store.count % checkpointSpacing = 0
        else kindAt store.records.toList (store.count - 1) ≠ some .padding) := by
  intro file
  obtain ⟨store, hstore, hrep⟩ := holds_run holds_empty requests
  have hlogs : ∀ entry ∈ LogList.run [] requests, entry.position.block ≤ block := by
    intro entry hmem
    have hlast : (empty.reopen.2.run requests).store.bind LogStore.latest =
        some (LogList.run [] requests).head := by
      rw [hstore, Option.bind_some, hrep.latest_eq, LogList.latest_eq,
        if_neg (List.ne_nil_of_mem hmem)]
    exact UInt64.le_trans (hrep.ordered.block_le_head entry hmem) (hbelow _ hlast)
  obtain ⟨last, left, dropped, hlast, hrewind, hleft, hrecords⟩ :=
    hadds.rewind_eq hstore hrep hlogs
  refine ⟨store, left, _, hstore, rewind_of_ok hlast hrewind, rfl, hrecords,
    fun later => answers_of_holds (holds_run ⟨left, rfl, hleft⟩ later), ?_⟩
  have hcontent : file.content = some store.bytes := by
    rw [content, hstore]
  have hafter : (({ grown with store := some left } : LogFile).report
      (rewindObservations dropped left)).content = some left.bytes := rfl
  rw [hcontent, hafter, Option.some_inj, bytes_eq_iff, hrecords, undone_eq_self_iff]

/-- The log of block 500 is given padding, and a rewind to block 499 leaves it. -/
theorem rewind_undoes_behind_gap :
    let file := empty.reopen.2.run [.add (.ofBytes [7]) ⟨5, .ofBytes [5]⟩ 10 0]
    let grown := (file.add (.ofBytes [8]) ⟨500, .ofBytes [50]⟩ 1000 0).2
    ∃ store left rewound, file.store = some store ∧
      grown.rewind 499 = (some (.ok ()), rewound) ∧ rewound.store = some left ∧
      left.records.toList = store.records.toList ++ List.replicate 253 Record.padding := by
  intro file grown
  have hadded : file.add (.ofBytes [8]) ⟨500, .ofBytes [50]⟩ 1000 0 = (some (.ok ()), grown) := rfl
  obtain ⟨store, left, rewound, hstore, hrewind, hleft, hrecords, -, -⟩ :=
    rewind_undoes [.add (.ofBytes [7]) ⟨5, .ofBytes [5]⟩ 10 0] (by rintro last ⟨⟩; decide)
      (AddsAbove.add (show (499 : UInt64) < 500 by decide) hadded (.done grown))
  refine ⟨store, left, rewound, hstore, hrewind, hleft, ?_⟩
  cases hstore
  exact hrecords

end LogFile

end CrossSafety
