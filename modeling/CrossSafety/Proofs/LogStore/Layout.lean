import CrossSafety.Proofs.LogStore.Walk

/-!
# The layout of the log file

The records of a log store fall into groups. A group starts with a checkpoint and the hash of its
block, then come the events of its logs, with padding behind them or between them. Every group but
the last one fills the space between two checkpoints. `Represents` relates a store in this layout
to the plain list of its logs. A store pads a group only when it fills it, but a file that was cut
short in padding keeps some of it, and logs that are added later stand behind that.
-/
namespace CrossSafety

/-- The records from one checkpoint up to the next. -/
structure LogGroup where
  checkpoint : Checkpoint
  blockHash : ShortHash
  firstHash : ShortHash
  /-- What follows the event of the first log: the events of further logs, and padding. -/
  later : List (Option LogRecord)

namespace LogGroup

/-- The events of a group with the padding between them. The first event makes no move. -/
def slots (group : LogGroup) : List (Option LogRecord) :=
  some (.still group.firstHash) :: group.later

def events (group : LogGroup) : List LogRecord := LogRecord.eventsOf group.slots

def records (group : LogGroup) : List Record :=
  group.checkpoint.encode :: group.blockHash.encode :: group.slots.map LogRecord.encodeSlot

def entries (group : LogGroup) : List LogEntry :=
  LogRecord.places group.checkpoint.position group.events

def last (group : LogGroup) : Position := LogRecord.endOf group.checkpoint.position group.events

def size (group : LogGroup) : Nat := group.later.length + 3

@[simp] theorem length_records (group : LogGroup) : group.records.length = group.size := by
  simp only [records, slots, size, List.length_cons, List.length_map]

theorem entries_eq (group : LogGroup) :
    group.entries = ⟨group.checkpoint.position, group.firstHash⟩ ::
      LogRecord.places group.checkpoint.position (LogRecord.eventsOf group.later) := rfl

theorem readable_records (group : LogGroup) : LogStore.Readable group.records := by
  intro record hmem
  simp only [records, List.mem_cons, List.mem_map] at hmem
  rcases hmem with rfl | rfl | ⟨slot, -, rfl⟩
  · exact ⟨_, Checkpoint.kind_encode _⟩
  · exact ⟨_, ShortHash.kind_encode _⟩
  · cases slot with
    | none => exact ⟨_, Record.kind_padding⟩
    | some event => exact ⟨_, LogRecord.kind_encode event⟩

end LogGroup

namespace LogStore

/-- The records behind the checkpoint of a group and its hash, and those of the later groups. -/
def behind (group : LogGroup) (later : List LogGroup) : List Record :=
  group.slots.map LogRecord.encodeSlot ++ later.flatMap LogGroup.records

theorem records_eq_behind (group : LogGroup) (later : List LogGroup) :
    (group :: later).flatMap LogGroup.records =
      group.checkpoint.encode :: group.blockHash.encode :: behind group later := by
  simp only [List.flatMap_cons, LogGroup.records, behind, List.cons_append]

theorem logsIn_groups (current : Position) (groups : List LogGroup) :
    logsIn current (groups.flatMap LogGroup.records) = groups.flatMap LogGroup.entries := by
  induction groups generalizing current with
  | nil => rfl
  | cons group later ih =>
    rw [records_eq_behind]
    simp [logsIn, behind, logsIn_slots, ih, LogGroup.entries, LogGroup.events]

/-- Reading on behind the checkpoint of a group meets its logs and those of the later groups. -/
theorem logsIn_behind (group : LogGroup) (later : List LogGroup) :
    logsIn group.checkpoint.position (behind group later) =
      (group :: later).flatMap LogGroup.entries := by
  rw [behind, logsIn_slots, logsIn_groups]
  rfl

theorem endOf_behind (group : LogGroup) :
    endOf group.checkpoint.position (behind group []) = group.last := by
  rw [behind, endOf_slots]
  rfl

theorem readable_behind (group : LogGroup) (later : List LogGroup) :
    Readable (behind group later) := by
  intro record hmem
  simp only [behind, List.mem_append, List.mem_flatMap] at hmem
  rcases hmem with h | ⟨other, -, h⟩
  · exact group.readable_records record (List.mem_cons_of_mem _ (List.mem_cons_of_mem _ h))
  · exact other.readable_records record h

/-- Groups as they lie in a file: all but the last are filled, and none overflows. -/
structure Layout (groups : List LogGroup) : Prop where
  filled : ∀ group ∈ groups.dropLast, group.size = checkpointSpacing
  fits : ∀ group ∈ groups, group.size ≤ checkpointSpacing

namespace Layout

theorem nil : Layout [] := ⟨by simp, by simp⟩

variable {groups : List LogGroup} {group : LogGroup}

/-- A file whose groups are all filled can take one more group. -/
theorem snoc_iff : Layout (groups ++ [group]) ↔
    (∀ g ∈ groups, g.size = checkpointSpacing) ∧ group.size ≤ checkpointSpacing := by
  constructor
  · intro h
    exact ⟨fun g hg => h.filled g (by simpa using hg), h.fits group (by simp)⟩
  · rintro ⟨hall, hfits⟩
    refine ⟨by simpa using hall, fun g hg => ?_⟩
    rcases List.mem_append.mp hg with hg | hg
    · exact Nat.le_of_eq (hall g hg)
    · exact List.mem_singleton.mp hg ▸ hfits

theorem tail {first : LogGroup} (h : Layout (first :: groups)) : Layout groups := by
  refine ⟨fun g hg => h.filled g ?_, fun g hg => h.fits g (List.mem_cons_of_mem _ hg)⟩
  cases groups with
  | nil => simp at hg
  | cons => simp [hg]

theorem take (h : Layout groups) (count : Nat) : Layout (groups.take count) := by
  refine ⟨fun g hg => h.filled g ?_, fun g hg => h.fits g (List.mem_of_mem_take hg)⟩
  rw [List.dropLast_eq_take] at hg ⊢
  rw [List.take_take, List.length_take] at hg
  exact List.take_subset_take_left _ (by omega) hg

/-- The records from the place of a checkpoint on are those of its group and the later ones. -/
theorem drop_records (h : Layout groups) (i : Nat) (hi : i < groups.length) :
    (groups.flatMap LogGroup.records).drop (i * checkpointSpacing) =
      (groups.drop i).flatMap LogGroup.records := by
  induction i generalizing groups with
  | zero => simp
  | succ i ih =>
    cases groups with
    | nil => simp at hi
    | cons first rest =>
      have hfull : first.records.length = checkpointSpacing := by
        rw [LogGroup.length_records]
        refine h.filled first ?_
        cases rest with
        | nil => simp at hi
        | cons => simp
      have hsplit : (i + 1) * checkpointSpacing = first.records.length + i * checkpointSpacing := by
        rw [hfull, Nat.succ_mul, Nat.add_comm]
      rw [List.flatMap_cons, List.drop_succ_cons, hsplit, ← List.drop_drop, List.drop_left]
      exact ih h.tail (by simpa using hi)

theorem drop_checkpoint (h : Layout groups) {i : Nat} (hi : i < groups.length) :
    (groups.flatMap LogGroup.records).drop (i * checkpointSpacing) =
      groups[i].checkpoint.encode :: groups[i].blockHash.encode ::
        behind groups[i] (groups.drop (i + 1)) := by
  rw [h.drop_records i hi, List.drop_eq_getElem_cons hi, records_eq_behind]

theorem drop_behind (h : Layout groups) {i : Nat} (hi : i < groups.length) :
    (groups.flatMap LogGroup.records).drop (i * checkpointSpacing + 2) =
      behind groups[i] (groups.drop (i + 1)) := by
  rw [← List.drop_drop, h.drop_checkpoint hi]
  rfl

theorem length_filled (h : ∀ g ∈ groups, g.size = checkpointSpacing) :
    (groups.flatMap LogGroup.records).length = groups.length * checkpointSpacing := by
  induction groups with
  | nil => simp
  | cons first rest ih =>
    simp only [List.flatMap_cons, List.length_append, LogGroup.length_records, List.length_cons]
    rw [h first List.mem_cons_self, ih fun g hg => h g (List.mem_cons_of_mem _ hg),
      Nat.succ_mul, Nat.add_comm]

theorem length_snoc (h : Layout (groups ++ [group])) :
    ((groups ++ [group]).flatMap LogGroup.records).length =
      groups.length * checkpointSpacing + group.size := by
  rw [List.flatMap_append, List.length_append, length_filled (snoc_iff.mp h).1]
  simp

end Layout

end LogStore

end CrossSafety
