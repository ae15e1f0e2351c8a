import CrossSafety.Proofs.LogStore.Search

/-!
# Walking over records

`logsIn` lists the logs that records spell when they are read from a position on, and `endOf` is
the position after the last of them. The walks of the log store are stated through these two: a
lookup answers from the list, and opening a store ends at its last position.
-/
namespace CrossSafety

structure LogEntry where
  position : Position
  hash : ShortHash
deriving DecidableEq

/-- The logs of events that follow a position. -/
def LogRecord.places : Position → List LogRecord → List LogEntry
  | _, [] => []
  | current, event :: rest =>
    ⟨event.apply current, event.hash⟩ :: places (event.apply current) rest

/-- The position after events that follow a position. -/
def LogRecord.endOf : Position → List LogRecord → Position
  | current, [] => current
  | current, event :: rest => endOf (event.apply current) rest

namespace LogRecord

/-- The record of an event, or padding. -/
def encodeSlot : Option LogRecord → Record
  | some event => event.encode
  | none => .padding

/-- The events among the records behind a checkpoint, without the padding. -/
def eventsOf (slots : List (Option LogRecord)) : List LogRecord := slots.filterMap id

@[simp] theorem eventsOf_nil : eventsOf [] = [] := rfl

@[simp] theorem eventsOf_padding (slots : List (Option LogRecord)) :
    eventsOf (none :: slots) = eventsOf slots := rfl

@[simp] theorem eventsOf_event (event : LogRecord) (slots : List (Option LogRecord)) :
    eventsOf (some event :: slots) = event :: eventsOf slots := rfl

theorem eventsOf_append (first second : List (Option LogRecord)) :
    eventsOf (first ++ second) = eventsOf first ++ eventsOf second := List.filterMap_append

theorem eventsOf_replicate (count : Nat) : eventsOf (List.replicate count none) = [] := by
  induction count with
  | zero => rfl
  | succ count ih => rw [List.replicate_succ, eventsOf_padding, ih]

end LogRecord

namespace LogStore

/-- The logs that records spell, read from a position on. -/
def logsIn : Position → List Record → List LogEntry
  | _, [] => []
  | current, record :: rest =>
    match record.kind with
    | .ok .checkpoint => logsIn (Checkpoint.ofRecord record).position rest
    | .ok .logRecord =>
      let event := LogRecord.ofRecord record
      ⟨event.apply current, event.hash⟩ :: logsIn (event.apply current) rest
    | _ => logsIn current rest

/-- The position at which reading records from a position on ends. -/
def endOf : Position → List Record → Position
  | current, [] => current
  | current, record :: rest =>
    match record.kind with
    | .ok .checkpoint => endOf (Checkpoint.ofRecord record).position rest
    | .ok .logRecord => endOf ((LogRecord.ofRecord record).apply current) rest
    | _ => endOf current rest

def Readable (records : List Record) : Prop := ∀ record ∈ records, ∃ kind, record.kind = .ok kind

section Slots

variable (current : Position) (slots : List (Option LogRecord)) (rest : List Record)

theorem logsIn_slots :
    logsIn current (slots.map LogRecord.encodeSlot ++ rest) =
      LogRecord.places current (LogRecord.eventsOf slots) ++
        logsIn (LogRecord.endOf current (LogRecord.eventsOf slots)) rest := by
  induction slots generalizing current with
  | nil => rfl
  | cons slot slots ih =>
    cases slot <;> simp [logsIn, LogRecord.encodeSlot, LogRecord.places, LogRecord.endOf, ih]

theorem endOf_slots :
    endOf current (slots.map LogRecord.encodeSlot ++ rest) =
      endOf (LogRecord.endOf current (LogRecord.eventsOf slots)) rest := by
  induction slots generalizing current with
  | nil => rfl
  | cons slot slots ih => cases slot <;> simp [endOf, LogRecord.encodeSlot, LogRecord.endOf, ih]

end Slots

section Walks

variable {records : Array Record}

theorem getElem?_of_drop {i : Nat} {record : Record} {rest : List Record}
    (h : records.toList.drop i = record :: rest) : records[i]? = some record := by
  have hi : (records.toList.drop i)[0]? = some record := by rw [h]; rfl
  rwa [List.getElem?_drop, Nat.add_zero, Array.getElem?_toList] at hi

theorem drop_succ_of_drop {i : Nat} {record : Record} {rest : List Record}
    (h : records.toList.drop i = record :: rest) : records.toList.drop (i + 1) = rest := by
  rw [← List.drop_drop, h, List.drop_one, List.tail_cons]

theorem getElem?_of_drop_nil {i : Nat} (h : records.toList.drop i = []) : records[i]? = none := by
  rw [← Array.getElem?_toList]
  exact List.getElem?_eq_none (List.drop_eq_nil_iff.mp h)

/-- What a lookup answers from the logs it meets. -/
def foundIn (target : Position) (hash : ShortHash) : List LogEntry → Bool
  | [] => false
  | entry :: rest =>
    if entry.position = target then entry.hash = hash
    else if target < entry.position then false
    else foundIn target hash rest

/-- A lookup among logs whose positions go up finds what is there. -/
theorem foundIn_eq {target : Position} {hash : ShortHash} {entries : List LogEntry}
    (sorted : entries.Pairwise fun a b => a.position < b.position) :
    foundIn target hash entries = decide (⟨target, hash⟩ ∈ entries) := by
  induction entries with
  | nil => rfl
  | cons entry rest ih =>
    obtain ⟨habove, hrest⟩ := List.pairwise_cons.mp sorted
    have hnot : ¬entry.position < target → (⟨target, hash⟩ : LogEntry) ∉ rest :=
      fun hle hmem => hle (habove ⟨target, hash⟩ hmem)
    unfold foundIn
    split
    · rename_i heq
      subst heq
      have hrest : (⟨entry.position, hash⟩ : LogEntry) ∉ rest := hnot (Position.lt_irrefl _)
      obtain ⟨position, stored⟩ := entry
      simp only [List.mem_cons, LogEntry.mk.injEq, true_and, hrest, or_false]
      exact decide_eq_decide.mpr eq_comm
    · rename_i hne
      have hfirst : (⟨target, hash⟩ : LogEntry) ≠ entry := fun he => hne (he ▸ rfl)
      split
      · rename_i hlt
        simp [hfirst, hnot (Position.lt_asymm hlt)]
      · simp [hfirst, ih hrest]

section Step

variable (scan : Scan) {record : Record}

theorem step_checkpoint (h : record.kind = .ok .checkpoint) :
    step scan record = .ok (none,
      ⟨scan.next + 1, (Checkpoint.ofRecord record).position, scan.read + 1⟩) := by
  simp [step, h]

theorem step_log (h : record.kind = .ok .logRecord) :
    step scan record = .ok (some (LogRecord.ofRecord record).hash,
      ⟨scan.next + 1, (LogRecord.ofRecord record).apply scan.current, scan.read + 1⟩) := by
  simp [step, h]

theorem step_other {kind : RecordKind} (h : record.kind = .ok kind) (hc : kind ≠ .checkpoint)
    (hl : kind ≠ .logRecord) :
    step scan record = .ok (none, ⟨scan.next + 1, scan.current, scan.read + 1⟩) := by
  cases kind <;> simp_all [step]

end Step

/-- A lookup answers from the logs between its start and the end. -/
theorem scanUntil_found (target : Position) (hash : ShortHash) :
    ∀ (rest : List Record) (fuel : Nat) (scan : Scan), records.toList.drop scan.next = rest →
      rest.length ≤ fuel → Readable rest →
      (scanUntil records target hash fuel scan).found =
        .ok (foundIn target hash (logsIn scan.current rest)) := by
  intro rest
  induction rest with
  | nil =>
    intro fuel scan hdrop _ _
    cases fuel with
    | zero => rfl
    | succ fuel => simp [scanUntil, getElem?_of_drop_nil hdrop, logsIn, foundIn]
  | cons record rest ih =>
    intro fuel scan hdrop hfuel hread
    obtain ⟨fuel, rfl⟩ : ∃ n, fuel = n + 1 := ⟨fuel - 1, by simp at hfuel; omega⟩
    have hnext := drop_succ_of_drop hdrop
    have hfuel : rest.length ≤ fuel := by simpa using hfuel
    have hrest : Readable rest := fun r hr => hread r (List.mem_cons_of_mem _ hr)
    obtain ⟨kind, hkind⟩ := hread record List.mem_cons_self
    rw [scanUntil, getElem?_of_drop hdrop]
    by_cases hc : kind = .checkpoint
    · subst hc
      simp only [step_checkpoint scan hkind]
      rw [ih fuel _ hnext hfuel hrest, logsIn, hkind]
    · by_cases hl : kind = .logRecord
      · subst hl
        simp only [step_log scan hkind]
        rw [logsIn, hkind]
        simp only [foundIn]
        split
        · rfl
        · split
          · rfl
          · exact ih fuel _ hnext hfuel hrest
      · simp only [step_other scan hkind hc hl]
        rw [ih fuel _ hnext hfuel hrest, logsIn, hkind]
        cases kind <;> first | exact absurd rfl hc | exact absurd rfl hl | rfl

theorem scanToEnd_eq :
    ∀ (rest : List Record) (fuel : Nat) (scan : Scan), records.toList.drop scan.next = rest →
      rest.length ≤ fuel → Readable rest →
      scanToEnd records fuel scan = .ok (endOf scan.current rest) := by
  intro rest
  induction rest with
  | nil =>
    intro fuel scan hdrop _ _
    cases fuel with
    | zero => rfl
    | succ fuel => simp [scanToEnd, getElem?_of_drop_nil hdrop, endOf]
  | cons record rest ih =>
    intro fuel scan hdrop hfuel hread
    obtain ⟨fuel, rfl⟩ : ∃ n, fuel = n + 1 := ⟨fuel - 1, by simp at hfuel; omega⟩
    have hnext := drop_succ_of_drop hdrop
    have hfuel : rest.length ≤ fuel := by simpa using hfuel
    have hrest : Readable rest := fun r hr => hread r (List.mem_cons_of_mem _ hr)
    obtain ⟨kind, hkind⟩ := hread record List.mem_cons_self
    rw [scanToEnd, getElem?_of_drop hdrop]
    by_cases hc : kind = .checkpoint
    · subst hc
      simp only [step_checkpoint scan hkind]
      rw [ih fuel _ hnext hfuel hrest, endOf, hkind]
    · by_cases hl : kind = .logRecord
      · subst hl
        simp only [step_log scan hkind]
        rw [ih fuel _ hnext hfuel hrest, endOf, hkind]
      · simp only [step_other scan hkind hc hl]
        rw [ih fuel _ hnext hfuel hrest, endOf, hkind]
        cases kind <;> first | exact absurd rfl hc | exact absurd rfl hl | rfl

/-- Where a rewind cuts records that start at `index`: behind the last log before the first log
above `block`, at first at `keep`. -/
def cutBelow (block : UInt64) : Nat → Nat → Position → List Record → Option Nat
  | _, _, _, [] => none
  | index, keep, current, record :: rest =>
    match record.kind with
    | .ok .checkpoint => cutBelow block (index + 1) keep (Checkpoint.ofRecord record).position rest
    | .ok .logRecord =>
      let next := (LogRecord.ofRecord record).apply current
      if block < next.block then some keep
      else cutBelow block (index + 1) (index + 1) next rest
    | _ => cutBelow block (index + 1) keep current rest

section CutBelow

variable (block : UInt64) (index keep : Nat) (current : Position) (rest : List Record)

theorem cutBelow_checkpoint (checkpoint : Checkpoint) :
    cutBelow block index keep current (checkpoint.encode :: rest) =
      cutBelow block (index + 1) keep checkpoint.position rest := by
  simp only [cutBelow, Checkpoint.kind_encode, Checkpoint.ofRecord_encode]

theorem cutBelow_hash (hash : ShortHash) :
    cutBelow block index keep current (hash.encode :: rest) =
      cutBelow block (index + 1) keep current rest := by
  simp only [cutBelow, ShortHash.kind_encode]

theorem cutBelow_padding :
    cutBelow block index keep current (.padding :: rest) =
      cutBelow block (index + 1) keep current rest := by
  simp only [cutBelow, Record.kind_padding]

theorem cutBelow_event (event : LogRecord) :
    cutBelow block index keep current (event.encode :: rest) =
      if block < (event.apply current).block then some keep
      else cutBelow block (index + 1) (index + 1) (event.apply current) rest := by
  simp only [cutBelow, LogRecord.kind_encode, LogRecord.ofRecord_encode]

end CutBelow

/-- A walk to the first log above a block gives the place of the cut. -/
theorem scanAbove_eq (block : UInt64) :
    ∀ (rest : List Record) (fuel keep : Nat) (scan : Scan),
      records.toList.drop scan.next = rest → rest.length ≤ fuel → Readable rest →
      scanAbove records block fuel keep scan =
        .ok (cutBelow block scan.next keep scan.current rest) := by
  intro rest
  induction rest with
  | nil =>
    intro fuel keep scan hdrop _ _
    cases fuel with
    | zero => rfl
    | succ fuel => simp [scanAbove, getElem?_of_drop_nil hdrop, cutBelow]
  | cons record rest ih =>
    intro fuel keep scan hdrop hfuel hread
    obtain ⟨fuel, rfl⟩ : ∃ n, fuel = n + 1 := ⟨fuel - 1, by simp at hfuel; omega⟩
    have hnext := drop_succ_of_drop hdrop
    have hfuel : rest.length ≤ fuel := by simpa using hfuel
    have hrest : Readable rest := fun r hr => hread r (List.mem_cons_of_mem _ hr)
    obtain ⟨kind, hkind⟩ := hread record List.mem_cons_self
    rw [scanAbove, getElem?_of_drop hdrop]
    by_cases hc : kind = .checkpoint
    · subst hc
      simp only [step_checkpoint scan hkind]
      rw [ih fuel keep _ hnext hfuel hrest, cutBelow, hkind]
    · by_cases hl : kind = .logRecord
      · subst hl
        simp only [step_log scan hkind]
        rw [cutBelow, hkind]
        simp only
        split
        · rfl
        · exact ih fuel _ _ hnext hfuel hrest
      · simp only [step_other scan hkind hc hl]
        rw [ih fuel keep _ hnext hfuel hrest, cutBelow, hkind]
        cases kind <;> first | exact absurd rfl hc | exact absurd rfl hl | rfl

end Walks

end LogStore

end CrossSafety
