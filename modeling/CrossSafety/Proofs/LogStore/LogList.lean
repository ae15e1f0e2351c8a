import CrossSafety.Proofs.LogStore.Walk

/-!
# The logs as a plain list

A chain's logs are a list of positions with short hashes, oldest first. A log is added behind the
others if it may follow them, and a rewind keeps the logs up to a block. The list is what a log
store stands for: it says nothing about records, checkpoints or padding.
-/
namespace CrossSafety

/-- The logs of a chain, oldest first. -/
abbrev LogList := List LogEntry

namespace LogList

def endFrom (start : Position) (logs : LogList) : Position :=
  (logs.getLast?.map LogEntry.position).getD start

/-- Position of the last log, the origin while there is none. -/
def head (logs : LogList) : Position := logs.endFrom .origin

/-- Adds a log, if it may follow the others. -/
def add (logs : LogList) (next : Position) (hash : ShortHash) : LogList :=
  if logs.head.Follows next then logs ++ [⟨next, hash⟩] else logs

/-- Keeps the logs of blocks up to a number. -/
def rewind (logs : LogList) (block : UInt64) : LogList :=
  logs.filter fun entry => entry.position.block ≤ block

def latest (logs : LogList) : Option Position := logs.getLast?.map LogEntry.position

def Ordered : Position → LogList → Prop
  | _, [] => True
  | start, entry :: rest => start.Follows entry.position ∧ Ordered entry.position rest

@[simp] theorem endFrom_nil (start : Position) : endFrom start [] = start := rfl

@[simp] theorem endFrom_cons (start : Position) (entry : LogEntry) (logs : LogList) :
    endFrom start (entry :: logs) = endFrom entry.position logs := by
  cases logs with
  | nil => rfl
  | cons next rest => simp [endFrom, List.getLast?_cons]

@[simp] theorem endFrom_snoc (start : Position) (logs : LogList) (entry : LogEntry) :
    endFrom start (logs ++ [entry]) = entry.position := by
  simp [endFrom]

theorem endFrom_append (start : Position) (first second : LogList) :
    endFrom start (first ++ second) = endFrom (endFrom start first) second := by
  induction first generalizing start with
  | nil => rfl
  | cons entry rest ih => simp [ih]

theorem latest_eq (logs : LogList) : logs.latest = if logs = [] then none else some logs.head := by
  cases hlast : logs.getLast? with
  | none => simp [latest, List.getLast?_eq_none_iff.mp hlast]
  | some entry =>
    have hne : logs ≠ [] := fun he => by simp [he] at hlast
    simp [latest, head, endFrom, hlast, hne]

theorem ordered_append {start : Position} {first second : LogList} :
    Ordered start (first ++ second) ↔
      Ordered start first ∧ Ordered (endFrom start first) second := by
  induction first generalizing start with
  | nil => simp [Ordered]
  | cons entry rest ih => simp [Ordered, ih, and_assoc]

theorem Ordered.lt {start : Position} {logs : LogList} (h : Ordered start logs) :
    ∀ entry ∈ logs, start < entry.position := by
  induction logs generalizing start with
  | nil => simp
  | cons first rest ih =>
    intro entry hmem
    rcases List.mem_cons.mp hmem with rfl | hmem
    · exact h.1.lt
    · exact Position.lt_trans h.1.lt (ih h.2 entry hmem)

theorem Ordered.sorted {start : Position} {logs : LogList} (h : Ordered start logs) :
    logs.Pairwise fun a b => a.position < b.position := by
  induction logs generalizing start with
  | nil => exact .nil
  | cons first rest ih => exact List.pairwise_cons.mpr ⟨h.2.lt, ih h.2⟩

theorem Ordered.le_end {start : Position} {logs : LogList} (h : Ordered start logs) :
    ∀ entry ∈ logs, ¬endFrom start logs < entry.position := by
  induction logs generalizing start with
  | nil => simp
  | cons first rest ih =>
    intro entry hmem
    rw [endFrom_cons]
    rcases List.mem_cons.mp hmem with rfl | hmem
    · cases hrest : rest.getLast? with
      | none => rw [List.getLast?_eq_none_iff.mp hrest]; exact Position.lt_irrefl _
      | some last =>
        have hlast := h.2.lt last (List.mem_of_getLast? hrest)
        simp only [endFrom, hrest, Option.map_some, Option.getD_some]
        exact Position.lt_asymm hlast
    · exact ih h.2 entry hmem

/-- A list in which blocks up to a number come before later blocks is cut by a rewind. -/
theorem rewind_append {block : UInt64} {kept dropped : LogList}
    (hkept : ∀ entry ∈ kept, entry.position.block ≤ block)
    (hdropped : ∀ entry ∈ dropped, block < entry.position.block) :
    rewind (kept ++ dropped) block = kept := by
  have hk : kept.filter (fun entry => decide (entry.position.block ≤ block)) = kept :=
    List.filter_eq_self.mpr fun e he => decide_eq_true (hkept e he)
  have hd : dropped.filter (fun entry => decide (entry.position.block ≤ block)) = [] :=
    List.filter_eq_nil_iff.mpr fun e he h =>
      UInt64.not_le.mpr (hdropped e he) (of_decide_eq_true h)
  rw [rewind, List.filter_append, hk, hd, List.append_nil]

end LogList

namespace LogRecord

theorem endFrom_places (current : Position) (events : List LogRecord) :
    LogList.endFrom current (places current events) = endOf current events := by
  induction events generalizing current with
  | nil => rfl
  | cons event rest ih => simp [places, endOf, ih]

theorem places_append (current : Position) (first second : List LogRecord) :
    places current (first ++ second) =
      places current first ++ places (endOf current first) second := by
  induction first generalizing current with
  | nil => rfl
  | cons event rest ih => simp [places, endOf, ih]

end LogRecord

end CrossSafety
