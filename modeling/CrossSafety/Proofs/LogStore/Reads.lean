import CrossSafety.Proofs.LogStore.Checkpoints

/-!
# How many records a lookup reads

A lookup is not told where to stop: it reads on from its checkpoint until it meets a log that is not
below its target. Its checkpoint is the last one that is not above the target, so the first log of
the next group is such a log. What is read is at most the rest of one group, the next checkpoint, its
hash and its log.
-/
namespace CrossSafety

namespace LogStore

/-- How many records a walk reads up to the first log that is not below a target, or to the end. -/
def readsTo (target : Position) : Position → List Record → Nat
  | _, [] => 0
  | current, record :: rest =>
    match record.kind with
    | .ok .checkpoint => readsTo target (Checkpoint.ofRecord record).position rest + 1
    | .ok .logRecord =>
      let next := (LogRecord.ofRecord record).apply current
      if next < target then readsTo target next rest + 1 else 1
    | _ => readsTo target current rest + 1

section Walk

variable {records : Array Record}

/-- A lookup counts the records it reads. -/
theorem scanUntil_read (target : Position) (hash : ShortHash) :
    ∀ (rest : List Record) (fuel : Nat) (scan : Scan), records.toList.drop scan.next = rest →
      rest.length ≤ fuel → Readable rest →
      (scanUntil records target hash fuel scan).read =
        some (scan.read + readsTo target scan.current rest) := by
  intro rest
  induction rest with
  | nil =>
    intro fuel scan hdrop _ _
    cases fuel with
    | zero => rfl
    | succ fuel => simp [scanUntil, getElem?_of_drop_nil hdrop, readsTo]
  | cons record rest ih =>
    intro fuel scan hdrop hfuel hread
    obtain ⟨fuel, rfl⟩ : ∃ n, fuel = n + 1 := ⟨fuel - 1, by simp at hfuel; omega⟩
    have hnext := drop_succ_of_drop hdrop
    have hfuel : rest.length ≤ fuel := by simpa using hfuel
    have hrest : Readable rest := fun r hr => hread r (List.mem_cons_of_mem _ hr)
    have hadd : ∀ count, scan.read + 1 + count = scan.read + (count + 1) := by omega
    obtain ⟨kind, hkind⟩ := hread record List.mem_cons_self
    rw [scanUntil, getElem?_of_drop hdrop]
    by_cases hc : kind = .checkpoint
    · subst hc
      simp only [step_checkpoint scan hkind]
      rw [ih fuel _ hnext hfuel hrest, readsTo, hkind]
      simp only [hadd]
    · by_cases hl : kind = .logRecord
      · subst hl
        simp only [step_log scan hkind]
        rw [readsTo, hkind]
        simp only
        split
        · rename_i heq
          rw [heq, if_neg (Position.lt_irrefl _)]
        · rename_i hne
          split
          · rename_i habove
            rw [if_neg (Position.lt_asymm habove)]
          · rename_i hnot
            rw [if_pos ((Position.lt_or_eq hnot).resolve_right hne), ih fuel _ hnext hfuel hrest]
            simp only [hadd]
      · simp only [step_other scan hkind hc hl]
        rw [ih fuel _ hnext hfuel hrest, readsTo, hkind]
        cases kind <;> first | exact absurd rfl hc | exact absurd rfl hl | simp only [hadd]

end Walk

section Bound

variable (target : Position)

/-- A walk stops within the records behind a checkpoint, or goes on behind them. -/
theorem readsTo_slots (rest : List Record) (slots : List (Option LogRecord)) (current : Position) :
    readsTo target current (slots.map LogRecord.encodeSlot ++ rest) ≤
      slots.length + readsTo target (LogRecord.endOf current (LogRecord.eventsOf slots)) rest := by
  induction slots generalizing current with
  | nil => simp [LogRecord.endOf]
  | cons slot slots ih =>
    cases slot with
    | none =>
      have hnext := ih current
      simp only [List.map_cons, List.cons_append, LogRecord.encodeSlot, readsTo,
        Record.kind_padding, LogRecord.eventsOf_padding, List.length_cons]
      omega
    | some event =>
      have hnext := ih (event.apply current)
      simp only [List.map_cons, List.cons_append, LogRecord.encodeSlot, readsTo,
        LogRecord.kind_encode, LogRecord.ofRecord_encode, LogRecord.eventsOf_event,
        LogRecord.endOf, List.length_cons]
      split <;> omega

/-- A walk that comes to a group that starts above the target stops at its first log. -/
theorem readsTo_group {group : LogGroup} (later : List LogGroup) (current : Position)
    (habove : target < group.checkpoint.position) :
    readsTo target current ((group :: later).flatMap LogGroup.records) = 3 := by
  rw [records_eq_behind, behind, LogGroup.slots]
  simp only [List.map_cons, List.cons_append, LogRecord.encodeSlot, readsTo,
    Checkpoint.kind_encode, ShortHash.kind_encode, LogRecord.kind_encode,
    Checkpoint.ofRecord_encode, LogRecord.ofRecord_encode, LogRecord.apply_still,
    if_neg (Position.lt_asymm habove)]

/-- From the last group that does not start above the target, a walk leaves the group by at most the
first log of the next one. -/
theorem readsTo_behind {group : LogGroup} (later : List LogGroup)
    (hfits : group.size ≤ checkpointSpacing)
    (habove : ∀ next ∈ later.head?, target < next.checkpoint.position) :
    readsTo target group.checkpoint.position (behind group later) ≤ checkpointSpacing + 1 := by
  have hwalk := readsTo_slots target (later.flatMap LogGroup.records) group.slots
    group.checkpoint.position
  have hslots : group.slots.length + 2 = group.size := rfl
  have hlater : ∀ current, readsTo target current (later.flatMap LogGroup.records) ≤ 3 := by
    intro current
    cases later with
    | nil => exact Nat.zero_le 3
    | cons next rest => exact Nat.le_of_eq (readsTo_group target rest current (habove next rfl))
  have hrest := hlater (LogRecord.endOf group.checkpoint.position (LogRecord.eventsOf group.slots))
  rw [behind]
  omega

/-- The bound is reached where padding fills a group up. -/
example :
    let hash : ShortHash := .ofBytes [7]
    let filled : LogGroup := ⟨⟨5, 0, 10⟩, hash, hash, List.replicate 253 none⟩
    let next : LogGroup := ⟨⟨500, 0, 1000⟩, hash, hash, []⟩
    readsTo ⟨100, 0⟩ filled.checkpoint.position (behind filled [next]) = checkpointSpacing + 1 := by
  decide +kernel

end Bound

section Store

variable {store : LogStore} {logs : LogList}

/-- A lookup without a checkpoint to start from reads nothing. Any other one reads up to the first
log behind its checkpoint that is not below the target, and that is not far. -/
theorem Represents.search_read (h : Represents store logs) (target : Position) (hash : Hash) :
    (store.search target hash).read = none ∧
        (∀ i checkpoint, checkpointAt store.records i = .ok checkpoint →
          target < checkpoint.position) ∨
      ∃ i checkpoint, LastUpTo store.records target i checkpoint ∧
        (store.search target hash).read =
          some (readsTo target checkpoint.position (store.records.toList.drop (i + 2))) ∧
        readsTo target checkpoint.position (store.records.toList.drop (i + 2)) ≤
          checkpointSpacing + 1 := by
  rcases h.findCheckpoint_cases target with ⟨hfind, habove⟩ | ⟨i, checkpoint, hfind, hlast⟩
  · exact .inl ⟨by rw [search, hfind], habove⟩
  · refine .inr ⟨i, checkpoint, hlast, ?_⟩
    obtain ⟨groups, layout, hrecords, hlogs⟩ := h.laid
    obtain ⟨k, hk, rfl, rfl⟩ := (layout.checkpointAt_eq_ok hrecords).mp hlast.read
    have hdrop := layout.drop_behind hk
    rw [← hrecords] at hdrop
    have hscan := scanUntil_read target hash.short _ store.records.size
      ⟨_, groups[k].checkpoint.position, 0⟩ hdrop (length_behind_le layout hrecords hk)
      (readable_behind _ _)
    have hnext : ∀ next ∈ (groups.drop (k + 1)).head?, target < next.checkpoint.position := by
      intro next hmem
      rw [List.head?_drop] at hmem
      obtain ⟨hk', rfl⟩ := List.getElem?_eq_some_iff.mp hmem
      refine hlast.last ((k + 1) * checkpointSpacing) _ ?_
        ((layout.checkpointAt_eq_ok hrecords).mpr ⟨k + 1, hk', rfl, rfl⟩)
      exact Nat.mul_lt_mul_of_pos_right (Nat.lt_succ_self k) (by decide)
    rw [hdrop]
    refine ⟨?_, readsTo_behind target _ (layout.fits _ (List.getElem_mem hk)) hnext⟩
    rw [search, hfind]
    simp only
    rw [scanFrom_eq layout (h.ascending hlogs) hrecords hk]
    simp only
    rw [hscan, Nat.zero_add]

end Store

end LogStore

namespace LogFile

open LogStore

theorem contains_reports {file : LogFile} {store : LogStore} (h : file.store = some store)
    (target : Position) (hash : Hash) :
    (file.contains target hash).2 =
      file.report ((store.search target hash).read.map LogObservation.read).toList := by
  obtain ⟨closed, _, observed⟩ := file
  cases h
  rfl

/-- After any requests to a new file, a lookup reports nothing if all checkpoints are above its target,
and otherwise one count: that of the records up to the first log that is not below the target, from
behind the last checkpoint that is not above it. The count is never more than 257. -/
theorem reads_run (requests : List Request) (target : Position) (hash : Hash) :
    let file := empty.reopen.2.run requests
    ∃ store, file.store = some store ∧
      ((file.contains target hash).2 = file.report [] ∧
          (∀ i checkpoint, checkpointAt store.records i = .ok checkpoint →
            target < checkpoint.position) ∨
        ∃ i checkpoint count, LastUpTo store.records target i checkpoint ∧
          (file.contains target hash).2 = file.report [.read count] ∧
          count = readsTo target checkpoint.position (store.records.toList.drop (i + 2)) ∧
          count ≤ checkpointSpacing + 1) := by
  intro file
  obtain ⟨store, hstore, hrep⟩ := holds_run holds_empty requests
  refine ⟨store, hstore, ?_⟩
  rw [contains_reports hstore]
  rcases hrep.search_read target hash with ⟨hread, habove⟩ | ⟨i, checkpoint, hlast, hread, hle⟩
  · exact .inl ⟨by rw [hread]; rfl, habove⟩
  · exact .inr ⟨i, checkpoint, _, hlast, by rw [hread]; rfl, rfl, hle⟩

end LogFile

end CrossSafety
