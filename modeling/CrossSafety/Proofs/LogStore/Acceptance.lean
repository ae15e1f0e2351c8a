import CrossSafety.Proofs.LogStore.Refinement

/-!
# Which logs are taken

Two checks stand before a log is written: `checkNext` compares it with the head, and
`LogRecord.between` has to find the event that leads to it. Where the second would fail the log gets
a checkpoint of its own, so the outcome is that of the first, which is stated here by the last log.
-/
namespace CrossSafety

/-- Whether a log may come next: with the next index of the last block, or with index zero of a later
block. Block zero has no logs. -/
def Position.ComesAfter (last : Option Position) (next : Position) : Prop :=
  0 < next.block ∧ match last with
    | none => next.index = 0
    | some last => next.block = last.block ∧ next.index.toNat = last.index.toNat + 1 ∨
        last.block < next.block ∧ next.index = 0

namespace Position

theorem index_toNat_eq_succ {index next : UInt32} :
    next.toNat = index.toNat + 1 ↔ index ≠ 0xFFFFFFFF ∧ next = index + 1 := by
  constructor
  · intro h
    have hlt := next.toNat_lt
    have hne : index ≠ 0xFFFFFFFF := by
      rintro rfl
      rw [h] at hlt
      exact absurd hlt (by decide)
    exact ⟨hne, UInt32.toNat_inj.mp (by rw [h, index_succ_toNat hne])⟩
  · rintro ⟨hne, rfl⟩
    exact index_succ_toNat hne

theorem comesAfter_some {last next : Position} :
    ComesAfter (some last) next ↔ last.Follows next := by
  rw [ComesAfter, Follows, UInt64.pos_iff_ne_zero, index_toNat_eq_succ]

theorem comesAfter_none {next : Position} : ComesAfter none next ↔ origin.Follows next := by
  rw [ComesAfter, Follows, UInt64.pos_iff_ne_zero]
  refine and_congr_right fun hne => ⟨fun hindex => .inr ⟨UInt64.pos_iff_ne_zero.mpr hne, hindex⟩, ?_⟩
  rintro (⟨hzero, -⟩ | ⟨-, hindex⟩)
  · exact absurd hzero hne
  · exact hindex

end Position

namespace LogStore

section Add

variable {store : LogStore} {logs : LogList}

theorem Represents.comesAfter_iff (h : Represents store logs) {next : Position} :
    Position.ComesAfter store.latest next ↔ logs.head.Follows next := by
  rw [h.latest_eq, LogList.latest_eq]
  split
  · rename_i hnil
    rw [hnil]
    exact Position.comesAfter_none
  · exact Position.comesAfter_some

/-- The check of a log against the head decides: a log that passes it has its records. -/
theorem Represents.add_cases (h : Represents store logs) (hash : Hash) (block : BlockId)
    (timestamp : UInt64) (index : UInt32) :
    checkNext store.head ⟨block.number, index⟩ = .ok () ∧
        Position.ComesAfter store.latest ⟨block.number, index⟩ ∧
        (∃ grown, store.add hash block timestamp index = (.ok (), grown) ∧
          Represents grown (logs ++ [⟨⟨block.number, index⟩, hash.short⟩])) ∨
      ∃ detail, checkNext store.head ⟨block.number, index⟩ = .error (.logOutOfOrder detail) ∧
        ¬Position.ComesAfter store.latest ⟨block.number, index⟩ ∧
        store.add hash block timestamp index = (.error (.logOutOfOrder detail), store) := by
  rcases checkNext_eq store.head ⟨block.number, index⟩ with ⟨hok, follows⟩ | ⟨⟨detail, herror⟩, hnot⟩
  · rw [h.head_eq] at follows
    exact .inl ⟨hok, h.comesAfter_iff.mpr follows,
      represents_add h hash block timestamp index follows⟩
  · rw [h.head_eq] at hnot
    refine .inr ⟨detail, herror, fun hcomes => hnot (h.comesAfter_iff.mp hcomes), ?_⟩
    rw [add, recordsFor]
    simp only [herror, Outcome.error_bind]

end Add

end LogStore

namespace LogFile

open LogStore

section Add

variable {file : LogFile} {store grown : LogStore} {hash : Hash} {block : BlockId}
  {timestamp : UInt64} {index : UInt32}

/-- What an open file does is done on its store. -/
theorem onStore_eq {α : Type} (h : file.store = some store)
    (work : LogStore → α × LogStore × List LogObservation) :
    file.onStore work =
      (some (work store).1,
        { file with store := some (work store).2.1 }.report (work store).2.2) := by
  obtain ⟨closed, _, observed⟩ := file
  cases h
  rfl

theorem add_of_ok (h : file.store = some store)
    (hadd : store.add hash block timestamp index = (.ok (), grown)) :
    file.add hash block timestamp index =
      (some (.ok ()), { file with store := some grown }.report [.entries grown.count]) := by
  rw [add, onStore_eq h, hadd]

theorem add_of_error (h : file.store = some store) {e : StorageError}
    (hadd : store.add hash block timestamp index = (.error e, store)) :
    file.add hash block timestamp index = (some (.error e), file) := by
  rw [add, onStore_eq h, hadd, ← h]
  rfl

end Add

/-- After any requests to a new file, the outcome of an addition is that of the check against the
head. A log is taken exactly if it may come after the last one, and then it is the last one. Any
other log is out of order and leaves the file as it is. -/
theorem acceptance_run (requests : List Request) (hash : Hash) (block : BlockId)
    (timestamp : UInt64) (index : UInt32) :
    let file := empty.reopen.2.run requests
    let next : Position := ⟨block.number, index⟩
    ∃ store, file.store = some store ∧
      (file.add hash block timestamp index).1 = some (checkNext store.head next) ∧
      (next.ComesAfter store.latest → ∃ grown,
        file.add hash block timestamp index = (some (.ok ()), grown) ∧
          grown.store.map LogStore.latest = some (some next)) ∧
      (¬next.ComesAfter store.latest → ∃ detail,
        file.add hash block timestamp index = (some (.error (.logOutOfOrder detail)), file)) := by
  intro file next
  obtain ⟨store, hstore, hrep⟩ := holds_run holds_empty requests
  refine ⟨store, hstore, ?_⟩
  rcases hrep.add_cases hash block timestamp index with
    ⟨hok, hcomes, grown, hadd, hgrown⟩ | ⟨detail, herror, hrefused, hadd⟩
  · have hlast := hgrown.latest_eq
    rw [LogList.latest, List.getLast?_concat] at hlast
    have htaken := add_of_ok hstore hadd
    exact ⟨by rw [htaken, hok], fun _ => ⟨_, htaken, congrArg some hlast⟩,
      fun hnot => absurd hcomes hnot⟩
  · have hsame := add_of_error hstore hadd
    exact ⟨by rw [hsame, herror], fun hcomes => absurd hcomes hrefused, fun _ => ⟨detail, hsame⟩⟩

end LogFile

end CrossSafety
