import Mathlib.Data.List.DropRight
import CrossSafety.Proofs.LogStore.Survivors
import CrossSafety.Proofs.LogStore.Format

/-!
# Padding at the end

In a layout of groups only padding can come behind the last log. So records that spell all the logs of
a store and end with a log are the store's records without the padding at their end.
-/
namespace CrossSafety

namespace LogGroup

variable (group : LogGroup)

theorem kindAt_records_first : LogStore.kindAt group.records 2 = some .logRecord :=
  LogStore.kindAt_eq_some.mpr ⟨_, rfl, LogRecord.kind_encode _⟩

theorem kindAt_records_slot {place : Nat} (h : place + 2 < group.size) :
    LogStore.kindAt group.records (place + 2) = some .logRecord ∨
      LogStore.kindAt group.records (place + 2) = some .padding := by
  have hplace : place < group.slots.length := by
    rw [size] at h
    simp only [slots, List.length_cons]
    omega
  have hget : group.records[place + 2]? = some (LogRecord.encodeSlot group.slots[place]) := by
    rw [records, List.getElem?_cons_succ, List.getElem?_cons_succ, List.getElem?_map,
      List.getElem?_eq_getElem hplace, Option.map_some]
  cases hslot : group.slots[place] with
  | none =>
    rw [hslot] at hget
    exact .inr (LogStore.kindAt_eq_some.mpr ⟨_, hget, Record.kind_padding⟩)
  | some event =>
    rw [hslot] at hget
    exact .inl (LogStore.kindAt_eq_some.mpr ⟨_, hget, event.kind_encode⟩)

end LogGroup

namespace LogStore

section Trim

variable {groups : List LogGroup} {store : LogStore} {logs : LogList}

/-- Behind the last log of a layout there is only padding. -/
theorem Layout.padding_behind (layout : Layout groups) {i : Nat}
    (hnone : ∀ j, i ≤ j → kindAt (groups.flatMap LogGroup.records) j ≠ some .logRecord) {j : Nat}
    (hij : i ≤ j) (hj : j < (groups.flatMap LogGroup.records).length) :
    kindAt (groups.flatMap LogGroup.records) j = some .padding := by
  obtain ⟨k, hk, hplace, hsize⟩ := layout.place hj
  by_cases hfirst : j % checkpointSpacing < 2
  · -- a checkpoint and its hash have their log behind them
    have hfits : 2 < groups[k].size := by
      unfold LogGroup.size
      omega
    refine absurd ((layout.kindAt_group hk hfits).trans groups[k].kindAt_records_first) (hnone _ ?_)
    omega
  · obtain ⟨place, hslot⟩ : ∃ place, j % checkpointSpacing = place + 2 :=
      ⟨j % checkpointSpacing - 2, by omega⟩
    have hkind := layout.kindAt_group hk hsize
    rw [← hplace] at hkind
    rw [hslot] at hkind hsize
    rw [hkind]
    exact (groups[k].kindAt_records_slot hsize).resolve_left (hkind ▸ hnone j hij)

/-- Records among which no log is read have no record of a log. -/
theorem kindAt_ne_log {current : Position} {records : List Record}
    (h : logsIn current records = []) (i : Nat) : kindAt records i ≠ some .logRecord := by
  induction records generalizing current i with
  | nil => exact fun hkind => absurd (lt_of_kindAt hkind) (Nat.not_lt_zero i)
  | cons record rest ih =>
    rw [logsIn] at h
    have hrest : ∃ next, logsIn next rest = [] := by
      split at h
      · exact ⟨_, h⟩
      · cases h
      · exact ⟨_, h⟩
    obtain ⟨next, hrest⟩ := hrest
    cases i with
    | succ i => exact ih hrest i
    | zero =>
      intro hkind
      obtain ⟨_, hget, hrecord⟩ := kindAt_eq_some.mp hkind
      cases hget
      simp [hrecord] at h

/-- Records that spell no more logs than a first part of them have no record of a log behind it. -/
theorem kindAt_behind {first records : List Record} (hinitial : first <+: records)
    (hsame : logsIn .origin records = logsIn .origin first) {i : Nat} (hi : first.length ≤ i) :
    kindAt records i ≠ some .logRecord := by
  obtain ⟨rest, rfl⟩ := hinitial
  obtain ⟨j, rfl⟩ := Nat.exists_eq_add_of_le hi
  rw [logsIn_append] at hsame
  rw [kindAt_append_right]
  exact kindAt_ne_log (List.append_right_eq_self.mp hsame) j

theorem kindAt_of_initial {first second : List Record} (hinitial : first <+: second) {i : Nat}
    {kind : RecordKind} (h : kindAt first i = some kind) : kindAt second i = some kind := by
  obtain ⟨rest, rfl⟩ := hinitial
  rw [kindAt_append_left _ (lt_of_kindAt h), h]

theorem kindAt_last {records : List Record} (hne : records ≠ []) :
    kindAt records (records.length - 1) = (records.getLast hne).kind.toOption := by
  rw [kindAt, ← List.getLast?_eq_getElem?, List.getLast?_eq_some_getLast hne]
  rfl

/-- The records up to the last one that is not padding. -/
def trimmed (store : LogStore) : List Record :=
  store.records.toList.rdropWhile fun record => record.kind.toOption = some .padding

theorem trimmed_eq_self_iff : store.trimmed = store.records.toList ↔
    kindAt store.records.toList (store.count - 1) ≠ some .padding := by
  rw [trimmed, List.rdropWhile_eq_self_iff, count, ← Array.length_toList]
  constructor
  · intro hlast hpadding
    have hne : store.records.toList ≠ [] :=
      List.ne_nil_of_length_pos (Nat.zero_lt_of_lt (lt_of_kindAt hpadding))
    rw [kindAt_last hne] at hpadding
    exact hlast hne (decide_eq_true hpadding)
  · intro hpadding hne hlast
    rw [kindAt_last hne] at hpadding
    exact hpadding (of_decide_eq_true hlast)

/-- Records that come first, spell all the logs and end with one are those in front of the padding. -/
theorem Represents.trimmed_eq (h : Represents store logs) {first : List Record}
    (hinitial : first <+: store.records.toList) (hlogs : logsIn .origin first = logs)
    (hlast : ∀ last, first.length = last + 1 → kindAt first last = some .logRecord) :
    store.trimmed = first := by
  obtain ⟨groups, layout, hrecords, -⟩ := h.laid
  have hsame : logsIn .origin store.records.toList = logsIn .origin first := by
    rw [h.logsIn_eq, hlogs]
  have hkind : ∀ i, first.length ≤ i → i < store.records.toList.length →
      kindAt store.records.toList i = some .padding := by
    intro i hle hlt
    rw [hrecords] at hsame hinitial hlt ⊢
    exact layout.padding_behind (fun j hj => kindAt_behind hinitial hsame hj) hle hlt
  obtain ⟨rest, hrest⟩ := hinitial
  have hpadding : ∀ record ∈ rest, record.kind.toOption = some .padding := by
    intro record hmem
    obtain ⟨i, hi, rfl⟩ := List.mem_iff_getElem.mp hmem
    have hi' := hkind (first.length + i) (Nat.le_add_right _ _)
      (by rw [← hrest, List.length_append]; omega)
    rwa [← hrest, kindAt_append_right, kindAt, List.getElem?_eq_getElem hi] at hi'
  rw [trimmed, ← hrest, List.rdropWhile, List.reverse_append, List.dropWhile_append_of_pos,
    ← List.rdropWhile, List.rdropWhile_eq_self_iff]
  · intro hne hlogRecord
    have hkind := hlast (first.length - 1) (Nat.succ_pred_eq_of_pos (List.length_pos_iff.mpr hne)).symm
    rw [kindAt_last hne] at hkind
    cases hkind.symm.trans (of_decide_eq_true hlogRecord)
  · intro record hmem
    exact decide_eq_true (hpadding record (List.mem_reverse.mp hmem))

end Trim

end LogStore

end CrossSafety
