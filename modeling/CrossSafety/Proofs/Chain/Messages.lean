import CrossSafety.Proofs.Chain.Lookup
import CrossSafety.Proofs.Chain.SealedLogs

/-!
# Where sealed blocks execute messages

A sealed block lists the messages that it executes by the positions of the executing logs. These came
with the logs that the block was sealed with, so they lie below its count. The count is zero for a
block without logs, and also for one with a log for every index, where no position lies below it; no
log is ever found in either of them.
-/
namespace CrossSafety

/-- If the block counts any logs, those that execute messages are among them. -/
def SealedBlock.Placed (sealed : SealedBlock) : Prop :=
  sealed.hasLogs = true → ∀ logIndex message, sealed.messages.get? logIndex = some message →
    logIndex < sealed.logCount

namespace Ledger

variable {state other : Ledger} {block : BlockRef} {fresh : List Log}

/-- A message of a block was brought by one of its logs. -/
theorem exists_log_of_sealedWith {logIndex : UInt32} {message : ExecutingMessage}
    (h : (sealedWith block fresh).messages.get? logIndex = some message) :
    ∃ log ∈ fresh, log.index = logIndex ∧ log.message = some message := by
  -- the last log that has the index decides
  induction fresh using List.reverseRecOn with
  | nil => cases h
  | append_singleton rest log ih =>
    have hrest (h : (sealedWith block rest).messages.get? logIndex = some message) :
        ∃ found ∈ rest ++ [log], found.index = logIndex ∧ found.message = some message := by
      obtain ⟨found, hmem, hfound⟩ := ih h
      exact ⟨found, List.mem_append_left _ hmem, hfound⟩
    simp only [sealedWith, List.foldl_append, List.foldl_cons, List.foldl_nil] at h
    split at h
    · rename_i executed hlog
      by_cases heq : logIndex = log.index
      · subst heq
        cases Table.get?_insert_self.symm.trans h
        exact ⟨log, List.mem_append_right _ List.mem_cons_self, rfl, hlog⟩
      · exact hrest ((Table.get?_insert_of_ne heq).symm.trans h)
    · exact hrest h

/-- A block is placed whose logs count from zero on. -/
theorem sealedWith_placed (h : ∀ i (hi : i < fresh.length), fresh[i].index.toNat = i) :
    (sealedWith block fresh).Placed := by
  intro hlogs logIndex message hmessage
  have hlength : fresh.length < 4294967296 := by
    refine Nat.lt_of_le_of_ne (length_le_of_index_eq h) fun hfull => ?_
    rw [SealedBlock.hasLogs, sealedWith, hfull] at hlogs
    cases hlogs
  obtain ⟨log, hmem, rfl, -⟩ := exists_log_of_sealedWith hmessage
  obtain ⟨i, hi, rfl⟩ := List.getElem_of_mem hmem
  rw [sealedWith_logCount hlength, h i hi]
  exact hi

theorem bare_placed (block : BlockRef) : (SealedBlock.bare block).Placed :=
  fun hlogs => nomatch hlogs

/-- All sealed blocks are placed. -/
def Placed (state : Ledger) : Prop :=
  ∀ number sealed, state.blocks.get? number = some sealed → sealed.Placed

/-- Blocks may be dropped. -/
theorem Placed.of_kept (h : state.Placed) (hkept : ∀ number sealed,
    other.blocks.get? number = some sealed → state.blocks.get? number = some sealed) :
    other.Placed :=
  fun number sealed hget => h number sealed (hkept number sealed hget)

/-- An allowed write of logs that follow the stored ones leaves all blocks placed. -/
theorem Placed.apply (h : state.Placed) (hkeyed : state.Keyed) {logs : LogList}
    (hbelow : ∀ entry ∈ logs, entry.position.block ≤ state.latestNumber) {operation : Operation}
    {change : Change} (hallows : state.Allows operation change)
    (hordered : (state.logsAfter logs operation).Ordered .origin) :
    (state.apply change).Placed := by
  cases hallows with
  | initialise anchor =>
    intro number sealed hget
    rcases Table.eq_or_get?_of_insertNew hget with rfl | hget
    · exact bare_placed anchor.derived
    · exact h number sealed hget
  | «seal» block fresh next =>
    have hindex := index_eq_of_new hbelow hordered (latestNumber_lt hkeyed next)
    intro number sealed hget
    rcases Table.eq_or_get?_of_insert hget with rfl | hget
    · exact sealedWith_placed hindex
    · exact h number sealed hget
  | invalidate candidate =>
    refine h.of_kept fun number sealed hget => ?_
    rw [apply_invalidate_blocks] at hget
    split at hget
    · exact Table.get?_of_below hget
    · exact hget
  | rewindLocalUnsafe => exact h.of_kept fun _ _ hget => Table.get?_of_below hget
  | rewindLocalSafe target =>
    exact h.of_kept fun _ _ hget => (dropLocalSafeFrom_blocks (target.number + 1)) ▸ hget
  | _ => exact h

end Ledger

namespace ChainStore

variable {store : ChainStore} {told : UInt64 → List Log}

/-- A write leaves all blocks placed, whether it succeeds or not. -/
theorem Traced.placed_perform (h : store.Traced told) (hplaced : store.state.Placed)
    (operation : Operation) : (store.perform operation).store.state.Placed := by
  obtain ⟨logs, hlisted, -⟩ := h.exists_listed
  rcases perform_cases hlisted operation with
    ⟨kept, observed, result, -, hperform⟩ | ⟨change, hallows, kept, observed, hkept, hperform⟩
  · rw [hperform]
    exact hplaced
  · rw [hperform]
    exact hplaced.apply hlisted.keyed hlisted.below hallows hkept.ordered

/-- A log that is found lies in a block that counts it, and so do the executing logs of that block. -/
theorem contains_placed (hplaced : store.state.Placed) {query : LogQuery} {block : BlockSeal}
    (h : store.contains query = .ok block) {opened : BlockContents}
    (hopened : store.state.blockAt query.blockNumber = .ok opened) :
    query.logIndex < opened.logCount ∧
      ∀ logIndex message, opened.messages.get? logIndex = some message →
        logIndex < opened.logCount := by
  obtain ⟨sealed, hsealed, hlt, -, -⟩ := contains_eq_ok.mp h
  obtain ⟨-, hget, -⟩ := Ledger.blockOfQuery_eq_ok.mp hsealed
  obtain ⟨found, hfound, rfl⟩ := Ledger.blockAt_eq_ok.mp hopened
  cases hget.symm.trans hfound
  have hlogs : sealed.hasLogs = true := by
    rw [SealedBlock.hasLogs, decide_eq_true_iff]
    exact UInt32.lt_of_le_of_lt (UInt32.zero_le) hlt
  exact ⟨hlt, hplaced _ _ hget hlogs⟩

end ChainStore

end CrossSafety
