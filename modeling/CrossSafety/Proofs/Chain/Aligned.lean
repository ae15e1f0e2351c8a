import CrossSafety.Proofs.Chain.Perform

/-!
# Logs and sealed blocks stay in line

Every write that stays in range keeps the stored logs those of the sealed blocks. A block is sealed
with logs that were added from index zero on, and blocks and logs are dropped down to the same
number.
-/
namespace CrossSafety

namespace LogList

theorem mem_ofBlock {number : UInt64} {fresh : List Log} {position : Position}
    {hash : ShortHash} : ⟨position, hash⟩ ∈ ofBlock number fresh ↔
      ∃ log ∈ fresh, position = ⟨number, log.index⟩ ∧ hash = log.hash.short := by
  simp only [ofBlock, List.mem_map, LogEntry.mk.injEq]
  constructor
  · rintro ⟨log, hmem, rfl, rfl⟩
    exact ⟨log, hmem, rfl, rfl⟩
  · rintro ⟨log, hmem, rfl, rfl⟩
    exact ⟨log, hmem, rfl, rfl⟩

theorem Ordered.index_after {number : UInt64} {fresh : List Log} :
    ∀ {index : UInt32}, Ordered ⟨number, index⟩ (ofBlock number fresh) →
      ∀ i (hi : i < fresh.length), fresh[i].index.toNat = index.toNat + 1 + i := by
  induction fresh with
  | nil => exact fun _ i hi => absurd hi (Nat.not_lt_zero i)
  | cons log fresh ih =>
    intro index h i hi
    have hnext : log.index.toNat = index.toNat + 1 := by
      rcases h.1.2 with ⟨-, hmax, heq⟩ | ⟨hlt, -⟩
      · rw [← Position.index_succ_toNat hmax, ← heq]
      · exact absurd hlt (UInt64.lt_irrefl _)
    cases i with
    | zero => exact hnext
    | succ i =>
      have hrest := ih h.2 i (Nat.lt_of_succ_lt_succ hi)
      rw [List.getElem_cons_succ, hrest, hnext]
      omega

theorem Ordered.index_eq {start : Position} {number : UInt64} {fresh : List Log}
    (h : Ordered start (ofBlock number fresh)) (hlt : start.block < number) :
    ∀ i (hi : i < fresh.length), fresh[i].index.toNat = i := by
  cases fresh with
  | nil => exact fun i hi => absurd hi (Nat.not_lt_zero i)
  | cons log fresh =>
    have hfirst : log.index = 0 := by
      rcases h.1.2 with ⟨heq, -⟩ | ⟨-, hzero⟩
      · exact absurd heq (UInt64.ne_of_lt hlt).symm
      · exact hzero
    intro i hi
    cases i with
    | zero =>
      rw [List.getElem_cons_zero, hfirst]
      rfl
    | succ i =>
      have hrest := h.2.index_after i (Nat.lt_of_succ_lt_succ hi)
      rw [List.getElem_cons_succ, hrest, hfirst, UInt32.toNat_zero]
      omega

theorem mem_rewind {logs : LogList} {block : UInt64} {entry : LogEntry} :
    entry ∈ logs.rewind block ↔ entry ∈ logs ∧ entry.position.block ≤ block := by
  rw [rewind, List.mem_filter, decide_eq_true_iff]

end LogList

namespace Ledger

variable {state : Ledger} {logs : LogList}

@[simp] theorem dropBlocksAbove_blocks (number : UInt64) :
    (state.dropBlocksAbove number).blocks = state.blocks.below (number + 1) := rfl

@[simp] theorem dropLocalSafeFrom_blocks (number : UInt64) :
    (state.dropLocalSafeFrom number).blocks = state.blocks := by
  unfold dropLocalSafeFrom
  dsimp only
  split <;> rfl

theorem apply_invalidate (derived : BlockRef) :
    state.apply (.invalidate derived) =
      { (if state.Drops derived then state.dropBlocksAbove (derived.number - 1)
          else state).dropLocalSafeFrom derived.number with
        invalidated := some derived.toSeal } := rfl

theorem apply_invalidate_blocks (derived : BlockRef) :
    (state.apply (.invalidate derived)).blocks =
      if state.Drops derived then state.blocks.below derived.number else state.blocks := by
  have hnumber : derived.number - 1 + 1 = derived.number := UInt64.sub_add_cancel _ _
  rw [apply_invalidate]
  dsimp only
  rw [dropLocalSafeFrom_blocks]
  split
  · rw [dropBlocksAbove_blocks, hnumber]
  · rfl

theorem get?_below_succ {α : Type} {table : Table UInt64 α} {number : UInt64}
    (h : number < maxNumber) (other : UInt64) :
    (table.below (number + 1)).get? other = if other ≤ number then table.get? other else none := by
  have hsucc := toNat_succ_of_lt_max h
  have hiff : Numbered.number other < Numbered.number (number + 1) ↔ other ≤ number := by
    show other.toNat < (number + 1).toNat ↔ _
    rw [hsucc, UInt64.le_iff_toNat_le, Nat.lt_succ_iff]
  rw [Table.get?_below]
  simp only [hiff]

/-- A cut behind a number changes nothing if nothing lies there. -/
theorem below_succ_eq_self {α : Type} {table : Table UInt64 α} {number : UInt64}
    (h : number < maxNumber)
    (hbelow : ∀ key value, table.get? key = some value → key ≤ number) :
    table.below (number + 1) = table := by
  refine Table.below_eq_self fun key value hget => ?_
  show key.toNat < (number + 1).toNat
  rw [toNat_succ_of_lt_max h]
  exact Nat.lt_succ_of_le (UInt64.le_iff_toNat_le.mp (hbelow key value hget))

theorem Keyed.below (h : state.Keyed) {other : Ledger} {number : UInt64}
    (hblocks : other.blocks = state.blocks.below number) : other.Keyed := by
  intro key sealed hget
  rw [hblocks, Table.get?_below] at hget
  split at hget
  · exact h key sealed hget
  · cases hget

/-- Dropping blocks and logs above a number leaves the logs of the sealed blocks. -/
theorem Covers.rewind (h : state.Covers logs) {other : Ledger} {number : UInt64}
    (hmax : number < maxNumber) (hblocks : other.blocks = state.blocks.below (number + 1)) :
    other.Covers (logs.rewind number) := by
  intro position
  rw [hblocks, get?_below_succ hmax]
  simp only [LogList.mem_rewind]
  by_cases hle : position.block ≤ number
  · simp only [hle, and_true, if_true]
    exact h position
  · simp [hle]

theorem sealedWith_logCount {block : BlockRef} {fresh : List Log} {index : UInt32}
    (h : fresh.length < 4294967296) :
    index < (sealedWith block fresh).logCount ↔ index.toNat < fresh.length := by
  have hcount : (sealedWith block fresh).logCount.toNat = fresh.length := by
    rw [sealedWith, UInt32.toNat_ofNat']
    exact Nat.mod_eq_of_lt h
  rw [UInt32.lt_iff_toNat_lt, hcount]

/-- A block has at most one log for every index. -/
theorem length_le_of_index_eq {fresh : List Log}
    (h : ∀ i (hi : i < fresh.length), fresh[i].index.toNat = i) : fresh.length ≤ 4294967296 := by
  refine Nat.le_of_not_lt fun hlt => ?_
  have hlast := (fresh[4294967296]).index.toNat_lt
  rw [h _ hlt] at hlast
  exact absurd hlast (Nat.lt_irrefl _)

/-- The logs of a new block count from zero on, because each follows the one before it. -/
theorem index_eq_of_new {block : BlockRef} {fresh : List Log}
    (hbelow : ∀ entry ∈ logs, entry.position.block ≤ state.latestNumber)
    (hordered : LogList.Ordered .origin (logs ++ .ofBlock block.number fresh))
    (hnew : state.latestNumber < block.number ∨ block.number = 0) :
    ∀ i (hi : i < fresh.length), fresh[i].index.toNat = i := by
  obtain ⟨hlogs, hfresh⟩ := LogList.ordered_append.mp hordered
  rcases hnew with hlt | hzero
  · exact hfresh.index_eq (UInt64.lt_of_le_of_lt (LogList.head_block_le hbelow) hlt)
  · cases fresh with
    | nil => exact fun i hi => absurd hi (Nat.not_lt_zero i)
    | cons log rest => exact absurd hzero hfresh.1.1

/-- A block that is sealed brings its logs with it. -/
theorem Covers.seal (h : state.Covers logs) (hkeyed : state.Keyed) {block : BlockRef}
    {fresh : List Log} (hordered : LogList.Ordered .origin (logs ++ .ofBlock block.number fresh))
    (hnew : state.latestNumber < block.number ∨ block.number = 0)
    (hnone : state.blocks.get? block.number = none) (hcount : fresh.length ≠ 4294967296) :
    (state.apply (.seal (sealedWith block fresh))).Covers
      (logs ++ .ofBlock block.number fresh) := by
  have hindex : ∀ i (hi : i < fresh.length), fresh[i].index.toNat = i :=
    index_eq_of_new (block_le_latestNumber hkeyed h) hordered hnew
  have hlength : fresh.length < 4294967296 :=
    Nat.lt_of_le_of_ne (length_le_of_index_eq hindex) hcount
  intro position
  have hblocks : (state.apply (.seal (sealedWith block fresh))).blocks =
      state.blocks.insert block.number (sealedWith block fresh) := rfl
  rw [hblocks]
  by_cases heq : position.block = block.number
  · have hold : ¬∃ hash, (⟨position, hash⟩ : LogEntry) ∈ logs := fun hmem => by
      obtain ⟨sealed, hget, -⟩ := (h position).mp hmem
      rw [heq, hnone] at hget
      cases hget
    rw [heq, Table.get?_insert_self]
    constructor
    · rintro ⟨hash, hmem⟩
      obtain ⟨log, hlog, rfl, -⟩ := LogList.mem_ofBlock.mp
        ((List.mem_append.mp hmem).resolve_left fun hmem => hold ⟨hash, hmem⟩)
      obtain ⟨i, hi, rfl⟩ := List.getElem_of_mem hlog
      exact ⟨_, rfl, (sealedWith_logCount hlength).mpr (by rw [hindex i hi]; exact hi)⟩
    · rintro ⟨sealed, hsealed, hlt⟩
      cases hsealed
      have hi := (sealedWith_logCount hlength).mp hlt
      refine ⟨fresh[position.index.toNat].hash.short, List.mem_append_right _
        (LogList.mem_ofBlock.mpr ⟨_, List.getElem_mem hi, ?_, rfl⟩)⟩
      have hposition := UInt32.toNat_inj.mp (hindex _ hi)
      rw [hposition, ← heq]
  · rw [Table.get?_insert_of_ne heq, ← h position]
    have hnot : ∀ hash, (⟨position, hash⟩ : LogEntry) ∉ LogList.ofBlock block.number fresh := by
      intro hash hmem
      obtain ⟨log, -, rfl, -⟩ := LogList.mem_ofBlock.mp hmem
      exact heq rfl
    simp only [List.mem_append, hnot, or_false]

/-- The anchor of a chain is stored without logs, unless it is sealed already. -/
theorem Covers.initialise (h : state.Covers logs) (anchor : DerivedPair) :
    (state.apply (.initialise anchor)).Covers logs := by
  intro position
  have hblocks : (state.apply (.initialise anchor)).blocks =
      state.blocks.insertNew anchor.derived.number (.bare anchor.derived) := rfl
  rw [hblocks, h position]
  by_cases heq : position.block = anchor.derived.number
  · rw [heq, Table.get?_insertNew_self]
    cases hget : state.blocks.get? anchor.derived.number with
    | none =>
      simp only [Option.getD_none, Option.some.injEq, exists_eq_left']
      constructor
      · rintro ⟨sealed, hnone, -⟩
        cases hnone
      · exact fun hlt => absurd hlt UInt32.not_lt_zero
    | some sealed => simp
  · rw [Table.get?_insertNew_of_ne heq]

end Ledger

namespace ChainStore

variable {store : ChainStore} {logs : LogList}

theorem Aligned.of_leaves (h : store.Aligned logs) {operation : Operation}
    (hleaves : store.Leaves logs operation) : (store.perform operation).store.Aligned logs := by
  obtain ⟨kept, observed, result, hkept, hperform⟩ := hleaves
  rw [hperform]
  exact ⟨hkept, h.keyed, h.covers⟩

theorem keyed_apply (h : store.state.Keyed) {operation : Operation} {change : Change}
    (hnumbered : operation.Numbered) (hallows : store.state.Allows operation change) :
    (store.state.apply change).Keyed := by
  cases hallows with
  | initialise anchor fresh sealed unsealed source derived underived =>
    intro number known hget
    change (store.state.blocks.insertNew _ _).get? number = _ at hget
    by_cases heq : number = anchor.derived.number
    · subst heq
      rw [Table.get?_insertNew_self] at hget
      cases hold : store.state.blocks.get? anchor.derived.number with
      | none =>
        rw [hold] at hget
        cases hget
        exact ⟨rfl, hnumbered⟩
      | some existing =>
        rw [hold] at hget
        cases hget
        exact h _ _ hold
    · rw [Table.get?_insertNew_of_ne heq] at hget
      exact h number known hget
  | «seal» block fresh next =>
    intro number known hget
    change (store.state.blocks.insert block.number _).get? number = _ at hget
    by_cases heq : number = block.number
    · subst heq
      rw [Table.get?_insert_self] at hget
      cases hget
      exact ⟨rfl, hnumbered⟩
    · rw [Table.get?_insert_of_ne heq] at hget
      exact h number known hget
  | invalidate candidate known recorded hash above parent =>
    have hblocks : (store.state.apply (.invalidate candidate.derived)).blocks = _ :=
      Ledger.apply_invalidate_blocks candidate.derived
    by_cases hdrops : store.state.Drops candidate.derived
    · rw [if_pos hdrops] at hblocks
      exact h.below hblocks
    · rw [if_neg hdrops] at hblocks
      intro number sealed hget
      exact h number sealed (hblocks ▸ hget)
  | rewindLocalUnsafe target sealed above known => exact h.below rfl
  | rewindLocalSafe target checked =>
    have hblocks : (store.state.apply (.rewindLocalSafe target.number)).blocks =
        store.state.blocks := Ledger.dropLocalSafeFrom_blocks _
    intro number sealed hget
    exact h number sealed (hblocks ▸ hget)
  | _ => exact h

theorem sealedBlock_get? {state : Ledger} {block : BlockId} {sealed : SealedBlock}
    (h : state.sealedBlock block = .ok sealed) :
    state.blocks.get? block.number = some sealed ∧ sealed.block.hash = block.hash := by
  unfold Ledger.sealedBlock at h
  split at h
  · cases h
  · rename_i known hget
    split at h
    · rename_i hhash
      cases h
      exact ⟨hget, hhash⟩
    · cases h

theorem covers_apply (h : store.Aligned logs) {operation : Operation} {change : Change}
    (hrange : operation.InRange) (hallows : store.state.Allows operation change)
    (hordered : (store.state.logsAfter logs operation).Ordered .origin) :
    (store.state.apply change).Covers (store.state.logsAfter logs operation) := by
  cases hallows with
  | initialise anchor => exact h.covers.initialise anchor
  | «seal» block fresh next =>
    have hnone : store.state.blocks.get? block.number = none := by
      cases hlast : store.state.latest? with
      | none => exact Table.last?_eq_none.mp hlast _
      | some latest => exact (next latest hlast).1
    exact h.covers.seal h.keyed hordered (Ledger.latestNumber_lt h.keyed next) hnone hrange.2
  | invalidate candidate known recorded hash above parent =>
    have hblocks : (store.state.apply (.invalidate candidate.derived)).blocks = _ :=
      Ledger.apply_invalidate_blocks candidate.derived
    by_cases hdrops : store.state.Drops candidate.derived
    · obtain ⟨sealed, hget⟩ := Table.contains_iff.mp hdrops.2
      have hmax := (h.keyed _ _ hget).2
      have hparent : candidate.derived.parentId.number = candidate.derived.number - 1 :=
        if_neg hdrops.1
      have hnumber : candidate.derived.number - 1 + 1 = candidate.derived.number :=
        UInt64.sub_add_cancel _ _
      rw [if_pos hdrops, ← hnumber] at hblocks
      rw [Ledger.logsAfter, if_pos hdrops, hparent]
      refine h.covers.rewind (UInt64.lt_of_le_of_lt ?_ hmax) hblocks
      rw [UInt64.le_iff_toNat_le, toNat_pred hdrops.1]
      exact Nat.sub_le _ _
    · rw [if_neg hdrops] at hblocks
      rw [Ledger.logsAfter, if_neg hdrops]
      intro position
      rw [hblocks]
      exact h.covers position
  | rewindLocalUnsafe target sealed above known =>
    exact h.covers.rewind (h.keyed _ _ (sealedBlock_get? known).1).2 rfl
  | rewindLocalSafe target checked =>
    have hblocks : (store.state.apply (.rewindLocalSafe target.number)).blocks =
        store.state.blocks := Ledger.dropLocalSafeFrom_blocks _
    intro position
    rw [hblocks]
    exact h.covers position
  | _ => exact h.covers

theorem Aligned.of_makes (h : store.Aligned logs) {operation : Operation} {change : Change}
    (hrange : operation.InRange) (hmakes : store.Makes logs operation change) :
    (store.perform operation).store.Aligned (store.state.logsAfter logs operation) := by
  obtain ⟨hallows, kept, observed, hkept, hperform⟩ := hmakes
  rw [hperform]
  exact ⟨hkept, keyed_apply h.keyed hrange.numbered hallows,
    covers_apply h hrange hallows hkept.ordered⟩

/-- A write that stays in range keeps logs and sealed blocks in line. -/
theorem Aligned.perform (h : store.Aligned logs) {operation : Operation}
    (hrange : operation.InRange) : ∃ after, (store.perform operation).store.Aligned after := by
  rcases perform_cases h.listed operation with hleaves | ⟨change, hmakes⟩
  · exact ⟨logs, h.of_leaves hleaves⟩
  · exact ⟨_, h.of_makes hrange hmakes⟩

end ChainStore

end CrossSafety
