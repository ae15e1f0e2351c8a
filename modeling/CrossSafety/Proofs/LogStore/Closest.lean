import CrossSafety.Proofs.LogStore.Written

/-!
# The closest block with a checkpoint

A store is asked for the last block up to a number that has a checkpoint. The search behind the answer
looks for the highest position of that block, so it gives the last checkpoint whose block is at most
the number. The hash behind the checkpoint is that of the block whose log wrote it.
-/
namespace CrossSafety

/-- The highest position of a block is above those of the block and of the blocks before it. -/
theorem Position.highest_lt_iff {block : UInt64} {position : Position} :
    (⟨block, 0xFFFFFFFF⟩ : Position) < position ↔ block < position.block := by
  have hindex := position.index.toNat_lt
  have hhighest : (0xFFFFFFFF : UInt32).toNat = 4294967295 := rfl
  rw [lt_def, rank, rank, UInt64.lt_iff_toNat_lt]
  simp only [hhighest]
  omega

namespace LogStore

section Store

variable {store : LogStore} {logs : LogList}

/-- The closest block is that of the last checkpoint up to it, with the hash behind the checkpoint. -/
theorem Represents.closestBlock_cases (h : Represents store logs) (block : UInt64) :
    store.closestBlock block = .error (.notFound (.checkpoint block)) ∧
        (∀ i checkpoint, checkpointAt store.records i = .ok checkpoint →
          block < checkpoint.block) ∨
      ∃ i checkpoint hash, LastUpTo store.records ⟨block, 0xFFFFFFFF⟩ i checkpoint ∧
        (recordAt store.records (i + 1) >>= ShortHash.decode (i + 1)) = .ok hash ∧
        store.closestBlock block = .ok (checkpoint.block, hash) := by
  rcases h.findCheckpoint_cases ⟨block, 0xFFFFFFFF⟩ with ⟨hfind, habove⟩ | ⟨i, checkpoint, hfind, hlast⟩
  · refine .inl ⟨?_, fun i checkpoint hread => Position.highest_lt_iff.mp (habove i checkpoint hread)⟩
    rw [closestBlock, hfind]
    rfl
  · obtain ⟨⟨hash, hhash⟩, -⟩ := h.opened hlast.read
    refine .inr ⟨i, checkpoint, hash, hlast, hhash, ?_⟩
    obtain ⟨record, hrecord, hdecode⟩ := Outcome.bind_eq_ok.mp hhash
    rw [closestBlock, hfind, Outcome.ok_bind]
    simp only
    rw [hlast.read, Outcome.ok_bind, hrecord, Outcome.ok_bind, hdecode]
    rfl

/-- The log at a checkpoint is in a block up to the last one. -/
theorem Represents.checkpoint_le_last (h : Represents store logs) {i : Nat} {checkpoint : Checkpoint}
    (hread : checkpointAt store.records i = .ok checkpoint) :
    ∃ last, store.latest = some last ∧ checkpoint.block ≤ last.block := by
  obtain ⟨-, hash, -, hmem⟩ := h.opened hread
  refine ⟨logs.head, ?_, h.ordered.block_le_head _ hmem⟩
  rw [h.latest_eq, LogList.latest_eq, if_neg (List.ne_nil_of_mem hmem)]

/-- Where all logs are in blocks up to a number, so is the closest block. -/
theorem Represents.closestBlock_le (h : Represents store logs) {top block number : UInt64}
    {hash : ShortHash} (hall : ∀ entry ∈ logs, entry.position.block ≤ top)
    (hfound : store.closestBlock block = .ok (number, hash)) : number ≤ top := by
  rcases h.closestBlock_cases block with ⟨hnone, -⟩ | ⟨i, checkpoint, _, hlast, -, hclosest⟩
  · cases hnone.symm.trans hfound
  · cases hclosest.symm.trans hfound
    obtain ⟨-, _, -, hmem⟩ := h.opened hlast.read
    exact hall _ hmem

end Store

end LogStore

namespace LogFile

open LogStore

/-- A block is the last one up to a number that has a checkpoint: the last checkpoint up to the number
was written by the addition of a log of this block. -/
structure Closest (requests : List Request) (store : LogStore) (limit : UInt64) (block : BlockId) :
    Prop where
  written : ∃ i checkpoint, checkpointAt store.records i = .ok checkpoint ∧
    checkpoint.block = block.number ∧ Wrote requests i block ∧
    ∀ j later, i < j → checkpointAt store.records j = .ok later → limit < later.block
  le_limit : block.number ≤ limit
  /-- No checkpoint lies in a block between this one and the number. -/
  none_between : ∀ i checkpoint, checkpointAt store.records i = .ok checkpoint →
    checkpoint.block ≤ block.number ∨ limit < checkpoint.block
  le_last : ∃ last, store.latest = some last ∧ block.number ≤ last.block

/-- The last checkpoint up to a number belongs to the closest block. -/
theorem exists_closest {requests : List Request} {store : LogStore} {logs : LogList} {limit : UInt64}
    {i : Nat} {checkpoint : Checkpoint} (hstore : (empty.reopen.2.run requests).store = some store)
    (hrep : store.Represents logs)
    (hlast : LastUpTo store.records ⟨limit, 0xFFFFFFFF⟩ i checkpoint) :
    ∃ block, Closest requests store limit block ∧ checkpoint.block = block.number ∧
      (recordAt store.records (i + 1) >>= ShortHash.decode (i + 1)) = .ok block.hash.short := by
  obtain ⟨block, hwrote, hnumber, hsigned⟩ :=
    signed_run requests store hstore i checkpoint hlast.read
  have hle : checkpoint.block ≤ limit :=
    UInt64.not_lt.mp fun hlt => hlast.reached (Position.highest_lt_iff.mpr hlt)
  have hlater : ∀ j later, i < j → checkpointAt store.records j = .ok later →
      limit < later.block :=
    fun j later hlt hread => Position.highest_lt_iff.mp (hlast.last j later hlt hread)
  have hbetween : ∀ j other, checkpointAt store.records j = .ok other →
      other.block ≤ block.number ∨ limit < other.block := by
    intro j other hread
    rw [← hnumber]
    rcases Nat.lt_trichotomy j i with hlt | rfl | hlt
    · exact .inl (Position.block_le_of_lt (hrep.checkpoint_ascending hlt hread hlast.read))
    · cases hread.symm.trans hlast.read
      exact .inl (UInt64.le_refl _)
    · exact .inr (hlater j other hlt hread)
  exact ⟨block, ⟨⟨i, checkpoint, hlast.read, hnumber, hwrote, hlater⟩, hnumber ▸ hle, hbetween,
    hnumber ▸ hrep.checkpoint_le_last hlast.read⟩, hnumber, hsigned⟩

/-- After any requests to a new file, the closest block is not found exactly if all checkpoints are
above the number. Otherwise it is the block of the last checkpoint up to the number, with the hash
that the addition that wrote the checkpoint was given. After a rewind it is never above the rewind's
block. -/
theorem closest_run (requests : List Request) (limit : UInt64) :
    let file := empty.reopen.2.run requests
    ∃ store, file.store = some store ∧
      ((∀ i checkpoint, checkpointAt store.records i = .ok checkpoint → limit < checkpoint.block) ∧
          store.closestBlock limit = .error (.notFound (.checkpoint limit)) ∨
        ∃ block, Closest requests store limit block ∧
          store.closestBlock limit = .ok (block.number, block.hash.short)) ∧
      ∀ top, ∃ rewound, (file.rewind top).2.store = some rewound ∧
        ∀ number found hash, rewound.closestBlock number = .ok (found, hash) → found ≤ top := by
  intro file
  obtain ⟨store, hstore, hrep⟩ := holds_run holds_empty requests
  refine ⟨store, hstore, ?_, fun top => ⟨_, rewind_store hstore top, ?_⟩⟩
  · rcases hrep.closestBlock_cases limit with
      ⟨hnone, habove⟩ | ⟨i, checkpoint, hash, hlast, hhash, hfound⟩
    · exact .inl ⟨habove, hnone⟩
    · obtain ⟨block, hclosest, hnumber, hsigned⟩ := exists_closest hstore hrep hlast
      cases hhash.symm.trans hsigned
      exact .inr ⟨block, hclosest, by rw [hfound, hnumber]⟩
  · obtain ⟨dropped, kept, hrewind, hkept⟩ := represents_rewind hrep top
    rw [hrewind]
    intro number found hash hfound
    exact hkept.closestBlock_le (fun _ hmem => of_decide_eq_true (List.mem_filter.mp hmem).2) hfound

end LogFile

end CrossSafety
