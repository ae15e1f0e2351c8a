import CrossSafety.Proofs.Chain.Aligned

/-!
# Blocks that are sealed

A block that may be sealed is sealed with any logs that are numbered from zero on: the log store takes
every one of them. So a seal fails only for what the indexes say or for how its logs are numbered.

A block may have a log for every index. These are more than it can count in 32 bits: the count is
zero again, although all its logs are stored.
-/
namespace CrossSafety

/-- Logs with one hash, numbered from zero on. -/
def Log.numbered (count : Nat) (hash : Hash) : List Log :=
  (List.range count).map fun i => ⟨UInt32.ofNat i, hash, none⟩

theorem Log.length_numbered (count : Nat) (hash : Hash) : (numbered count hash).length = count := by
  rw [numbered, List.length_map, List.length_range]

theorem Log.getElem?_numbered {count i : Nat} (h : i < count) (hash : Hash) :
    (numbered count hash)[i]? = some ⟨UInt32.ofNat i, hash, none⟩ := by
  rw [numbered, List.getElem?_map, List.getElem?_range h, Option.map_some]

theorem Log.index_numbered {count : Nat} {hash : Hash} (h : count ≤ 4294967296) :
    ∀ i (hi : i < (numbered count hash).length), (numbered count hash)[i].index.toNat = i := by
  intro i hi
  have hlt : i < count := by rwa [length_numbered] at hi
  simp only [numbered, List.getElem_map, List.getElem_range, UInt32.toNat_ofNat']
  exact Nat.mod_eq_of_lt (Nat.lt_of_lt_of_le hlt h)

namespace LogList

/-- Logs with the indexes behind one of the same block may follow it, one after the other. -/
theorem ordered_after {number : UInt64} (hzero : number ≠ 0) {fresh : List Log} :
    ∀ {index : UInt32}, (∀ i (hi : i < fresh.length), fresh[i].index.toNat = index.toNat + 1 + i) →
      Ordered ⟨number, index⟩ (ofBlock number fresh) := by
  induction fresh with
  | nil => exact fun _ => trivial
  | cons log fresh ih =>
    intro index hindex
    have hnext : log.index.toNat = index.toNat + 1 := hindex 0 (Nat.zero_lt_succ _)
    have hmax : index ≠ 0xFFFFFFFF := by
      rintro rfl
      have hlt := log.index.toNat_lt
      rw [hnext] at hlt
      exact absurd hlt (by decide)
    have hsucc : log.index = index + 1 :=
      UInt32.toNat_inj.mp (hnext.trans (Position.index_succ_toNat hmax).symm)
    refine ⟨⟨hzero, .inl ⟨rfl, hmax, hsucc⟩⟩, ih fun i hi => ?_⟩
    have hlater := hindex (i + 1) (Nat.succ_lt_succ hi)
    rw [List.getElem_cons_succ] at hlater
    rw [hlater, hnext]
    omega

/-- Logs with the indexes from zero on may follow any log of an earlier block. -/
theorem ordered_ofBlock {start : Position} {number : UInt64} (hlt : start.block < number)
    {fresh : List Log} (hindex : ∀ i (hi : i < fresh.length), fresh[i].index.toNat = i) :
    Ordered start (ofBlock number fresh) := by
  have hzero : number ≠ 0 := by
    rintro rfl
    exact UInt64.not_lt_zero hlt
  cases fresh with
  | nil => trivial
  | cons log fresh =>
    have hfirst : log.index = 0 := UInt32.toNat_inj.mp (hindex 0 (Nat.zero_lt_succ _))
    refine ⟨⟨hzero, .inr ⟨hlt, hfirst⟩⟩, ordered_after hzero fun i hi => ?_⟩
    have hlater := hindex (i + 1) (Nat.succ_lt_succ hi)
    rw [List.getElem_cons_succ] at hlater
    rw [hlater, hfirst, UInt32.toNat_zero]
    omega

/-- The last log of a block that has any is behind all others. -/
theorem latest_ofBlock {logs : LogList} {number : UInt64} {fresh : List Log} {index : UInt32}
    (hindex : ∀ i (hi : i < fresh.length), fresh[i].index.toNat = i)
    (hlength : fresh.length = index.toNat + 1) :
    (logs ++ ofBlock number fresh).latest = some ⟨number, index⟩ := by
  have hinside : index.toNat < fresh.length := by omega
  have hplace : fresh.length - 1 = index.toNat := by omega
  have hnumber : fresh[index.toNat].index = index := UInt32.toNat_inj.mp (hindex _ hinside)
  rw [latest, List.getLast?_append, ofBlock, List.getLast?_map, List.getLast?_eq_getElem?, hplace,
    List.getElem?_eq_getElem hinside]
  simp only [Option.map_some, Option.some_or, hnumber]

end LogList

namespace Ledger

/-- A block with a log for every index counts none, so only the blocks below it count logs. -/
theorem lt_of_counts_full {state : Ledger} (h : state.Keyed) {block : BlockRef} {fresh : List Log}
    (hlatest : state.latestNumber < block.number) (hfull : fresh.length = 4294967296)
    {number : UInt64} {sealed : SealedBlock}
    (hget : (state.apply (.seal (sealedWith block fresh))).blocks.get? number = some sealed)
    (hlogs : sealed.hasLogs = true) : number < block.number := by
  change (state.blocks.insert block.number _).get? number = _ at hget
  by_cases heq : number = block.number
  · have hnone : (sealedWith block fresh).logCount = 0 := by
      rw [sealedWith, hfull]
      rfl
    subst heq
    cases Table.get?_insert_self.symm.trans hget
    rw [SealedBlock.hasLogs, hnone] at hlogs
    cases hlogs
  · rw [Table.get?_insert_of_ne heq] at hget
    exact UInt64.lt_of_le_of_lt (latestNumber_le h hget) hlatest

end Ledger

namespace ChainStore

variable {store : ChainStore} {logs : LogList} {block : BlockRef} {fresh : List Log}

/-- A block that may be sealed is sealed with logs that are numbered from zero on. -/
theorem Listed.makes_seal (h : store.Listed logs)
    (hallows : store.state.Allows (.seal block fresh) (.seal (Ledger.sealedWith block fresh)))
    (hzero : block.number ≠ 0)
    (hindex : ∀ i (hi : i < fresh.length), fresh[i].index.toNat = i) :
    store.Makes logs (.seal block fresh) (.seal (Ledger.sealedWith block fresh)) := by
  have hlatest := Ledger.latestNumber_lt h.keyed (match hallows with | .seal _ _ next => next)
  have hhead : logs.head.block < block.number :=
    UInt64.lt_of_le_of_lt (LogList.head_block_le h.below) (hlatest.resolve_right hzero)
  have hordered : LogList.Ordered .origin (logs ++ .ofBlock block.number fresh) :=
    LogList.ordered_append.mpr ⟨h.represents.ordered, LogList.ordered_ofBlock hhead hindex⟩
  have hrep : store.logs.Represents (logs ++ []) := by
    rw [List.append_nil]
    exact h.represents
  have hsteps : store.state.logSteps (.seal block fresh) = addSteps block fresh := rfl
  have hcommit := takeAll_commit store store.state.latestNumber (addSteps block fresh)
    (.seal (Ledger.sealedWith block fresh))
  rcases takeAll_addSteps hlatest h.below fresh store [] hrep (by simp) with
    ⟨kept, observed, hkept, -, htake⟩ | ⟨hgap, -⟩
  · rw [List.append_nil] at hkept
    rw [htake] at hcommit
    refine ⟨hallows, kept, observed, hkept, ?_⟩
    rw [perform, Ledger.plan_of_allows hallows, hsteps]
    exact hcommit
  · rw [List.append_nil] at hgap
    exact absurd hordered hgap

theorem Listed.perform_seal (h : store.Listed logs)
    (hallows : store.state.Allows (.seal block fresh) (.seal (Ledger.sealedWith block fresh)))
    (hzero : block.number ≠ 0)
    (hindex : ∀ i (hi : i < fresh.length), fresh[i].index.toNat = i) :
    (store.perform (.seal block fresh)).result = .ok () := by
  obtain ⟨-, kept, observed, -, hperform⟩ := h.makes_seal hallows hzero hindex
  rw [hperform]

/-- The last stored log lies in a block that counts none, and so does no higher block. -/
structure EndsUncounted (store : ChainStore) (logs : LogList) (position : Position) : Prop
    extends store.Listed logs where
  latest : logs.latest = some position
  counts : ∀ number sealed, store.state.blocks.get? number = some sealed →
    sealed.hasLogs = true → number < position.block

/-- A block that is sealed with a log for every index counts none of them. -/
theorem Listed.endsUncounted (h : store.Listed logs)
    (hallows : store.state.Allows (.seal block fresh) (.seal (Ledger.sealedWith block fresh)))
    (hzero : block.number ≠ 0) (hmax : block.number < maxNumber)
    (hindex : ∀ i (hi : i < fresh.length), fresh[i].index.toNat = i)
    (hfull : fresh.length = 4294967296) :
    (store.perform (.seal block fresh)).store.EndsUncounted
      (logs ++ .ofBlock block.number fresh) ⟨block.number, 4294967295⟩ := by
  have hlatest := (Ledger.latestNumber_lt h.keyed
    (match hallows with | .seal _ _ next => next)).resolve_right hzero
  have hkeyed : (store.state.apply (.seal (Ledger.sealedWith block fresh))).Keyed :=
    keyed_apply h.keyed (show Operation.Numbered (.seal block fresh) from hmax) hallows
  have htop : block.number ≤
      (store.state.apply (.seal (Ledger.sealedWith block fresh))).latestNumber :=
    Ledger.latestNumber_le hkeyed Table.get?_insert_self
  obtain ⟨-, kept, observed, hkept, hperform⟩ := h.makes_seal hallows hzero hindex
  rw [hperform]
  refine ⟨⟨hkept, hkeyed, fun entry hmem => ?_⟩, LogList.latest_ofBlock hindex hfull,
    fun number sealed hget hlogs => Ledger.lt_of_counts_full h.keyed hlatest hfull hget hlogs⟩
  rcases List.mem_append.mp hmem with hmem | hmem
  · have hlt := UInt64.lt_of_le_of_lt (h.below entry hmem) hlatest
    exact UInt64.le_of_lt (UInt64.lt_of_lt_of_le hlt htop)
  · obtain ⟨log, -, rfl⟩ := List.mem_map.mp hmem
    exact htop

end ChainStore

end CrossSafety
