import CrossSafety.Chain.Store
import CrossSafety.Proofs.Chain.Plan
import CrossSafety.Proofs.LogStore.Append
import CrossSafety.Proofs.LogStore.Truncate

/-!
# What a write does to a chain

`Aligned` joins the indexes of a chain to the list of its logs: the logs that are stored are those
of the sealed blocks, each block from index zero up to its count. A write leaves indexes and list
as they are, or makes its change in both: a log that is refused in the middle of a block takes the
earlier logs of the block with it.
-/
namespace CrossSafety

/-- The highest block number, which no block follows. -/
def maxNumber : UInt64 := 18446744073709551615

theorem toNat_succ_of_lt_max {number : UInt64} (h : number < maxNumber) :
    (number + 1).toNat = number.toNat + 1 := Position.block_succ_toNat h

theorem toNat_pos_of_ne_zero {number : UInt64} (h : number ≠ 0) : 0 < number.toNat :=
  UInt64.lt_iff_toNat_lt.mp (UInt64.pos_iff_ne_zero.mpr h)

theorem toNat_pred {number : UInt64} (h : number ≠ 0) :
    (number - 1).toNat = number.toNat - 1 := by
  have hone : (1 : UInt64) ≤ number := by
    rw [UInt64.le_iff_toNat_le, UInt64.toNat_one]
    exact toNat_pos_of_ne_zero h
  rw [UInt64.toNat_sub_of_le _ _ hone, UInt64.toNat_one]

/-- Whether the numbers of the blocks that a write stores have successors. -/
def Operation.Numbered : Operation → Prop
  | .initialise anchor => anchor.derived.number < maxNumber
  | .seal block _ => block.number < maxNumber
  | _ => True

/-- Whether the numbers of the blocks that a write stores have successors, and its logs can be
counted. The count of a block with a log for every index does not fit into 32 bits. -/
def Operation.InRange : Operation → Prop
  | .initialise anchor => anchor.derived.number < maxNumber
  | .seal block logs => block.number < maxNumber ∧ logs.length ≠ 4294967296
  | _ => True

theorem Operation.InRange.numbered {operation : Operation} (h : operation.InRange) :
    operation.Numbered := by
  cases operation with
  | «seal» block logs => exact h.1
  | _ => exact h

def LogList.ofBlock (number : UInt64) (logs : List Log) : LogList :=
  logs.map fun log => ⟨⟨number, log.index⟩, log.hash.short⟩

namespace Ledger

/-- The sealed blocks are kept by their numbers, all of which have successors. -/
def Keyed (state : Ledger) : Prop :=
  ∀ number sealed, state.blocks.get? number = some sealed →
    sealed.block.number = number ∧ number < maxNumber

/-- The stored logs are those of the sealed blocks. -/
def Covers (state : Ledger) (logs : LogList) : Prop :=
  ∀ position, (∃ hash, ⟨position, hash⟩ ∈ logs) ↔
    ∃ sealed, state.blocks.get? position.block = some sealed ∧ position.index < sealed.logCount

/-- The list of logs after a write that made its change. -/
def logsAfter (state : Ledger) (logs : LogList) : Operation → LogList
  | .seal block fresh => logs ++ .ofBlock block.number fresh
  | .invalidate candidate =>
    if state.Drops candidate.derived then logs.rewind candidate.derived.parentId.number else logs
  | .rewindLocalUnsafe target => logs.rewind target.number
  | _ => logs

theorem latestNumber_le {state : Ledger} (h : state.Keyed) {number : UInt64}
    {sealed : SealedBlock} (hget : state.blocks.get? number = some sealed) :
    number ≤ state.latestNumber := by
  cases hlast : state.latest? with
  | none => rw [Table.last?_eq_none.mp hlast] at hget; cases hget
  | some latest =>
    obtain ⟨key, hkey, hmax⟩ := Table.last?_eq_some.mp hlast
    rw [latestNumber, hlast, Option.map_some, Option.getD_some, (h key latest hkey).1]
    exact hmax number sealed hget

/-- Every stored log belongs to a block up to the latest one. -/
theorem block_le_latestNumber {state : Ledger} {logs : LogList} (hkeyed : state.Keyed)
    (hcovers : state.Covers logs) : ∀ entry ∈ logs, entry.position.block ≤ state.latestNumber := by
  intro entry hmem
  obtain ⟨sealed, hget, -⟩ := (hcovers entry.position).mp ⟨entry.hash, hmem⟩
  exact latestNumber_le hkeyed hget

/-- A block that may be sealed lies above the latest one, unless it is block zero. -/
theorem latestNumber_lt {state : Ledger} (h : state.Keyed) {block : BlockRef}
    (next : ∀ latest, state.latest? = some latest →
      state.blocks.get? block.number = none ∧ follows block latest.block) :
    state.latestNumber < block.number ∨ block.number = 0 := by
  cases hlast : state.latest? with
  | none =>
    rw [latestNumber, hlast]
    by_cases hzero : block.number = 0
    · exact .inr hzero
    · exact .inl (UInt64.pos_iff_ne_zero.mpr hzero)
  | some latest =>
    obtain ⟨key, hkey, -⟩ := Table.last?_eq_some.mp hlast
    obtain ⟨hnumber, hmax⟩ := h key latest hkey
    have hfollows := (next latest hlast).2.1
    refine .inl ?_
    rw [latestNumber, hlast, Option.map_some, Option.getD_some, hfollows, hnumber,
      UInt64.lt_iff_toNat_lt, toNat_succ_of_lt_max hmax]
    exact Nat.lt_succ_self _

end Ledger

namespace ChainStore

/-- The log store stands for the list, which has no logs above the latest sealed block. -/
structure Listed (store : ChainStore) (logs : LogList) : Prop where
  represents : store.logs.Represents logs
  keyed : store.state.Keyed
  below : ∀ entry ∈ logs, entry.position.block ≤ store.state.latestNumber

/-- The log store stands for the list, and the list holds the logs of the sealed blocks. -/
structure Aligned (store : ChainStore) (logs : LogList) : Prop where
  represents : store.logs.Represents logs
  keyed : store.state.Keyed
  covers : store.state.Covers logs

theorem Aligned.listed {store : ChainStore} {logs : LogList} (h : store.Aligned logs) :
    store.Listed logs :=
  ⟨h.represents, h.keyed, Ledger.block_le_latestNumber h.keyed h.covers⟩

section Steps

variable {store : ChainStore} {logs : LogList} {rollback : UInt64}

theorem takeAll_rewindLogs (h : store.logs.Represents logs) (block : UInt64) (change : Change) :
    ∃ kept observed, kept.Represents (logs.rewind block) ∧
      store.takeAll rollback [.rewindLogs block, .commit change] =
        ⟨.ok (), { store with logs := kept }.commit change, observed⟩ := by
  obtain ⟨dropped, kept, hrewind, hkept⟩ := LogStore.represents_rewind h block
  refine ⟨kept, LogStore.rewindObservations dropped kept ++ [], hkept, ?_⟩
  rw [takeAll, take, rewindLogs, hrewind]
  rfl

/-- A change comes last: it is made if all steps before it were taken. -/
theorem takeAll_commit (store : ChainStore) (rollback : UInt64) (steps : List WriteStep)
    (change : Change) :
    store.takeAll rollback (steps ++ [.commit change]) =
      let taken := store.takeAll rollback steps
      match taken.result with
      | .error _ => taken
      | .ok () => { taken with store := taken.store.commit change } := by
  induction steps generalizing store with
  | nil => rfl
  | cons step rest ih =>
    rw [List.cons_append, takeAll, takeAll]
    cases hfirst : (store.take rollback step).result with
    | error error => simp only [hfirst]
    | ok done =>
      simp only [ih]
      obtain ⟨result, taken, observed⟩ := takeAll rollback (store.take rollback step).store rest
      cases result <;> rfl

/-- The steps that add the logs of a block. -/
def addSteps (block : BlockRef) (fresh : List Log) : List WriteStep :=
  fresh.map fun log => .addLog log.hash block.id block.timestamp log.index

/-- The logs of a block are all added, or they do not follow each other and none of them stays. -/
theorem takeAll_addSteps {block : BlockRef}
    (hblock : rollback < block.number ∨ block.number = 0) {base : LogList}
    (hbase : ∀ entry ∈ base, entry.position.block ≤ rollback) (fresh : List Log) :
    ∀ (store : ChainStore) (added : LogList), store.logs.Represents (base ++ added) →
      (∀ entry ∈ added, rollback < entry.position.block) →
      (∃ kept observed, kept.Represents (base ++ added ++ .ofBlock block.number fresh) ∧
        (∀ entry ∈ LogList.ofBlock block.number fresh, rollback < entry.position.block) ∧
        store.takeAll rollback (addSteps block fresh) =
          ⟨.ok (), { store with logs := kept }, observed⟩) ∨
      ¬LogList.Ordered .origin (base ++ added ++ .ofBlock block.number fresh) ∧
        ∃ kept observed error, kept.Represents base ∧
          store.takeAll rollback (addSteps block fresh) =
            ⟨.error error, { store with logs := kept }, observed⟩ := by
  induction fresh with
  | nil =>
    intro store added hrep _
    refine .inl ⟨store.logs, [], ?_, by simp [LogList.ofBlock], rfl⟩
    rwa [LogList.ofBlock, List.map_nil, List.append_nil]
  | cons log fresh ih =>
    intro store added hrep hadded
    have hsteps : addSteps block (log :: fresh) =
        .addLog log.hash block.id block.timestamp log.index :: addSteps block fresh := rfl
    by_cases hfollows : (base ++ added).head.Follows ⟨block.number, log.index⟩
    · obtain ⟨grown, hadd, hgrown⟩ := LogStore.represents_add hrep log.hash block.id
        block.timestamp log.index hfollows
      have hnew : rollback < block.number := hblock.resolve_right hfollows.1
      have hstep : store.takeAll rollback (addSteps block (log :: fresh)) =
          let later := takeAll rollback { store with logs := grown } (addSteps block fresh)
          { later with observed := [.entries grown.count] ++ later.observed } := by
        rw [hsteps, takeAll, take, hadd]
      rw [List.append_assoc] at hgrown
      have hentries : base ++ (added ++ [⟨⟨block.number, log.index⟩, log.hash.short⟩]) ++
          .ofBlock block.number fresh = base ++ added ++ .ofBlock block.number (log :: fresh) := by
        simp [LogList.ofBlock]
      have hrest := ih { store with logs := grown }
        (added ++ [⟨⟨block.number, log.index⟩, log.hash.short⟩]) hgrown fun entry hmem => by
        rcases List.mem_append.mp hmem with hmem | hmem
        · exact hadded entry hmem
        · rw [List.mem_singleton.mp hmem]
          exact hnew
      rw [hentries] at hrest
      rcases hrest with
        ⟨kept, observed, hkept, hfresh, htake⟩ | ⟨hgap, kept, observed, error, hkept, htake⟩
      · refine .inl ⟨kept, [.entries grown.count] ++ observed, hkept, fun entry hmem => ?_,
          by rw [hstep, htake]⟩
        obtain ⟨_, -, rfl⟩ := List.mem_map.mp hmem
        exact hnew
      · exact .inr ⟨hgap, kept, [.entries grown.count] ++ observed, error, hkept,
          by rw [hstep, htake]⟩
    · -- the refused log takes the logs of this block with it
      obtain ⟨detail, hrefused⟩ := LogStore.add_refused hrep log.hash block.id block.timestamp
        log.index hfollows
      obtain ⟨dropped, kept, hrewind, hkept⟩ := LogStore.represents_rewind hrep rollback
      rw [LogList.rewind_append hbase hadded] at hkept
      have hgap : ¬LogList.Ordered .origin
          (base ++ added ++ .ofBlock block.number (log :: fresh)) :=
        fun hordered => hfollows (LogList.ordered_append.mp hordered).2.1
      refine .inr ⟨hgap, kept, LogStore.rewindObservations dropped kept, .logOutOfOrder detail,
        hkept, ?_⟩
      rw [hsteps, takeAll, take, hrefused]
      dsimp only
      rw [rewindLogs, hrewind]

end Steps

/-- An allowed write that does not concern the logs makes its change. -/
theorem perform_of_allows {store : ChainStore} {operation : Operation} {change : Change}
    (h : store.state.Allows operation change) (hlogs : store.state.logSteps operation = []) :
    store.perform operation = ⟨.ok (), store.commit change, []⟩ := by
  rw [perform, Ledger.plan_of_allows h, hlogs]
  rfl

/-- A write leaves indexes, journal and list as they were. -/
def Leaves (store : ChainStore) (logs : LogList) (operation : Operation) : Prop :=
  ∃ kept observed result, kept.Represents logs ∧
    store.perform operation = ⟨result, { store with logs := kept }, observed⟩

/-- A write makes a change in indexes and journal, and in the list what goes with it. -/
def Makes (store : ChainStore) (logs : LogList) (operation : Operation) (change : Change) : Prop :=
  store.state.Allows operation change ∧ ∃ kept observed,
    kept.Represents (store.state.logsAfter logs operation) ∧
      store.perform operation = ⟨.ok (), { store with logs := kept }.commit change, observed⟩

/-- A write leaves everything as it was or makes the one change that was allowed. -/
theorem perform_cases {store : ChainStore} {logs : LogList} (h : store.Listed logs)
    (operation : Operation) :
    store.Leaves logs operation ∨ ∃ change, store.Makes logs operation change := by
  cases hplan : store.state.plan operation with
  | error error =>
    exact .inl ⟨store.logs, [], .error error, h.represents, by rw [perform, hplan]⟩
  | ok steps =>
    rcases Ledger.plan_cases hplan with rfl | ⟨change, hallows, rfl⟩
    · exact .inl ⟨store.logs, [], .ok (), h.represents, by rw [perform, hplan]; rfl⟩
    · have hperform : store.perform operation = store.takeAll store.state.latestNumber
          (store.state.logSteps operation ++ [.commit change]) := by
        rw [perform, hplan]
      have hplain (hsteps : store.state.logSteps operation = [])
          (hlogs : store.state.logsAfter logs operation = logs) :
          store.Makes logs operation change :=
        ⟨hallows, store.logs, [], by rw [hlogs]; exact h.represents,
          perform_of_allows hallows hsteps⟩
      cases hallows with
      | «seal» block fresh next =>
        have hrep : store.logs.Represents (logs ++ []) := by
          rw [List.append_nil]
          exact h.represents
        have hcommit := takeAll_commit store store.state.latestNumber (addSteps block fresh)
          (.seal (Ledger.sealedWith block fresh))
        rcases takeAll_addSteps (Ledger.latestNumber_lt h.keyed next) h.below fresh store [] hrep
          (by simp) with
          ⟨kept, observed, hkept, -, htake⟩ | ⟨-, kept, observed, error, hkept, htake⟩
        · rw [List.append_nil] at hkept
          rw [htake] at hcommit
          exact .inr ⟨_, .seal block fresh next, kept, observed, hkept, hperform.trans hcommit⟩
        · rw [htake] at hcommit
          exact .inl ⟨kept, observed, .error error, hkept, hperform.trans hcommit⟩
      | invalidate candidate known recorded hash above parent =>
        by_cases hdrops : store.state.Drops candidate.derived
        · obtain ⟨kept, observed, hkept, htake⟩ := takeAll_rewindLogs h.represents
            candidate.derived.parentId.number (.invalidate candidate.derived)
          exact .inr ⟨_, .invalidate candidate known recorded hash above parent, kept, observed,
            by rwa [Ledger.logsAfter, if_pos hdrops],
            by rw [hperform, Ledger.logSteps, if_pos hdrops]; exact htake⟩
        · exact .inr ⟨_, hplain (if_neg hdrops) (if_neg hdrops)⟩
      | rewindLocalUnsafe target sealed above known =>
        obtain ⟨kept, observed, hkept, htake⟩ := takeAll_rewindLogs h.represents
          target.number (.rewindLocalUnsafe target.number)
        exact .inr ⟨_, .rewindLocalUnsafe target sealed above known, kept, observed, hkept,
          hperform.trans htake⟩
      | _ => exact .inr ⟨_, hplain rfl rfl⟩

end ChainStore

end CrossSafety
