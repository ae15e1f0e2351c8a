import CrossSafety.Proofs.Chain.Recovery
import CrossSafety.Proofs.Chain.SealedLogs

/-!
# What log queries are answered

A query names a block by its number and timestamp and a log by its index and hash. Its number lies
above all sealed blocks, below all of them, or is that of one, since no number between them is left
out. In the last case the answer follows from what the block was sealed with: its log at the index
has to have the hash, as far as hashes are kept. Only a block with a log for every index answers none
of these queries, because its count in 32 bits is zero.
-/
namespace CrossSafety

namespace Ledger

variable {state : Ledger} {query : LogQuery}

/-- Above all sealed blocks there is only the future. -/
theorem blockOfQuery_of_above (h : state.Keyed) (habove : ∀ number sealed,
    state.blocks.get? number = some sealed → number < query.blockNumber) :
    state.blockOfQuery query = .error .futureData := by
  unfold blockOfQuery
  cases hlast : state.latest? with
  | none => rfl
  | some latest =>
    obtain ⟨key, hkey, -⟩ := Table.last?_eq_some.mp hlast
    dsimp only
    rw [if_pos]
    rw [(h key latest hkey).1]
    exact habove key latest hkey

/-- Below all sealed blocks nothing is kept. -/
theorem blockOfQuery_of_below (h : state.Keyed)
    (hsome : ∃ number sealed, state.blocks.get? number = some sealed)
    (hbelow : ∀ number sealed, state.blocks.get? number = some sealed →
      query.blockNumber < number) :
    state.blockOfQuery query = .error (.notFound (.sealedBlock query.blockNumber)) := by
  obtain ⟨number, sealed, hget⟩ := hsome
  obtain ⟨latest, hlast⟩ := Table.Linked.exists_last hget
  obtain ⟨key, hkey, -⟩ := Table.last?_eq_some.mp hlast
  have hnone : state.blocks.get? query.blockNumber = none := by
    cases hfound : state.blocks.get? query.blockNumber with
    | none => rfl
    | some found => exact absurd (hbelow _ found hfound) (UInt64.lt_irrefl _)
  have hlatest : ¬latest.block.number < query.blockNumber := by
    rw [(h key latest hkey).1]
    exact UInt64.lt_asymm (hbelow key latest hkey)
  unfold blockOfQuery
  rw [latest?, hlast]
  dsimp only
  rw [if_neg hlatest, hnone]

/-- A number lies above all sealed blocks, below all of them, or is that of one. -/
theorem SealedConsistent.number_cases (h : state.SealedConsistent) (number : UInt64) :
    (∀ other sealed, state.blocks.get? other = some sealed → other < number) ∨
      ((∃ other sealed, state.blocks.get? other = some sealed) ∧
        ∀ other sealed, state.blocks.get? other = some sealed → number < other) ∨
      ∃ sealed, state.blocks.get? number = some sealed := by
  cases hget : state.blocks.get? number with
  | some sealed => exact .inr (.inr ⟨sealed, rfl⟩)
  | none =>
    by_cases habove : ∀ other sealed, state.blocks.get? other = some sealed → other < number
    · exact .inl habove
    · simp only [not_forall, UInt64.not_lt] at habove
      obtain ⟨high, top, hhigh, hle⟩ := habove
      refine .inr (.inl ⟨⟨high, top, hhigh⟩, fun low bottom hlow => UInt64.not_le.mp fun hlow' => ?_⟩)
      obtain ⟨last, hlast⟩ := Table.Linked.exists_last hhigh
      obtain ⟨found, hfound⟩ := h.blocks.exists_between (fun _ _ hfollows => hfollows) hlow hlast
        hlow' (UInt64.le_trans hle (h.blocks.le_last hlast hhigh))
      rw [hget] at hfound
      cases hfound

/-- What a query is answered, given the logs that the blocks were sealed with. -/
inductive Answer (state : Ledger) (told : UInt64 → List Log) (query : LogQuery) :
    Except StorageError BlockSeal → Prop where
  | future (above : ∀ number sealed, state.blocks.get? number = some sealed →
      number < query.blockNumber) : Answer state told query (.error .futureData)
  | missing (stored : ∃ number sealed, state.blocks.get? number = some sealed)
      (below : ∀ number sealed, state.blocks.get? number = some sealed →
        query.blockNumber < number) :
      Answer state told query (.error (.notFound (.sealedBlock query.blockNumber)))
  | found (sealed : SealedBlock) (log : Log)
      (known : state.blocks.get? query.blockNumber = some sealed)
      (time : sealed.block.timestamp = query.timestamp)
      (at_index : (told query.blockNumber)[query.logIndex.toNat]? = some log)
      (hash : log.hash.short = query.hash.short)
      (not_full : (told query.blockNumber).length ≠ 4294967296) :
      Answer state told query (.ok sealed.block.toSeal)
  | conflict (sealed : SealedBlock) (known : state.blocks.get? query.blockNumber = some sealed)
      (other : sealed.block.timestamp = query.timestamp →
        ∀ log, (told query.blockNumber)[query.logIndex.toNat]? = some log →
          log.hash.short = query.hash.short → (told query.blockNumber).length = 4294967296) :
      Answer state told query (.error .conflict)

section Latest

variable {told : UInt64 → List Log} {logs : LogList}

/-- Every log of a sealed block is stored at its place. -/
theorem Carries.log_stored (h : state.Carries told logs) {number : UInt64} {sealed : SealedBlock}
    (hget : state.blocks.get? number = some sealed) {index : UInt32}
    (hindex : index.toNat < (told number).length) : ∃ hash, ⟨⟨number, index⟩, hash⟩ ∈ logs :=
  ⟨(told number)[index.toNat].hash.short,
    (h.stored _ _).mpr ⟨⟨sealed, hget⟩, _, List.getElem?_eq_getElem hindex, rfl⟩⟩

/-- No stored log is behind the last one of the highest block that has logs, which is stored. -/
theorem Carries.is_last (h : state.Carries told logs) {position : Position} :
    ((∃ hash, ⟨position, hash⟩ ∈ logs) ∧ ∀ entry ∈ logs, ¬position < entry.position) ↔
      (∃ sealed, state.blocks.get? position.block = some sealed) ∧
        (told position.block).length = position.index.toNat + 1 ∧
        ∀ number sealed, state.blocks.get? number = some sealed → position.block < number →
          told number = [] := by
  constructor
  · rintro ⟨⟨hash, hmem⟩, hlast⟩
    obtain ⟨⟨sealed, hget⟩, log, hlog, -⟩ := (h.stored position hash).mp hmem
    obtain ⟨hinside, -⟩ := List.getElem?_eq_some_iff.mp hlog
    have hlength := (h.counted _ sealed hget).2
    refine ⟨⟨sealed, hget⟩, ?_, fun number other hother hlt => ?_⟩
    · -- a further log of the block would be behind the last one
      by_contra hmore
      have hindex : (UInt32.ofNat (position.index.toNat + 1)).toNat = position.index.toNat + 1 := by
        rw [UInt32.toNat_ofNat']
        exact Nat.mod_eq_of_lt (by omega)
      have hinside : (UInt32.ofNat (position.index.toNat + 1)).toNat <
          (told position.block).length := by omega
      obtain ⟨next, hnext⟩ := h.log_stored hget hinside
      refine hlast _ hnext ?_
      rw [Position.lt_def, Position.rank, Position.rank]
      dsimp only
      omega
    · -- and so would any log of a higher block
      by_contra hsome
      have hfirst : (0 : UInt32).toNat < (told number).length := List.length_pos_iff.mpr hsome
      obtain ⟨first, hstored⟩ := h.log_stored hother hfirst
      exact hlast _ hstored (Position.lt_of_block_lt hlt)
  · rintro ⟨⟨sealed, hget⟩, hlength, hhigher⟩
    refine ⟨h.log_stored hget (by omega), fun entry hmem hlt => ?_⟩
    obtain ⟨⟨other, hother⟩, log, hlog, -⟩ := (h.stored entry.position entry.hash).mp hmem
    obtain ⟨hinside, -⟩ := List.getElem?_eq_some_iff.mp hlog
    rcases UInt64.lt_or_eq_of_le (Position.block_le_of_lt hlt) with hblock | hblock
    · rw [hhigher _ other hother hblock] at hinside
      exact absurd hinside (Nat.not_lt_zero _)
    · rw [← hblock] at hinside
      rw [Position.lt_def, Position.rank, Position.rank, hblock] at hlt
      omega

end Latest

end Ledger

namespace ChainStore

/-- Log queries are answered from the logs that the blocks were sealed with. -/
structure AnswersTold (store : ChainStore) (told : UInt64 → List Log) : Prop where
  /-- A block is stored by its number and counts the logs it was sealed with, in 32 bits. -/
  counted : ∀ number sealed, store.state.blocks.get? number = some sealed →
    sealed.block.number = number ∧ sealed.logCount = UInt32.ofNat (told number).length ∧
      (told number).length ≤ 4294967296
  /-- A log is found in the block that was sealed with it, unless the block has a log for every
  index: then the count is zero. -/
  found : ∀ query block, store.contains query = .ok block ↔ ∃ sealed log,
    store.state.blocks.get? query.blockNumber = some sealed ∧
      sealed.block.timestamp = query.timestamp ∧
      (told query.blockNumber)[query.logIndex.toNat]? = some log ∧
      log.hash.short = query.hash.short ∧ (told query.blockNumber).length ≠ 4294967296 ∧
      sealed.block.toSeal = block
  future : ∀ query, store.contains query = .error .futureData ↔
    ∀ number sealed, store.state.blocks.get? number = some sealed → number < query.blockNumber
  missing : ∀ query,
    store.contains query = .error (.notFound (.sealedBlock query.blockNumber)) ↔
      (∃ number sealed, store.state.blocks.get? number = some sealed) ∧
        ∀ number sealed, store.state.blocks.get? number = some sealed →
          query.blockNumber < number
  /-- There is no other error than these two and a conflict. -/
  refused : ∀ query error, store.contains query = .error error → error = .futureData ∨
    error = .notFound (.sealedBlock query.blockNumber) ∨ error = .conflict
  /-- The last stored log is the last one of the highest block that has logs. -/
  latest : ∀ position, store.logs.latest = some position ↔
    (∃ sealed, store.state.blocks.get? position.block = some sealed) ∧
      (told position.block).length = position.index.toNat + 1 ∧
      ∀ number sealed, store.state.blocks.get? number = some sealed → position.block < number →
        told number = []
  none_stored : store.logs.latest = none ↔
    ∀ number sealed, store.state.blocks.get? number = some sealed → told number = []

variable {store last : ChainStore} {told : UInt64 → List Log} {logs : LogList} {steps : List Step}

/-- Every query is answered by one of the rules. -/
theorem Traced.answer (h : store.Traced told) (query : LogQuery) :
    store.state.Answer told query (store.contains query) := by
  obtain ⟨logs, hlisted, hcarries⟩ := h.exists_listed
  rcases h.consistent.number_cases query.blockNumber with
    habove | ⟨hsome, hbelow⟩ | ⟨sealed, hget⟩
  · rw [contains, Ledger.blockOfQuery_of_above hlisted.keyed habove]
    exact .future habove
  · rw [contains, Ledger.blockOfQuery_of_below hlisted.keyed hsome hbelow]
    exact .missing hsome hbelow
  · have hstored := hcarries.stored ⟨query.blockNumber, query.logIndex⟩ query.hash.short
    rw [hlisted.contains_eq hget]
    split
    · rename_i hfound
      obtain ⟨htime, hinside, hmem⟩ := hfound
      obtain ⟨-, log, hlog, hhash⟩ := hstored.mp hmem
      obtain ⟨hindex, -⟩ := List.getElem?_eq_some_iff.mp hlog
      exact .found sealed log hget htime hlog hhash ((hcarries.counts_iff hget hindex).mp hinside)
    · rename_i hother
      refine .conflict sealed hget fun htime log hlog hhash => ?_
      obtain ⟨hindex, -⟩ := List.getElem?_eq_some_iff.mp hlog
      by_contra hnot
      exact hother ⟨htime, (hcarries.counts_iff hget hindex).mpr hnot,
        hstored.mpr ⟨⟨sealed, hget⟩, log, hlog, hhash⟩⟩

/-- No query is answered from a block with a log for every index. -/
theorem Traced.contains_full (h : store.Traced told) {query : LogQuery} {sealed : SealedBlock}
    (hget : store.state.blocks.get? query.blockNumber = some sealed)
    (hfull : (told query.blockNumber).length = 4294967296) :
    store.contains query = .error .conflict := by
  have hanswer := h.answer query
  generalize store.contains query = result at hanswer ⊢
  cases hanswer with
  | future above => exact absurd (above _ _ hget) (UInt64.lt_irrefl _)
  | missing stored below => exact absurd (below _ _ hget) (UInt64.lt_irrefl _)
  | found _ _ _ _ _ _ not_full => exact absurd hfull not_full
  | conflict => rfl

theorem Traced.latest_iff (h : store.Traced told) (position : Position) :
    store.logs.latest = some position ↔
      (∃ sealed, store.state.blocks.get? position.block = some sealed) ∧
        (told position.block).length = position.index.toNat + 1 ∧
        ∀ number sealed, store.state.blocks.get? number = some sealed → position.block < number →
          told number = [] := by
  obtain ⟨logs, hrep, hcarries⟩ := h.carried
  rw [hrep.latest_eq, hrep.ordered.latest_eq_some]
  exact hcarries.is_last

theorem Traced.latest_none (h : store.Traced told) : store.logs.latest = none ↔
    ∀ number sealed, store.state.blocks.get? number = some sealed → told number = [] := by
  obtain ⟨logs, hrep, hcarries⟩ := h.carried
  constructor
  · intro hnone number sealed hget
    by_contra hsome
    have hfirst : (0 : UInt32).toNat < (told number).length := List.length_pos_iff.mpr hsome
    obtain ⟨hash, hmem⟩ := hcarries.log_stored hget hfirst
    rw [hrep.latest_eq] at hnone
    rw [LogList.latest_eq_none hnone] at hmem
    exact List.not_mem_nil hmem
  · intro hnil
    cases hlatest : store.logs.latest with
    | none => rfl
    | some position =>
      obtain ⟨⟨sealed, hget⟩, hlength, -⟩ := (h.latest_iff position).mp hlatest
      rw [hnil _ sealed hget] at hlength
      cases hlength

/-- A chain that was told its logs answers from them. -/
theorem Traced.answersTold (h : store.Traced told) : store.AnswersTold told where
  counted number sealed hget := by
    obtain ⟨logs, -, hcarries⟩ := h.carried
    exact ⟨(h.consistent.blocks.keyed number sealed hget).1, hcarries.counted number sealed hget⟩
  found query block := by
    have hanswer := h.answer query
    constructor
    · intro hfound
      rw [hfound] at hanswer
      cases hanswer with
      | found sealed log known time at_index hash not_full =>
        exact ⟨sealed, log, known, time, at_index, hash, not_full, rfl⟩
    · rintro ⟨sealed, log, known, time, at_index, hash, not_full, rfl⟩
      generalize store.contains query = result at hanswer ⊢
      cases hanswer with
      | future above => exact absurd (above _ _ known) (UInt64.lt_irrefl _)
      | missing stored below => exact absurd (below _ _ known) (UInt64.lt_irrefl _)
      | found other _ known' =>
        cases known.symm.trans known'
        rfl
      | conflict other known' differs =>
        cases known.symm.trans known'
        exact absurd (differs time log at_index hash) not_full
  future query := by
    have hanswer := h.answer query
    generalize store.contains query = result at hanswer ⊢
    constructor
    · rintro rfl
      cases hanswer with
      | future above => exact above
    · intro habove
      cases hanswer with
      | future => rfl
      | missing stored below =>
        obtain ⟨number, sealed, hget⟩ := stored
        exact absurd (habove _ _ hget) (UInt64.lt_asymm (below _ _ hget))
      | found _ _ known | conflict _ known =>
        exact absurd (habove _ _ known) (UInt64.lt_irrefl _)
  missing query := by
    have hanswer := h.answer query
    generalize store.contains query = result at hanswer ⊢
    constructor
    · rintro rfl
      cases hanswer with
      | missing stored below => exact ⟨stored, below⟩
    · rintro ⟨⟨number, sealed, hget⟩, hbelow⟩
      cases hanswer with
      | future above => exact absurd (above _ _ hget) (UInt64.lt_asymm (hbelow _ _ hget))
      | missing => rfl
      | found _ _ known | conflict _ known =>
        exact absurd (hbelow _ _ known) (UInt64.lt_irrefl _)
  refused query error herror := by
    have hanswer := h.answer query
    rw [herror] at hanswer
    cases hanswer with
    | future => exact .inl rfl
    | missing => exact .inr (.inl rfl)
    | conflict => exact .inr (.inr rfl)
  latest := h.latest_iff
  none_stored := h.latest_none

/-- In every state of a chain that started in an empty directory, log queries are answered exactly
from the logs that its blocks were sealed with, where these can be counted. -/
theorem run_answers (hblocks : ∀ step ∈ steps, step.BlocksBounded)
    (hrun : (load .empty >>= fun new => new.run steps) = .ok last) :
    last.AnswersTold (empty.sealedLogs (fun _ => []) steps) :=
  (run_traced hblocks hrun).answersTold

/-- A run in which a block is sealed with a log, another one is refused, and the block is dropped and
sealed again with other logs. -/
theorem run_answers_after_reseal :
    let block (number : UInt64) (hash parent : UInt8) : BlockRef :=
      ⟨.ofBytes [hash], number, .ofBytes [parent], number⟩
    let log (index : UInt32) (hash : UInt8) : Log := ⟨index, .ofBytes [hash], none⟩
    let steps : List Step := [.write (.seal (block 1 1 0) []), .write (.seal (block 2 2 1) [log 0 7]),
      .write (.seal (block 3 3 2) [log 0 8, log 2 9]),
      .write (.rewindLocalUnsafe (block 1 1 0).id), .write (.seal (block 2 4 1) [log 0 5, log 1 6])]
    ∃ last, (load .empty >>= fun new => new.run steps) = .ok last ∧
      empty.sealedLogs (fun _ => []) steps 2 = [log 0 5, log 1 6] ∧
      last.contains ⟨2, 2, 1, .ofBytes [6]⟩ = .ok (block 2 4 1).toSeal ∧
      last.contains ⟨2, 2, 0, .ofBytes [7]⟩ = .error .conflict ∧
      last.AnswersTold (empty.sealedLogs (fun _ => []) steps) := by
  intro block log steps
  exact ⟨_, rfl, by decide +kernel, by decide +kernel, by decide +kernel,
    @run_answers _ steps (by decide) rfl⟩

/-- A block is sealed with a log for every index, and its first log is not found. -/
theorem run_answers_fails_in_full_block :
    let block : BlockRef := ⟨.ofBytes [1], 1, .ofBytes [0], 1⟩
    let steps : List Step := [.write (.seal block (Log.numbered 4294967296 (.ofBytes [7])))]
    ∃ last sealed, (load .empty >>= fun new => new.run steps) = .ok last ∧
      last.state.blocks.get? 1 = some sealed ∧ sealed.block = block ∧
      (empty.sealedLogs (fun _ => []) steps 1)[0]? = some ⟨0, .ofBytes [7], none⟩ ∧
      last.contains ⟨1, 1, 0, .ofBytes [7]⟩ = .error .conflict := by
  intro block steps
  obtain ⟨last, logs, hrun, hget, -, -⟩ :=
    @run_seal_full block (by decide) (by decide) (.ofBytes [7])
  have hbounded : ∀ step ∈ steps, step.BlocksBounded := by
    rw [List.forall_mem_singleton]
    exact List.forall_mem_singleton.mpr (by decide : block.number < maxNumber)
  have htold : empty.sealedLogs (fun _ => []) steps 1 = Log.numbered 4294967296 (.ofBytes [7]) :=
    @sealedLogs_seal empty block rfl _ _
  have hfirst : (0 : Nat) < 4294967296 := by decide
  refine ⟨last, _, hrun, hget, rfl, ?_, (run_traced hbounded hrun).contains_full hget ?_⟩
  · rw [htold, Log.getElem?_numbered hfirst]
    rfl
  · rw [htold, Log.length_numbered]

end ChainStore

end CrossSafety
