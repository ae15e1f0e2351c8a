import CrossSafety.Chain.Store
import CrossSafety.Proofs.Outcome
import CrossSafety.Proofs.Table

/-!
# What a chain answers

When the questions to a chain succeed, told by its indexes.
-/
namespace CrossSafety

namespace Ledger

variable {state : Ledger}

theorem requireAboveFinalized_eq_ok {target : UInt64} {done : Unit} :
    state.requireAboveFinalized target = .ok done ↔
      ∀ head, state.finalized = some head → head.number ≤ target := by
  unfold requireAboveFinalized
  cases state.finalized with
  | none => simp
  | some head =>
    by_cases hlt : target < head.number
    · simp [hlt]
    · simp [hlt, UInt64.not_lt.mp hlt]

theorem lt_finalized_of_error {target : UInt64} {error : StorageError}
    (h : state.requireAboveFinalized target = .error error) :
    ∃ head, state.finalized = some head ∧ target < head.number := by
  unfold requireAboveFinalized at h
  split at h
  · rename_i head hhead
    split at h
    · rename_i hlt
      exact ⟨head, hhead, hlt⟩
    · cases h
  · cases h

theorem blockAt_eq_ok {number : UInt64} {opened : BlockContents} :
    state.blockAt number = .ok opened ↔
      ∃ sealed, state.blocks.get? number = some sealed ∧ sealed.opened = opened := by
  unfold blockAt
  cases state.blocks.get? number with
  | some sealed => simp
  | none =>
    simp only [reduceCtorEq, false_and, exists_false, iff_false]
    repeat' split
    all_goals exact fun h => nomatch h

theorem findSealed_eq_ok {number : UInt64} {found : BlockSeal} :
    state.findSealed number = .ok found ↔
      ∃ sealed, state.blocks.get? number = some sealed ∧ sealed.block.toSeal = found := by
  unfold findSealed
  cases hblock : state.blockAt number with
  | error error =>
    refine iff_of_false (fun h => nomatch h) ?_
    rintro ⟨sealed, hget, -⟩
    cases hblock.symm.trans (blockAt_eq_ok.mpr ⟨sealed, hget, rfl⟩)
  | ok opened =>
    obtain ⟨sealed, hget, rfl⟩ := blockAt_eq_ok.mp hblock
    simp [Except.map, hget, SealedBlock.opened]

theorem blockOfQuery_eq_ok {query : LogQuery} {sealed : SealedBlock} :
    state.blockOfQuery query = .ok sealed ↔
      (∃ latest, state.latest? = some latest ∧ query.blockNumber ≤ latest.block.number) ∧
        state.blocks.get? query.blockNumber = some sealed ∧
        sealed.block.timestamp = query.timestamp := by
  unfold blockOfQuery
  cases state.latest? with
  | none => simp
  | some latest =>
    by_cases hlt : latest.block.number < query.blockNumber
    · simp [hlt, UInt64.not_le.mpr hlt]
    · cases state.blocks.get? query.blockNumber with
      | none => simp [hlt]
      | some known =>
        by_cases htime : known.block.timestamp = query.timestamp
        · simp only [hlt, htime, if_true, if_false, Except.ok.injEq, Option.some.injEq,
            exists_eq_left', UInt64.not_lt.mp hlt, true_and]
          exact ⟨fun h => ⟨h, h ▸ htime⟩, fun h => h.1⟩
        · simp only [hlt, htime, if_false, reduceCtorEq, Option.some.injEq, false_iff, not_and]
          rintro - rfl
          exact htime

theorem sourceOf_eq_ok {block : BlockId} {source : BlockSeal} :
    state.sourceOf block = .ok source ↔ ∃ pair, state.crossDerived.get? block.number = some pair ∧
      pair.derived.hash = block.hash ∧ pair.source.toSeal = source := by
  unfold sourceOf
  cases state.crossDerived.get? block.number with
  | none =>
    simp only [reduceCtorEq, false_and, exists_false, iff_false]
    repeat' split
    all_goals exact fun h => nomatch h
  | some pair =>
    by_cases hhash : pair.derived.hash = block.hash <;> simp [hhash]

/-- The candidate is the local-safe child of the cross-safe head, in its own source or that of the
head. -/
theorem candidate_eq_ok {pair : DerivedPair} :
    state.candidate = .ok pair ↔ state.invalidated = none ∧ ∃ head next,
      state.crossSafe = some head ∧
      state.localDerived.get? (head.derived.number + 1) = some next ∧
      next.derived.parentHash = head.derived.hash ∧
      ⟨if next.source.number ≤ head.source.number then head.source else next.source,
        next.derived⟩ = pair := by
  unfold candidate
  cases state.invalidated with
  | some invalidated => simp
  | none =>
    cases state.crossSafe with
    | none => simp
    | some head =>
      simp only [Option.some.injEq, exists_and_left, exists_eq_left', true_and]
      cases state.localDerived.get? (head.derived.number + 1) with
      | none => simp
      | some next =>
        by_cases hparent : next.derived.parentHash = head.derived.hash <;> simp [hparent]

/-- There is no candidate while a block is waited for. -/
theorem candidate_of_marked {lost : BlockRef} (h : state.invalidated = some lost.toSeal) :
    state.candidate = .error (.awaitingReplacement lost.id) := by
  rw [candidate, h]
  rfl

/-- A candidate is in conflict with the cross-safe head if it is not its child. -/
theorem candidate_eq_conflict (h : state.candidate = .error .conflict) :
    ∃ head next, state.crossSafe = some head ∧
      state.localDerived.get? (head.derived.number + 1) = some next ∧
      next.derived.parentHash ≠ head.derived.hash := by
  unfold candidate at h
  split at h
  · cases h
  · split at h
    · cases h
    · rename_i head hhead
      split at h
      · cases h
      · rename_i next hnext
        split at h
        · cases h
        · exact ⟨head, next, hhead, hnext, ‹_›⟩

/-- The block that has to go with another one is local-safe above the cross-safe head and executes a
message of that block. -/
theorem firstExecuting_some {chain : MemberIndex} {block : UInt64} {pair : DerivedPair}
    (h : state.firstExecuting chain block = some pair) :
    ∃ number sealed, state.localDerived.get? number = some pair ∧
      (∀ head, state.crossSafe = some head → head.derived.number + 1 ≤ number) ∧
      state.blocks.get? pair.derived.number = some sealed ∧
      sealed.executes chain block = true ∧ sealed.block.hash = pair.derived.hash := by
  unfold firstExecuting at h
  dsimp only at h
  obtain ⟨number, hget, hle⟩ := Table.mem_valuesFrom.mp (List.mem_of_find?_eq_some h)
  have hsealed := List.find?_some h
  split at hsealed
  · rename_i sealed hfound
    obtain ⟨hblock, hexecutes⟩ := Table.get?_filter.mp hfound
    refine ⟨number, sealed, hget, fun head hhead => ?_, hblock, hexecutes,
      of_decide_eq_true hsealed⟩
    rw [hhead] at hle
    exact UInt64.le_iff_toNat_le.mpr hle
  · cases hsealed

/-- A block above the cross-safe head that has to go with another one is not below the first such
block. -/
theorem firstExecuting_le {chain : MemberIndex} {block number : UInt64} {pair : DerivedPair}
    {sealed : SealedBlock} (hget : state.localDerived.get? number = some pair)
    (habove : ∀ head, state.crossSafe = some head → head.derived.number + 1 ≤ number)
    (hsealed : state.blocks.get? pair.derived.number = some sealed)
    (hexecutes : sealed.executes chain block = true)
    (hhash : sealed.block.hash = pair.derived.hash) :
    ∃ first key, state.firstExecuting chain block = some first ∧
      state.localDerived.get? key = some first ∧ key ≤ number := by
  have hfound : (state.blocks.filter (SealedBlock.executes · chain block)).get?
      pair.derived.number = some sealed := Table.get?_filter.mpr ⟨hsealed, hexecutes⟩
  obtain ⟨start, hstart, test, hsearch, htest⟩ : ∃ start, Numbered.number start ≤
      Numbered.number number ∧ ∃ test, state.firstExecuting chain block =
        (state.localDerived.valuesFrom start).find? test ∧ test pair = true := by
    unfold firstExecuting
    refine ⟨_, ?_, _, rfl, ?_⟩
    · cases hhead : state.crossSafe with
      | none => exact Nat.zero_le _
      | some head => exact UInt64.le_iff_toNat_le.mp (habove head hhead)
    · simp only [hfound, hhash, decide_true]
  rw [hsearch]
  cases hfirst : (state.localDerived.valuesFrom start).find? test with
  | none =>
    exact absurd htest (List.find?_eq_none.mp hfirst pair
      (Table.mem_valuesFrom.mpr ⟨number, hget, hstart⟩))
  | some first =>
    obtain ⟨key, hkey, -, hlowest⟩ := Table.find?_valuesFrom hfirst
    exact ⟨first, key, rfl, hkey,
      UInt64.le_iff_toNat_le.mpr (hlowest number pair hget hstart htest)⟩

end Ledger

/-- A log is found if its block is sealed with the timestamp, has the index, and the log store has
the log. -/
theorem ChainStore.contains_eq_ok {store : ChainStore} {query : LogQuery} {block : BlockSeal} :
    store.contains query = .ok block ↔ ∃ sealed, store.state.blockOfQuery query = .ok sealed ∧
      query.logIndex < sealed.logCount ∧
      store.logs.contains ⟨query.blockNumber, query.logIndex⟩ query.hash = .ok true ∧
      sealed.block.toSeal = block := by
  unfold contains
  dsimp only
  constructor
  · intro h
    obtain ⟨sealed, hsealed, h⟩ := Outcome.bind_eq_ok.mp h
    split at h
    · rename_i hinside
      obtain ⟨stored, hstored, h⟩ := Outcome.bind_eq_ok.mp h
      split at h
      · rename_i htrue
        subst htrue
        cases h
        exact ⟨sealed, hsealed, hinside, hstored, rfl⟩
      · cases h
    · cases h
  · rintro ⟨sealed, hsealed, hinside, hstored, rfl⟩
    rw [hsealed, Outcome.ok_bind, if_pos hinside, hstored]
    rfl

end CrossSafety
