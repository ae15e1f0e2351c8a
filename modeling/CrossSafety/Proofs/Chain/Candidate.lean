import CrossSafety.Proofs.Chain.Advance

/-!
# Candidates can be promoted

The candidate is read from the local-safe records, and a new cross-safe head is checked against the
local-safe records and the head. The two agree since the block of the head is local-safe and
neighbouring records are linked: what is read as the candidate is accepted, and there is never a
conflict. The head may also be recorded again in any source that is not below its own.
-/
namespace CrossSafety

namespace Ledger

variable {state : Ledger} {head : DerivedPair}

/-- The local-safe record behind the cross-safe head is its child. -/
theorem Consistent.candidate_ne_conflict (h : state.Consistent) :
    state.candidate ≠ .error .conflict := by
  intro hconflict
  obtain ⟨head, next, hhead, hnext, hparent⟩ := candidate_eq_conflict hconflict
  obtain ⟨known, hknown, hhash⟩ := h.exists_localHead hhead
  have hderives : Derives known next := h.localDerived.neighbours hknown hnext
  exact hparent (hderives.1.2.trans hhash)

/-- The head in a source that is not below its own is allowed as the new head. -/
theorem Consistent.allows_again (h : state.Consistent) (hhead : state.crossSafe = some head)
    {source : BlockRef} (hsource : head.source.number ≤ source.number) :
    state.Allows (.setCrossSafe ⟨source, head.derived⟩) (.setCrossSafe ⟨source, head.derived⟩) := by
  obtain ⟨known, hknown, hhash⟩ := h.exists_localHead hhead
  exact .setCrossSafe _ known head hknown hhash hhead (.inl ⟨rfl, rfl⟩) hsource

/-- Sources of cross-safe blocks do not depend on that of the head. -/
theorem sourceOf_withSource (hhead : state.crossSafe = some head) (source : BlockRef)
    (block : BlockId) :
    ({ state with crossSafe := some ⟨source, head.derived⟩ } : Ledger).sourceOf block =
      state.sourceOf block := by
  unfold sourceOf
  rw [hhead]

end Ledger

namespace ChainStore

variable {store last : ChainStore} {pair head : DerivedPair} {steps : List Step}

/-- A pair that the chain takes as its cross-safe head. It is the local-safe child of the head in the
higher one of the sources of both. -/
structure Promotable (store : ChainStore) (pair : DerivedPair) : Prop where
  child : ∃ head known, store.state.crossSafe = some head ∧
    store.state.localDerived.get? pair.derived.number = some known ∧
    known.derived = pair.derived ∧ Ledger.follows pair.derived head.derived ∧
    pair.source.number = max head.source.number known.source.number
  accepted : (store.perform (.setCrossSafe pair)).result = .ok ()
  head : (store.perform (.setCrossSafe pair)).store.state.crossSafe = some pair

/-- The head of a chain in another source: the write is accepted and changes the source of the head
and nothing else. -/
structure Rerecordable (store : ChainStore) (head : DerivedPair) (source : BlockRef) : Prop where
  accepted : (store.perform (.setCrossSafe ⟨source, head.derived⟩)).result = .ok ()
  state : (store.perform (.setCrossSafe ⟨source, head.derived⟩)).store.state =
    { store.state with crossSafe := some ⟨source, head.derived⟩ }
  logs : (store.perform (.setCrossSafe ⟨source, head.derived⟩)).store.logs = store.logs
  sourceOf : ∀ block,
    (store.perform (.setCrossSafe ⟨source, head.derived⟩)).store.state.sourceOf block =
      store.state.sourceOf block

theorem promotable_candidate (h : store.state.Headed) (hcandidate : store.state.candidate = .ok pair) :
    store.Promotable pair := by
  have hperform := perform_candidate h hcandidate
  refine ⟨?_, by rw [hperform], by rw [hperform]; rfl⟩
  obtain ⟨-, head, known, hhead, hget, hparent, rfl⟩ := Ledger.candidate_eq_ok.mp hcandidate
  have hnumber := h.localKeyed _ _ hget
  refine ⟨head, known, hhead, hnumber ▸ hget, rfl, ⟨hnumber, hparent⟩, ?_⟩
  change _ = if head.source.number ≤ known.source.number then known.source.number
    else head.source.number
  by_cases hle : known.source.number ≤ head.source.number
  · rw [if_pos hle]
    split
    · rename_i hge
      exact UInt64.le_antisymm hge hle
    · rfl
  · rw [if_neg hle, if_pos (UInt64.le_of_lt (UInt64.not_le.mp hle))]

theorem rerecordable_head (h : store.state.Consistent) (hhead : store.state.crossSafe = some head)
    {source : BlockRef} (hsource : head.source.number ≤ source.number) :
    store.Rerecordable head source := by
  have hperform := perform_of_allows (h.allows_again hhead hsource) rfl
  have hstate : (store.commit (.setCrossSafe ⟨source, head.derived⟩)).state = _ :=
    h.headed.apply_setCrossSafe hhead source
  exact {
    accepted := by rw [hperform]
    state := by rw [hperform, hstate]
    logs := by rw [hperform]; rfl
    sourceOf := fun block => by
      rw [hperform, hstate]
      exact Ledger.sourceOf_withSource hhead source block }

/-- In every state of a chain that started in an empty directory, the candidate is never in conflict
with the cross-safe head and may take its place, and the head may be recorded again in any source
that is not below its own. -/
theorem run_promotable (hblocks : ∀ step ∈ steps, step.BlocksBounded)
    (hrun : (load .empty >>= fun new => new.run steps) = .ok last) :
    last.state.candidate ≠ .error .conflict ∧
      (∀ pair, last.state.candidate = .ok pair → last.Promotable pair) ∧
      ∀ head source, last.state.crossSafe = some head → head.source.number ≤ source.number →
        last.Rerecordable head source := by
  have hconsistent := (journaled_empty.run_consistent hrun hblocks Ledger.empty_consistent).1
  exact ⟨hconsistent.candidate_ne_conflict,
    fun _ hcandidate => promotable_candidate hconsistent.headed hcandidate,
    fun _ _ hhead hsource => rerecordable_head hconsistent hhead hsource⟩

/-- A run after which the second block is the candidate. The head was recorded in a later source than
that of the block, so the candidate comes in this source. -/
theorem run_promotable_later_source :
    let block (number : UInt64) (hash parent : UInt8) : BlockRef :=
      ⟨.ofBytes [hash], number, .ofBytes [parent], number⟩
    let anchor : DerivedPair := ⟨block 0 9 0, block 0 1 0⟩
    let next : DerivedPair := ⟨block 1 10 9, block 1 2 1⟩
    let later := block 2 11 10
    let steps : List Step := [.write (.initialise anchor), .write (.addDerived next),
      .write (.addSource later), .write (.setCrossSafe ⟨later, anchor.derived⟩)]
    ∃ last, (load .empty >>= fun new => new.run steps) = .ok last ∧
      last.state.candidate = .ok ⟨later, next.derived⟩ ∧
      last.state.candidate ≠ .error .conflict ∧
      (∀ pair, last.state.candidate = .ok pair → last.Promotable pair) ∧
      ∀ head source, last.state.crossSafe = some head → head.source.number ≤ source.number →
        last.Rerecordable head source := by
  intro block anchor next later steps
  exact ⟨_, rfl, by decide, @run_promotable _ steps (by decide) rfl⟩

end ChainStore

end CrossSafety
