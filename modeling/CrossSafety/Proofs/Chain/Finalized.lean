import CrossSafety.Proofs.Chain.Growth
import CrossSafety.Proofs.Chain.Lookup

/-!
# Finalized history stays

A finalized block keeps its local-safe and its cross-safe record, whatever rewinds and invalidations
come later: each of them is refused below the finalized head. Block zero is not covered by this. It
counts as its own parent, so making it invalid is checked against the height it gives up itself, and
while the finalized head is block zero the check passes.
-/
namespace CrossSafety

/-- Whether a step makes block zero invalid. -/
def ChainStore.Step.InvalidatesFirst : ChainStore.Step → Prop
  | .write (.invalidate candidate) => candidate.derived.number = 0
  | _ => False

namespace Ledger

variable {state : Ledger} {block : BlockSeal}

/-- The finalized head is at a block or above, and the block has its two records. -/
structure Finalizes (state : Ledger) (block : BlockSeal) : Prop where
  finalized : ∃ head, state.finalized = some head ∧ block.number ≤ head.number
  localDerived : ∃ pair, state.localDerived.get? block.number = some pair ∧
    pair.derived.hash = block.hash
  crossDerived : ∃ pair, state.crossDerived.get? block.number = some pair ∧
    pair.derived.hash = block.hash

theorem Finalizes.le_of_above (h : state.Finalizes block) {target : UInt64}
    (habove : state.requireAboveFinalized target = .ok ()) : block.number ≤ target := by
  obtain ⟨head, hhead, hle⟩ := h.finalized
  exact UInt64.le_trans hle (requireAboveFinalized_eq_ok.mp habove head hhead)

/-- The heads of what is local-safe and cross-safe do not lie below a block that has its records. -/
theorem Finalizes.heads (h : state.Finalizes block) (hconsistent : state.Consistent) :
    (∃ top, state.heads.localSafe = some top ∧ block.number ≤ top.number) ∧
      ∃ top, state.heads.crossSafe = some top ∧ block.number ≤ top.number := by
  obtain ⟨pair, hlocal, -⟩ := h.localDerived
  obtain ⟨record, hcross, -⟩ := h.crossDerived
  constructor
  · obtain ⟨top, htop⟩ := Table.Linked.exists_last hlocal
    exact ⟨top.derived.toSeal, by rw [Ledger.heads, htop]; rfl,
      hconsistent.localDerived.le_last htop hlocal⟩
  · obtain ⟨top, htop⟩ := Table.Linked.exists_last hcross
    cases hhead : state.crossSafe with
    | none =>
      rw [hconsistent.unset hhead] at htop
      cases htop
    | some head =>
      exact ⟨head.derived.toSeal, by rw [Ledger.heads, hhead]; rfl,
        hconsistent.le_head hhead hcross⟩

/-! ## Every move -/

theorem Finalizes.dropCrossSafeAbove (h : state.Finalizes block) {number : UInt64}
    (hmax : number < maxNumber) (hle : block.number ≤ number) :
    (state.dropCrossSafeAbove number).Finalizes block where
  finalized := h.finalized
  localDerived := h.localDerived
  crossDerived := by
    obtain ⟨pair, hget, hhash⟩ := h.crossDerived
    exact ⟨pair, ((get?_below_succ hmax _).trans (if_pos hle)).trans hget, hhash⟩

theorem Finalizes.dropLocalSafeFrom (h : state.Finalizes block) {number : UInt64}
    (hlt : block.number < number) : (state.dropLocalSafeFrom number).Finalizes block := by
  have hne : number ≠ 0 := by
    rintro rfl
    exact UInt64.not_lt_zero hlt
  have hle : block.number ≤ numberBefore number := by
    have hlt := UInt64.lt_iff_toNat_lt.mp hlt
    rw [numberBefore, if_neg hne, UInt64.le_iff_toNat_le, toNat_pred hne]
    omega
  rw [dropLocalSafeFrom_of_ne hne]
  have hcut : ({ state with
      localDerived := state.localDerived.below number } : Ledger).Finalizes block := by
    obtain ⟨pair, hget, hhash⟩ := h.localDerived
    exact ⟨h.finalized, ⟨pair, (Table.get?_below.trans
      (if_pos (UInt64.lt_iff_toNat_lt.mp hlt))).trans hget, hhash⟩, h.crossDerived⟩
  exact hcut.dropCrossSafeAbove (numberBefore_lt number) hle

/-- A block that is made invalid lies above a finalized one, unless it is block zero. -/
theorem Finalizes.invalidate (h : state.Finalizes block) {derived : BlockRef}
    (habove : state.requireAboveFinalized derived.parentId.number = .ok ())
    (hkept : block.number ≠ 0 ∨ derived.number ≠ 0) :
    (state.apply (.invalidate derived)).Finalizes block := by
  have hle : block.number ≤ numberBefore derived.number := h.le_of_above habove
  have hlt : block.number < derived.number := by
    by_cases hzero : derived.number = 0
    · rw [hzero] at hle
      exact absurd (UInt64.le_zero_iff.mp hle) (hkept.resolve_right (not_not_intro hzero))
    · rw [numberBefore, if_neg hzero, UInt64.le_iff_toNat_le, toNat_pred hzero] at hle
      have hpos := toNat_pos_of_ne_zero hzero
      rw [UInt64.lt_iff_toNat_lt]
      omega
  rw [apply_invalidate]
  have hdropped : (if state.Drops derived then state.dropBlocksAbove (derived.number - 1)
      else state).Finalizes block := by
    split
    · exact ⟨h.finalized, h.localDerived, h.crossDerived⟩
    · exact h
  exact { hdropped.dropLocalSafeFrom hlt with }

theorem Finalizes.apply (h : state.Finalizes block) {operation : Operation} {change : Change}
    (hmax : ∀ number ∈ operation.blockNumbers, number < maxNumber)
    (hkept : block.number ≠ 0 ∨ ¬(ChainStore.Step.write operation).InvalidatesFirst)
    (hallows : state.Allows operation change) : (state.apply change).Finalizes block := by
  obtain ⟨pair, hlocal, hlocalHash⟩ := h.localDerived
  obtain ⟨record, hcross, hcrossHash⟩ := h.crossDerived
  cases hallows with
  | initialise anchor fresh sealed unsealed source derived underived =>
    rw [Table.isEmpty_iff.mp fresh] at hcross
    cases hcross
  | addDerived added fresh valid next source =>
    refine { h with localDerived := ⟨pair, ?_, hlocalHash⟩ }
    refine (Table.get?_insert_of_ne fun heq => ?_).trans hlocal
    rw [heq, fresh] at hlocal
    cases hlocal
  | setCrossSafe added known head recorded hash cross next source =>
    refine { h with crossDerived := ⟨record, ?_, hcrossHash⟩ }
    change (state.crossDerived.insertNew _ _).get? block.number = some record
    by_cases heq : block.number = added.derived.number
    · rw [heq] at hcross ⊢
      rw [Table.get?_insertNew_self, hcross, Option.getD_some]
    · rw [Table.get?_insertNew_of_ne heq, hcross]
  | invalidate candidate known recorded hash above parent => exact h.invalidate above hkept
  | setFinalized later pair cross hash above =>
    obtain ⟨head, hhead, hle⟩ := h.finalized
    exact { h with finalized := ⟨later, rfl, UInt64.le_trans hle (above head hhead)⟩ }
  | rewindLocalSafe target checked =>
    obtain ⟨_, habove, -⟩ := Outcome.bind_eq_ok.mp checked
    have hle := UInt64.le_iff_toNat_le.mp (h.le_of_above habove)
    have hlt : block.number < target.number + 1 := by
      rw [UInt64.lt_iff_toNat_lt, toNat_succ_of_lt_max (hmax _ List.mem_cons_self)]
      exact Nat.lt_succ_of_le hle
    exact { h.dropLocalSafeFrom hlt with }
  | rewindCrossSafe target checked =>
    obtain ⟨_, habove, -⟩ := Outcome.bind_eq_ok.mp checked
    exact h.dropCrossSafeAbove (hmax _ List.mem_cons_self) (h.le_of_above habove)
  | _ => exact { h with }

/-- A finalized head that is accepted has both records. -/
theorem Consistent.finalizes (h : state.Consistent) {pair : DerivedPair}
    (hcross : state.crossDerived.get? block.number = some pair)
    (hhash : pair.derived.hash = block.hash) :
    (state.apply (.setFinalized block)).Finalizes block := by
  obtain ⟨known, hknown, hsame⟩ := h.localSafe _ _ hcross
  exact ⟨⟨block, rfl, UInt64.le_refl _⟩, ⟨known, hknown, hsame.trans hhash⟩, pair, hcross, hhash⟩

theorem Finalizes.moves (h : state.Finalizes block) {step : ChainStore.Step} {after : Ledger}
    (hmax : step.BlocksBounded) (hkept : block.number ≠ 0 ∨ ¬step.InvalidatesFirst)
    (hmoves : state.Moves step after) : after.Finalizes block := by
  cases hmoves with
  | stay => exact h
  | change allowed => exact h.apply hmax hkept allowed
  | drop known above => exact { h with }

/-- The finalized head never moves down. -/
theorem finalized_moves {step : ChainStore.Step} {after : Ledger} (hmoves : state.Moves step after)
    {number : UInt64} (h : ∃ head, state.finalized = some head ∧ number ≤ head.number) :
    ∃ head, after.finalized = some head ∧ number ≤ head.number := by
  cases hmoves with
  | stay => exact h
  | drop known above => exact h
  | change allowed =>
    cases allowed with
    | setFinalized later pair cross hash above =>
      obtain ⟨head, hhead, hle⟩ := h
      exact ⟨later, rfl, UInt64.le_trans hle (above head hhead)⟩
    | invalidate candidate known recorded hash above parent =>
      rwa [(apply_invalidate_frame candidate.derived).2]
    | rewindLocalSafe target checked =>
      have hsame : (state.apply (.rewindLocalSafe target.number)).finalized = state.finalized :=
        (dropLocalSafeFrom_frame _).2
      rwa [hsame]
    | _ => exact h

end Ledger

namespace ChainStore

variable {store kept last : ChainStore} {before between later : List Step} {block : BlockSeal}

/-- A finalized head that is accepted names a cross-safe block and becomes the finalized head. -/
theorem perform_setFinalized (h : (store.perform (.setFinalized block)).result = .ok ()) :
    store.state.Allows (.setFinalized block) (.setFinalized block) ∧
      (store.perform (.setFinalized block)).store = store.commit (.setFinalized block) := by
  obtain ⟨change, -, hallows, -⟩ := perform_changes h rfl
  obtain rfl : change = .setFinalized block := by
    cases hallows
    rfl
  exact ⟨hallows, by rw [perform_of_allows hallows rfl]⟩

theorem finalizes_of_perform (hconsistent : store.state.Consistent)
    (h : (store.perform (.setFinalized block)).result = .ok ()) :
    (store.perform (.setFinalized block)).store.state.Finalizes block := by
  obtain ⟨hallows, hstore⟩ := perform_setFinalized h
  rw [hstore]
  cases hallows with
  | setFinalized block pair cross hash above => exact hconsistent.finalizes cross hash

/-- A finalized block keeps its records and stays below the heads, and the finalized head never
moves down, whatever is done to the chain. For block zero this needs that it is not made invalid. -/
theorem finalized_stays (hbefore : ∀ step ∈ before, step.BlocksBounded)
    (hstart : (load .empty >>= fun new => new.run before) = .ok store)
    (hfinal : (store.perform (.setFinalized block)).result = .ok ())
    (hbetween : ∀ step ∈ between, step.BlocksBounded)
    (hfirst : block.number ≠ 0 ∨ ∀ step ∈ between, ¬step.InvalidatesFirst)
    (hkept : (store.perform (.setFinalized block)).store.run between = .ok kept)
    (hlast : kept.run later = .ok last) :
    kept.state.Finalizes block ∧
      (∃ top, kept.state.heads.localSafe = some top ∧ block.number ≤ top.number) ∧
      (∃ top, kept.state.heads.crossSafe = some top ∧ block.number ≤ top.number) ∧
      ∀ head, kept.state.finalized = some head →
        ∃ next, last.state.finalized = some next ∧ head.number ≤ next.number := by
  obtain ⟨hconsistent, hjournaled⟩ :=
    journaled_empty.run_consistent hstart hbefore Ledger.empty_consistent
  have hfinalizes := finalizes_of_perform hconsistent hfinal
  obtain ⟨hallows, hstore⟩ := perform_setFinalized hfinal
  rw [hstore] at hkept hfinalizes
  have hcommitted : (store.commit (.setFinalized block)).Journaled :=
    hjournaled.commit store.logs (.setFinalized block)
  have hchanged : (store.commit (.setFinalized block)).state.Consistent :=
    { hconsistent with }
  obtain ⟨hkeptConsistent, hkeptJournaled⟩ :=
    hcommitted.run_consistent hkept hbetween hchanged
  have hstays : kept.state.Finalizes block :=
    (hcommitted.run_preserves (P := (Ledger.Finalizes · block)) hkept
      (fun step hmem _ _ hstate => hstate.moves (hbetween step hmem)
        (hfirst.imp_right fun hnone => hnone step hmem)) hfinalizes).1
  obtain ⟨hlocal, hcross⟩ := hstays.heads hkeptConsistent
  refine ⟨hstays, hlocal, hcross, fun head hhead => ?_⟩
  exact (hkeptJournaled.run_preserves
    (P := fun state => ∃ next, state.finalized = some next ∧ head.number ≤ next.number) hlast
    (fun _ _ _ _ hstate hmoves => Ledger.finalized_moves hmoves hstate)
    ⟨head, hhead, UInt64.le_refl _⟩).1

/-- A finalized block outlasts an invalidation and a rewind that reach for it. -/
theorem finalized_stays_refused :
    let block (number : UInt64) (hash parent : UInt8) : BlockRef :=
      ⟨.ofBytes [hash], number, .ofBytes [parent], number⟩
    let anchor : DerivedPair := ⟨block 0 9 0, block 1 1 0⟩
    let final := anchor.derived.toSeal
    let between : List Step := [.write (.invalidate anchor),
      .write (.rewindCrossSafe ⟨0, anchor.derived.hash⟩)]
    ∃ store kept, (load .empty >>= fun new => new.run [.write (.initialise anchor)]) = .ok store ∧
      (store.perform (.setFinalized final)).result = .ok () ∧
      (store.perform (.setFinalized final)).store.run between = .ok kept ∧
      kept.state.Finalizes final ∧
      (∃ top, kept.state.heads.localSafe = some top ∧ final.number ≤ top.number) ∧
      (∃ top, kept.state.heads.crossSafe = some top ∧ final.number ≤ top.number) ∧
      ∀ head, kept.state.finalized = some head →
        ∃ next, kept.state.finalized = some next ∧ head.number ≤ next.number := by
  intro block anchor final between
  exact ⟨_, _, rfl, rfl, rfl, @finalized_stays _ _ _ [.write (.initialise anchor)] between [] final
    (by decide) rfl rfl (by decide) (.inl (by decide)) rfl rfl⟩

/-- The finalized block zero loses its records when it is made invalid. -/
example :
    let anchor : DerivedPair :=
      ⟨⟨.ofBytes [9], 0, .ofBytes [0], 0⟩, ⟨.ofBytes [1], 0, .ofBytes [0], 0⟩⟩
    ∃ last, (load .empty >>= fun new => new.run [.write (.initialise anchor),
        .write (.setFinalized anchor.derived.toSeal), .write (.invalidate anchor)]) = .ok last ∧
      last.state.finalized = some anchor.derived.toSeal ∧ last.state.localDerived.isEmpty = true :=
  ⟨_, rfl, rfl, rfl⟩

end ChainStore

end CrossSafety
