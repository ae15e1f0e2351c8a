import CrossSafety.Proofs.Chain.Consistent

/-!
# Growing the indexes of a chain

A block, a source or a derivation record is put on top of its index after it was checked against the
last one there, and an empty index takes any first value. Together with the cuts this covers every
allowed change, so the indexes fit together after any run.
-/
namespace CrossSafety

namespace Ledger

variable {state : Ledger}

/-- A source that is accepted is the recorded one of its number, or there is none yet and it follows
the last one. -/
theorem isNewSource_cases {source : BlockRef} {new : Bool}
    (h : state.isNewSource source = .ok new) :
    new = false ∧ state.sources.get? source.number = some source ∨
      new = true ∧ state.sources.get? source.number = none ∧
        ∀ last, state.sources.last? = some last → follows source last := by
  unfold isNewSource at h
  split at h
  · rename_i existing hget
    split at h
    · rename_i heq
      cases h
      exact .inl ⟨rfl, heq ▸ hget⟩
    · cases h
  · rename_i hget
    split at h
    · rename_i last hlast
      split at h
      · rename_i hfollows
        cases h
        refine .inr ⟨rfl, hget, fun other hother => ?_⟩
        rw [hlast] at hother
        cases hother
        exact hfollows
      · cases h
    · rename_i hlast
      cases h
      refine .inr ⟨rfl, hget, fun other hother => ?_⟩
      rw [hlast] at hother
      cases hother

/-- Recording an accepted source keeps the recorded ones. -/
theorem recorded_insertNew {source : BlockRef} (h : ∃ new, state.isNewSource source = .ok new) :
    (state.sources.insertNew source.number source).get? source.number = some source ∧
      ∀ number other, state.sources.get? number = some other →
        (state.sources.insertNew source.number source).get? number = some other := by
  obtain ⟨new, hnew⟩ := h
  rcases isNewSource_cases hnew with ⟨-, hget⟩ | ⟨-, hget, -⟩
  · rw [Table.insertNew_of_some hget]
    exact ⟨hget, fun _ _ hother => hother⟩
  · refine ⟨by rw [Table.get?_insertNew_self, hget]; rfl, fun number other hother => ?_⟩
    rw [Table.get?_insertNew_of_ne]
    · exact hother
    · rintro rfl
      rw [hget] at hother
      cases hother

theorem SourcesLinked.insertNew (h : state.SourcesLinked) {source : BlockRef}
    (hmax : source.number < maxNumber) (hnew : ∃ new, state.isNewSource source = .ok new) :
    (state.sources.insertNew source.number source).Linked id
      fun below above => follows above below := by
  obtain ⟨new, hnew⟩ := hnew
  rcases isNewSource_cases hnew with ⟨-, hget⟩ | ⟨-, hget, hfollows⟩
  · rwa [Table.insertNew_of_some hget]
  · rw [Table.insertNew_of_none hget]
    exact Table.Linked.push h source hmax hfollows hfollows

section Changes

variable {pair : DerivedPair}

theorem Consistent.seal (h : state.Consistent) {block : BlockRef} {logs : List Log}
    (hmax : block.number < maxNumber) (next : ∀ latest, state.latest? = some latest →
      state.blocks.get? block.number = none ∧ follows block latest.block) :
    (state.apply (.seal (sealedWith block logs))).Consistent where
  blocks := h.blocks.push (sealedWith block logs) hmax
    (fun last hlast => (next last hlast).2) (fun last hlast => (next last hlast).2)
  crossUnsafe head hhead := by
    obtain ⟨sealed, hget, hhash⟩ := h.crossUnsafe head hhead
    refine ⟨sealed, ?_, hhash⟩
    have hne : head.number ≠ block.number := by
      obtain ⟨last, hlast⟩ := Table.Linked.exists_last hget
      intro heq
      rw [heq, (next last hlast).1] at hget
      cases hget
    exact (Table.get?_insert_of_ne hne).trans hget
  crossDerived := h.crossDerived
  unset := h.unset
  head := h.head
  localDerived := h.localDerived
  recorded := h.recorded
  localSafe := h.localSafe

theorem Consistent.addDerived (h : state.Consistent) (hmax : pair.derived.number < maxNumber)
    (fresh : state.localDerived.get? pair.derived.number = none)
    (next : ∀ last, state.localDerived.last? = some last →
      follows pair.derived last.derived ∧ last.source.number ≤ pair.source.number)
    (source : ∃ new, state.isNewSource pair.source = .ok new) :
    (state.apply (.addDerived pair)).Consistent where
  blocks := h.blocks
  crossUnsafe := h.crossUnsafe
  crossDerived := h.crossDerived
  unset := h.unset
  head := h.head
  localDerived := h.localDerived.push pair hmax (fun last hlast => (next last hlast).1) next
  recorded number other hget := by
    obtain ⟨hself, hold⟩ := recorded_insertNew source
    change (state.localDerived.insert pair.derived.number pair).get? number = some other at hget
    rcases Table.eq_or_get?_of_insert hget with rfl | hget
    · exact hself
    · exact hold _ _ (h.recorded number other hget)
  localSafe number other hget := by
    obtain ⟨known, hknown, hhash⟩ := h.localSafe number other hget
    refine ⟨known, ?_, hhash⟩
    have hne : number ≠ pair.derived.number := by
      rintro rfl
      rw [fresh] at hknown
      cases hknown
    exact (Table.get?_insert_of_ne hne).trans hknown

theorem CrossConsistent.setCrossSafe (h : state.CrossConsistent)
    (hmax : pair.derived.number < maxNumber) {head : DerivedPair}
    (cross : state.crossSafe = some head)
    (next : pair.derived.number = head.derived.number ∧ pair.derived.hash = head.derived.hash ∨
      pair.derived.number ≠ head.derived.number ∧ follows pair.derived head.derived)
    (source : head.source.number ≤ pair.source.number) :
    (state.apply (.setCrossSafe pair)).CrossConsistent := by
  obtain ⟨last, hlast, hid, hlastSource⟩ := h.head head cross
  have hnumber : last.derived.number = head.derived.number := congrArg BlockId.number hid
  have hhash : last.derived.hash = head.derived.hash := congrArg BlockId.hash hid
  have hsource : last.source.number ≤ pair.source.number := UInt64.le_trans hlastSource source
  rcases next with ⟨hsame, hblock⟩ | ⟨-, hnext⟩
  · -- the head is made cross-safe again, in a later source
    have hget : state.crossDerived.get? pair.derived.number = some last := by
      rw [hsame, ← hnumber]
      exact h.crossDerived.get?_last hlast
    have hkept : (state.apply (.setCrossSafe pair)).crossDerived = state.crossDerived :=
      Table.insertNew_of_some hget
    refine ⟨hkept ▸ h.crossDerived, fun hnone => (nomatch hnone), ?_⟩
    rintro _ ⟨⟩
    exact ⟨last, hkept.symm ▸ hlast, by rw [hid, BlockRef.id, BlockRef.id, hsame, hblock],
      hsource⟩
  · have hderives : ∀ other, state.crossDerived.last? = some other → Derives other pair := by
      intro other hother
      rw [hlast] at hother
      cases hother
      exact ⟨⟨hnumber ▸ hnext.1, hhash ▸ hnext.2⟩, hsource⟩
    have hfollows : ∀ other, state.crossDerived.last? = some other →
        follows pair.derived other.derived := fun other hother => (hderives other hother).1
    have hpush : (state.apply (.setCrossSafe pair)).crossDerived =
        state.crossDerived.insert pair.derived.number pair :=
      Table.insertNew_of_none (h.crossDerived.get?_of_follows pair hfollows)
    refine ⟨hpush ▸ h.crossDerived.push pair hmax hfollows hderives,
      fun hnone => (nomatch hnone), ?_⟩
    rintro _ ⟨⟩
    exact ⟨pair, hpush.symm ▸ h.crossDerived.last?_push pair hfollows, rfl, UInt64.le_refl _⟩

theorem Consistent.setCrossSafe (h : state.Consistent) (hmax : pair.derived.number < maxNumber)
    {known head : DerivedPair}
    (recorded : state.localDerived.get? pair.derived.number = some known)
    (hash : known.derived.hash = pair.derived.hash) (cross : state.crossSafe = some head)
    (next : pair.derived.number = head.derived.number ∧ pair.derived.hash = head.derived.hash ∨
      pair.derived.number ≠ head.derived.number ∧ follows pair.derived head.derived)
    (source : head.source.number ≤ pair.source.number) :
    (state.apply (.setCrossSafe pair)).Consistent := by
  have hcross := h.toCrossConsistent.setCrossSafe hmax cross next source
  exact {
    toSealedConsistent := ⟨h.blocks, h.crossUnsafe⟩
    toCrossConsistent := hcross
    localDerived := h.localDerived
    recorded := h.recorded
    localSafe := fun number other hget => by
      have hnumber := (hcross.crossDerived.keyed number other hget).1
      rcases Table.eq_or_get?_of_insertNew hget with rfl | hget
      · exact ⟨known, hnumber ▸ recorded, hash⟩
      · exact h.localSafe number other hget }

theorem CrossConsistent.initialise (h : state.CrossConsistent)
    (hmax : pair.derived.number < maxNumber) (fresh : state.crossDerived.isEmpty = true) :
    (state.apply (.initialise pair)).CrossConsistent := by
  have hnone : ∀ other, state.crossDerived.last? ≠ some other := by
    intro other hother
    rw [Table.last?_eq_none.mpr (Table.isEmpty_iff.mp fresh)] at hother
    cases hother
  refine ⟨h.crossDerived.push pair hmax (fun _ hlast => absurd hlast (hnone _))
    fun _ hlast => absurd hlast (hnone _), fun hunset => (nomatch hunset), ?_⟩
  rintro _ ⟨⟩
  exact ⟨pair, h.crossDerived.last?_push pair fun _ hlast => absurd hlast (hnone _), rfl,
    UInt64.le_refl _⟩

theorem SealedConsistent.initialise (h : state.SealedConsistent)
    (hmax : pair.derived.number < maxNumber)
    (sealed : ∀ known, state.blocks.get? pair.derived.number = some known →
      known.block.hash = pair.derived.hash)
    (unsealed : state.blocks.get? pair.derived.number = none → state.blocks.isEmpty = true) :
    (state.apply (.initialise pair)).SealedConsistent where
  blocks := h.blocks.insertNew (.bare pair.derived) hmax unsealed
  crossUnsafe head hhead := by
    change (state.crossUnsafe <|> some pair.derived.toSeal) = some head at hhead
    change ∃ known, (state.blocks.insertNew pair.derived.number (.bare pair.derived)).get?
      head.number = some known ∧ known.block.hash = head.hash
    cases hset : state.crossUnsafe with
    | none =>
      rw [hset] at hhead
      cases hhead
      refine ⟨_, Table.get?_insertNew_self, ?_⟩
      cases hget : state.blocks.get? pair.derived.number with
      | none => rfl
      | some known => exact sealed known hget
    | some old =>
      rw [hset] at hhead
      cases hhead
      obtain ⟨known, hget, hhash⟩ := h.crossUnsafe head hset
      -- a block is sealed, so the index is not empty and the anchor is one of its blocks
      cases hanchor : state.blocks.get? pair.derived.number with
      | some found => exact ⟨known, by rwa [Table.insertNew_of_some hanchor], hhash⟩
      | none =>
        rw [Table.isEmpty_iff.mp (unsealed hanchor)] at hget
        cases hget

theorem Consistent.initialise (h : state.Consistent) (hmax : pair.derived.number < maxNumber)
    (fresh : state.crossDerived.isEmpty = true)
    (sealed : ∀ known, state.blocks.get? pair.derived.number = some known →
      known.block.hash = pair.derived.hash)
    (unsealed : state.blocks.get? pair.derived.number = none → state.blocks.isEmpty = true)
    (source : ∃ new, state.isNewSource pair.source = .ok new)
    (derived : ∀ known, state.localDerived.get? pair.derived.number = some known → known = pair)
    (underived : state.localDerived.get? pair.derived.number = none →
      state.localDerived.isEmpty = true) :
    (state.apply (.initialise pair)).Consistent := by
  have hcross := h.toCrossConsistent.initialise hmax fresh
  have hlocal : (state.localDerived.insertNew pair.derived.number pair).get?
      pair.derived.number = some pair := by
    rw [Table.get?_insertNew_self]
    cases hget : state.localDerived.get? pair.derived.number with
    | none => rfl
    | some known => rw [derived known hget, Option.getD_some]
  exact {
    toSealedConsistent := h.toSealedConsistent.initialise hmax sealed unsealed
    toCrossConsistent := hcross
    localDerived := h.localDerived.insertNew pair hmax underived
    recorded := fun number other hget => by
      obtain ⟨hself, hold⟩ := recorded_insertNew source
      rcases Table.eq_or_get?_of_insertNew hget with rfl | hget
      · exact hself
      · exact hold _ _ (h.recorded number other hget)
    localSafe := fun number other hget => by
      have hnumber := (hcross.crossDerived.keyed number other hget).1
      rcases Table.eq_or_get?_of_insert hget with rfl | hget
      · exact ⟨other, hnumber ▸ hlocal, rfl⟩
      · rw [Table.isEmpty_iff.mp fresh] at hget
        cases hget }

end Changes

/-! ## Every move -/

theorem sealed_of_sealedBlock {block : BlockId} {sealed : SealedBlock}
    (h : state.SealedConsistent) (hknown : state.sealedBlock block = .ok sealed) :
    state.blocks.get? sealed.block.number = some sealed ∧ sealed.block.id = block := by
  obtain ⟨hget, hhash⟩ := ChainStore.sealedBlock_get? hknown
  have hnumber := (h.blocks.keyed _ _ hget).1
  refine ⟨hnumber.symm ▸ hget, ?_⟩
  cases block
  rw [BlockRef.id, hnumber, hhash]

/-- An allowed change keeps the indexes consistent. -/
theorem Consistent.apply (h : state.Consistent) {operation : Operation} {change : Change}
    (hmax : ∀ number ∈ operation.blockNumbers, number < maxNumber)
    (hallows : state.Allows operation change) : (state.apply change).Consistent := by
  cases hallows with
  | initialise anchor fresh sealed unsealed source derived underived =>
    exact h.initialise (hmax _ List.mem_cons_self) fresh sealed unsealed source derived underived
  | «seal» block logs next => exact h.seal (hmax _ List.mem_cons_self) next
  | addSource source new =>
    have hinsert := recorded_insertNew ⟨true, new⟩
    have hsame : state.sources.insertNew source.number source =
        state.sources.insert source.number source := by
      rcases isNewSource_cases new with ⟨hfalse, -⟩ | ⟨-, hget, -⟩
      · cases hfalse
      · exact Table.insertNew_of_none hget
    rw [hsame] at hinsert
    exact { h with recorded := fun number pair hget => hinsert.2 _ _ (h.recorded number pair hget) }
  | addDerived pair fresh valid next source =>
    exact h.addDerived (hmax _ List.mem_cons_self) fresh next source
  | setCrossSafe pair known head recorded hash cross next source =>
    exact h.setCrossSafe (hmax _ List.mem_cons_self) recorded hash cross next source
  | invalidate candidate known recorded hash above parent =>
    rw [apply_invalidate]
    have hdropped : (if state.Drops candidate.derived then
        state.dropBlocksAbove (candidate.derived.number - 1) else state).Consistent := by
      split
      · rename_i hdrops
        have hbefore := numberBefore_lt candidate.derived.number
        rw [numberBefore, if_neg hdrops.1] at hbefore
        exact h.dropBlocksAbove hbefore
      · exact h
    exact { hdropped.dropLocalSafeFrom candidate.derived.number with }
  | setCrossUnsafe block sealed known =>
    obtain ⟨hget, hid⟩ := sealed_of_sealedBlock h.toSealedConsistent known
    have hnumber : sealed.block.number = block.number := congrArg BlockId.number hid
    refine { h with crossUnsafe := ?_ }
    rintro _ ⟨⟩
    exact ⟨sealed, hnumber ▸ hget, congrArg BlockId.hash hid⟩
  | setFinalized block pair cross hash above => exact { h with }
  | rewindLocalUnsafe target sealed above known =>
    exact h.dropBlocksAbove (hmax _ List.mem_cons_self)
  | rewindCrossUnsafe target sealed above known =>
    obtain ⟨hget, -⟩ := sealed_of_sealedBlock h.toSealedConsistent known
    refine { h with crossUnsafe := fun head hhead => ?_ }
    obtain ⟨old, hold, rfl⟩ := Option.map_eq_some_iff.mp hhead
    split
    · exact ⟨sealed, hget, rfl⟩
    · exact h.crossUnsafe old hold
  | rewindLocalSafe target checked =>
    exact { h.dropLocalSafeFrom (target.number + 1) with }
  | rewindCrossSafe target checked => exact h.dropCrossSafeAbove (hmax _ List.mem_cons_self)

theorem SourcesLinked.apply (h : state.SourcesLinked) {operation : Operation} {change : Change}
    (hmax : ∀ number ∈ operation.sourceNumbers, number < maxNumber)
    (hallows : state.Allows operation change) : (state.apply change).SourcesLinked := by
  cases hallows with
  | initialise anchor fresh sealed unsealed source derived underived =>
    exact h.insertNew (hmax _ List.mem_cons_self) source
  | addSource source new =>
    rcases isNewSource_cases new with ⟨hfalse, -⟩ | ⟨-, hget, -⟩
    · cases hfalse
    · have hsame : (state.apply (.addSource source)).sources =
          state.sources.insertNew source.number source := (Table.insertNew_of_none hget).symm
      rw [SourcesLinked, hsame]
      exact h.insertNew (hmax _ List.mem_cons_self) ⟨true, new⟩
  | addDerived pair fresh valid next source =>
    exact h.insertNew (hmax _ List.mem_cons_self) source
  | invalidate candidate known recorded hash above parent =>
    rw [SourcesLinked, (apply_invalidate_frame _).1]
    exact h
  | rewindLocalSafe target checked =>
    have hsame : (state.apply (.rewindLocalSafe target.number)).sources = state.sources :=
      (dropLocalSafeFrom_frame _).1
    rw [SourcesLinked, hsame]
    exact h
  | _ => exact h

/-- One step keeps the indexes consistent. -/
theorem Consistent.moves (h : state.Consistent) {step : ChainStore.Step} {after : Ledger}
    (hmax : step.BlocksBounded) (hmoves : state.Moves step after) : after.Consistent := by
  cases hmoves with
  | stay => exact h
  | change allowed => exact h.apply hmax allowed
  | drop known above => exact h.dropBlocksAbove (numberBefore_lt _)

theorem SourcesLinked.moves (h : state.SourcesLinked) {step : ChainStore.Step} {after : Ledger}
    (hmax : step.SourcesBounded) (hmoves : state.Moves step after) : after.SourcesLinked := by
  cases hmoves with
  | stay => exact h
  | change allowed => exact h.apply hmax allowed
  | drop known above => exact h

/-- Heads that are cross-safe and cross-unsafe have local ones at their height or above. -/
structure HeadsOrdered (heads : Heads) : Prop where
  crossSafe : ∀ block, heads.crossSafe = some block →
    ∃ top, heads.localSafe = some top ∧ block.number ≤ top.number
  crossUnsafe : ∀ block, heads.crossUnsafe = some block →
    ∃ top, heads.localUnsafe = some top ∧ block.number ≤ top.number

theorem Consistent.headsOrdered (h : state.Consistent) : HeadsOrdered state.heads where
  crossSafe block hblock := by
    obtain ⟨head, hhead, rfl⟩ := Option.map_eq_some_iff.mp hblock
    obtain ⟨known, hknown, -⟩ := h.exists_localHead hhead
    obtain ⟨top, htop⟩ := Table.Linked.exists_last hknown
    exact ⟨top.derived.toSeal, by rw [heads, htop]; rfl, h.localDerived.le_last htop hknown⟩
  crossUnsafe block hblock := by
    obtain ⟨sealed, hsealed, -⟩ := h.crossUnsafe block hblock
    obtain ⟨top, htop⟩ := Table.Linked.exists_last hsealed
    exact ⟨top.block.toSeal, by rw [heads, latest?, htop]; rfl, h.blocks.le_last htop hsealed⟩

end Ledger

namespace ChainStore

theorem journaled_empty : empty.Journaled := ⟨[], rfl, rfl⟩

variable {store last : ChainStore} {steps : List Step}

theorem Journaled.run_consistent (h : store.Journaled) (hrun : store.run steps = .ok last)
    (hblocks : ∀ step ∈ steps, step.BlocksBounded) (hstart : store.state.Consistent) :
    last.state.Consistent ∧ last.Journaled :=
  h.run_preserves hrun (fun step hmem _ _ hstate => hstate.moves (hblocks step hmem)) hstart

/-- In every state of a chain that started in an empty directory the indexes fit together: each is
linked, cross-safe blocks are local-safe, and the heads point to what they should. -/
theorem run_fits (hblocks : ∀ step ∈ steps, step.BlocksBounded)
    (hsources : ∀ step ∈ steps, step.SourcesBounded)
    (hrun : (load .empty >>= fun new => new.run steps) = .ok last) :
    last.state.Consistent ∧ last.state.SourcesLinked ∧ Ledger.HeadsOrdered last.state.heads := by
  have hconsistent := (journaled_empty.run_consistent hrun hblocks Ledger.empty_consistent).1
  have hlinked := (journaled_empty.run_preserves (P := Ledger.SourcesLinked) hrun
    (fun step hmem _ _ hstate => hstate.moves (hsources step hmem)) .empty).1
  exact ⟨hconsistent, hlinked, hconsistent.headsOrdered⟩

/-- A run in which two blocks are derived, the first one is cross-safe twice, and the second one is
made invalid. -/
theorem run_fits_after_invalidation :
    let block (number : UInt64) (hash parent : UInt8) : BlockRef :=
      ⟨.ofBytes [hash], number, .ofBytes [parent], number⟩
    let anchor : DerivedPair := ⟨block 0 9 0, block 1 1 0⟩
    let next : DerivedPair := ⟨block 1 10 9, block 2 2 1⟩
    let steps : List Step := [.write (.initialise anchor), .write (.seal next.derived []),
      .write (.addDerived next), .write (.setCrossSafe ⟨next.source, anchor.derived⟩),
      .write (.invalidate next)]
    ∃ last, (load .empty >>= fun new => new.run steps) = .ok last ∧
      last.state.heads = ⟨some anchor.derived.toSeal, some anchor.derived.toSeal,
        some anchor.derived.toSeal, some anchor.derived.toSeal, none⟩ ∧
      last.state.Consistent ∧ last.state.SourcesLinked ∧
      Ledger.HeadsOrdered last.state.heads := by
  intro block anchor next steps
  exact ⟨_, rfl, by decide, @run_fits _ steps (by decide) (by decide) rfl⟩

end ChainStore

end CrossSafety
