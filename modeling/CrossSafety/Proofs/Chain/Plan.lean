import CrossSafety.Chain.Operation
import CrossSafety.Proofs.Outcome
import CrossSafety.Proofs.Table

/-!
# What a planned write does

A write that is allowed either has nothing to do or makes exactly one change, after the steps that
bring the logs in line. `Ledger.Allows` collects for each kind of write what was checked in the
indexes. `plan_cases` says that a plan was made under these conditions, and `plan_of_allows` that they
are enough.
-/
namespace CrossSafety

/-- Whether a write only adds to a chain. -/
def Operation.Adds : Operation → Bool
  | .initialise _ | .seal _ _ | .addSource _ | .addDerived _ => true
  | _ => false

namespace Ledger

/-- A write that is allowed, with the change it makes. -/
inductive Allows (state : Ledger) : Operation → Change → Prop where
  | initialise (anchor : DerivedPair) (fresh : state.crossDerived.isEmpty = true)
      (sealed : ∀ known, state.blocks.get? anchor.derived.number = some known →
        known.block.hash = anchor.derived.hash)
      (unsealed : state.blocks.get? anchor.derived.number = none → state.blocks.isEmpty = true)
      (source : ∃ new, state.isNewSource anchor.source = .ok new)
      (derived : ∀ known, state.localDerived.get? anchor.derived.number = some known →
        known = anchor)
      (underived : state.localDerived.get? anchor.derived.number = none →
        state.localDerived.isEmpty = true) :
      Allows state (.initialise anchor) (.initialise anchor)
  | seal (block : BlockRef) (logs : List Log)
      (next : ∀ latest, state.latest? = some latest →
        state.blocks.get? block.number = none ∧ follows block latest.block) :
      Allows state (.seal block logs) (.seal (sealedWith block logs))
  | addSource (source : BlockRef) (new : state.isNewSource source = .ok true) :
      Allows state (.addSource source) (.addSource source)
  | addDerived (pair : DerivedPair) (fresh : state.localDerived.get? pair.derived.number = none)
      (valid : state.invalidated.map BlockSeal.id ≠ some pair.derived.id)
      (next : ∀ last, state.localDerived.last? = some last →
        follows pair.derived last.derived ∧ last.source.number ≤ pair.source.number)
      (source : ∃ new, state.isNewSource pair.source = .ok new) :
      Allows state (.addDerived pair) (.addDerived pair)
  | setCrossSafe (pair known head : DerivedPair)
      (recorded : state.localDerived.get? pair.derived.number = some known)
      (hash : known.derived.hash = pair.derived.hash) (cross : state.crossSafe = some head)
      (next : pair.derived.number = head.derived.number ∧
          pair.derived.hash = head.derived.hash ∨
        pair.derived.number ≠ head.derived.number ∧ follows pair.derived head.derived)
      (source : head.source.number ≤ pair.source.number) :
      Allows state (.setCrossSafe pair) (.setCrossSafe pair)
  | invalidate (candidate known : DerivedPair)
      (recorded : state.localDerived.get? candidate.derived.number = some known)
      (hash : known.derived.hash = candidate.derived.hash)
      (above : state.requireAboveFinalized candidate.derived.parentId.number = .ok ())
      (parent : candidate.derived.number ≠ 0 →
        state.blocks.contains candidate.derived.number = true →
        ∃ sealed, state.sealedBlock candidate.derived.parentId = .ok sealed) :
      Allows state (.invalidate candidate) (.invalidate candidate.derived)
  | setCrossUnsafe (block : BlockSeal) (sealed : SealedBlock)
      (known : state.sealedBlock block.id = .ok sealed) :
      Allows state (.setCrossUnsafe block) (.setCrossUnsafe block)
  | setFinalized (block : BlockSeal) (pair : DerivedPair)
      (cross : state.crossDerived.get? block.number = some pair)
      (hash : pair.derived.hash = block.hash)
      (above : ∀ finalized, state.finalized = some finalized →
        finalized.number ≤ block.number) :
      Allows state (.setFinalized block) (.setFinalized block)
  | rewindLocalUnsafe (target : BlockId) (sealed : SealedBlock)
      (above : state.requireAboveFinalized target.number = .ok ())
      (known : state.sealedBlock target = .ok sealed) :
      Allows state (.rewindLocalUnsafe target) (.rewindLocalUnsafe target.number)
  | rewindCrossUnsafe (target : BlockId) (sealed : SealedBlock)
      (above : state.requireAboveFinalized target.number = .ok ())
      (known : state.sealedBlock target = .ok sealed) :
      Allows state (.rewindCrossUnsafe target) (.rewindCrossUnsafe sealed.block.toSeal)
  | rewindLocalSafe (target : BlockId)
      (checked : state.checkRecord state.localDerived target = .ok ()) :
      Allows state (.rewindLocalSafe target) (.rewindLocalSafe target.number)
  | rewindCrossSafe (target : BlockId)
      (checked : state.checkRecord state.crossDerived target = .ok ()) :
      Allows state (.rewindCrossSafe target) (.rewindCrossSafe target.number)

/-- Whether making a block invalid drops sealed blocks. -/
def Drops (state : Ledger) (derived : BlockRef) : Prop :=
  derived.number ≠ 0 ∧ state.blocks.contains derived.number = true

instance (state : Ledger) (derived : BlockRef) : Decidable (state.Drops derived) :=
  inferInstanceAs (Decidable (_ ∧ _))

def logSteps (state : Ledger) : Operation → List WriteStep
  | .seal block logs =>
    logs.map fun log => .addLog log.hash block.id block.timestamp log.index
  | .invalidate candidate =>
    if state.Drops candidate.derived then [.rewindLogs candidate.derived.parentId.number] else []
  | .rewindLocalUnsafe target => [.rewindLogs target.number]
  | _ => []

theorem require_eq_ok {condition : Prop} [Decidable condition] {error : StorageError} {u : Unit} :
    require condition error = .ok u ↔ condition := by
  rw [require]
  split <;> simp_all

/-- What comes after a required condition is only reached if the condition holds. -/
theorem require_bind_eq_ok {α : Type} {condition : Prop} [Decidable condition]
    {error : StorageError} {next : Unit → Except StorageError α} {result : α} :
    (require condition error >>= next) = .ok result ↔ condition ∧ next () = .ok result := by
  rw [require]
  split <;> simp_all

section Plans

variable {state : Ledger} {steps : List WriteStep}

theorem planInitialise_cases {anchor : DerivedPair} (h : state.planInitialise anchor = .ok steps) :
    steps = [] ∨ state.Allows (.initialise anchor) (.initialise anchor) ∧
      steps = [.commit (.initialise anchor)] := by
  unfold planInitialise at h
  split at h
  · rename_i hfresh
    cases hblock : state.blocks.get? anchor.derived.number <;>
      cases hlocal : state.localDerived.get? anchor.derived.number <;>
      simp only [hblock, hlocal, Outcome.bind_eq_ok, require_eq_ok, exists_const,
        Outcome.pure_eq, Except.ok.injEq] at h <;>
      obtain ⟨hsealed, new, hsource, hderived, rfl⟩ := h <;>
      refine .inr ⟨.initialise anchor hfresh ?_ ?_ ⟨new, hsource⟩ ?_ ?_, rfl⟩ <;>
      simp_all
  · obtain ⟨-, h⟩ := require_bind_eq_ok.mp h
    cases h
    exact .inl rfl

theorem planSeal_cases {block : BlockRef} {logs : List Log}
    (h : state.planSeal block logs = .ok steps) :
    steps = [] ∨ state.Allows (.seal block logs) (.seal (sealedWith block logs)) ∧
      steps = state.logSteps (.seal block logs) ++ [.commit (.seal (sealedWith block logs))] := by
  unfold planSeal at h
  dsimp only at h
  split at h
  · rename_i hnone
    cases h
    refine .inr ⟨.seal block logs fun latest hlatest => ?_, rfl⟩
    rw [hnone] at hlatest
    cases hlatest
  · rename_i latest hlatest
    split at h
    · obtain ⟨-, h⟩ := require_bind_eq_ok.mp h
      cases h
      exact .inl rfl
    · rename_i hget
      obtain ⟨hfollows, h⟩ := require_bind_eq_ok.mp h
      cases h
      refine .inr ⟨.seal block logs fun other hother => ⟨hget, ?_⟩, rfl⟩
      rw [hlatest] at hother
      cases hother
      exact hfollows

theorem planSource_cases {source : BlockRef} (h : state.planSource source = .ok steps) :
    steps = [] ∨ state.Allows (.addSource source) (.addSource source) ∧
      steps = [.commit (.addSource source)] := by
  obtain ⟨new, hnew, h⟩ := Outcome.bind_eq_ok.mp h
  split at h
  · rename_i htrue
    cases h
    exact .inr ⟨.addSource source (htrue ▸ hnew), rfl⟩
  · cases h
    exact .inl rfl

theorem planDerived_cases {pair : DerivedPair} (h : state.planDerived pair = .ok steps) :
    steps = [] ∨ state.Allows (.addDerived pair) (.addDerived pair) ∧
      steps = [.commit (.addDerived pair)] := by
  unfold planDerived at h
  split at h
  · obtain ⟨-, h⟩ := require_bind_eq_ok.mp h
    cases h
    exact .inl rfl
  · rename_i hfresh
    obtain ⟨hvalid, h⟩ := require_bind_eq_ok.mp h
    cases hlast : state.localDerived.last? <;>
      simp only [hlast, Outcome.bind_eq_ok, require_eq_ok, exists_const, Outcome.pure_eq,
        Except.ok.injEq] at h
    · obtain ⟨new, hsource, rfl⟩ := h
      exact .inr ⟨.addDerived pair hfresh hvalid (by simp [hlast]) ⟨new, hsource⟩, rfl⟩
    · obtain ⟨hnext, new, hsource, rfl⟩ := h
      exact .inr ⟨.addDerived pair hfresh hvalid (by simpa [hlast] using hnext) ⟨new, hsource⟩,
        rfl⟩

/-- A derived block that there is nothing to do for is recorded already. -/
theorem planDerived_nil {pair : DerivedPair} (h : state.planDerived pair = .ok []) :
    state.localDerived.get? pair.derived.number = some pair := by
  unfold planDerived at h
  split at h
  · rename_i existing hget
    exact hget.trans (congrArg some (require_bind_eq_ok.mp h).1)
  · obtain ⟨-, h⟩ := require_bind_eq_ok.mp h
    cases hlast : state.localDerived.last? <;> simp [hlast, Outcome.bind_eq_ok] at h

theorem planCrossSafe_cases {pair : DerivedPair} (h : state.planCrossSafe pair = .ok steps) :
    state.Allows (.setCrossSafe pair) (.setCrossSafe pair) ∧
      steps = [.commit (.setCrossSafe pair)] := by
  unfold planCrossSafe at h
  dsimp only at h
  split at h
  · cases h
  · rename_i known hknown
    obtain ⟨hhash, h⟩ := require_bind_eq_ok.mp h
    split at h
    · cases h
    · rename_i head hhead
      split at h <;>
        simp only [require_bind_eq_ok, Outcome.pure_eq, Except.ok.injEq] at h <;>
        obtain ⟨hnext, hsource, rfl⟩ := h <;>
        refine ⟨.setCrossSafe pair known head hknown hhash hhead ?_ hsource, rfl⟩
      · exact .inl ⟨‹_›, hnext⟩
      · exact .inr ⟨‹_›, hnext⟩

theorem planInvalidate_cases {candidate : DerivedPair}
    (h : state.planInvalidate candidate = .ok steps) :
    state.Allows (.invalidate candidate) (.invalidate candidate.derived) ∧
      steps = state.logSteps (.invalidate candidate) ++
        [.commit (.invalidate candidate.derived)] := by
  unfold planInvalidate at h
  dsimp only at h
  split at h
  · cases h
  · rename_i known hknown
    obtain ⟨hhash, h⟩ := require_bind_eq_ok.mp h
    obtain ⟨_, habove, h⟩ := Outcome.bind_eq_ok.mp h
    split at h
    · rename_i hdrops
      change state.Drops candidate.derived at hdrops
      obtain ⟨_, hkept, h⟩ := Outcome.bind_eq_ok.mp h
      obtain ⟨_, -, hkept⟩ := Outcome.bind_eq_ok.mp hkept
      obtain ⟨sealed, hsealed, -⟩ := Outcome.bind_eq_ok.mp hkept
      cases h
      refine ⟨.invalidate candidate known hknown hhash habove fun _ _ => ⟨sealed, hsealed⟩, ?_⟩
      rw [logSteps, if_pos hdrops]
      rfl
    · rename_i hdrops
      change ¬state.Drops candidate.derived at hdrops
      cases h
      refine ⟨.invalidate candidate known hknown hhash habove
        fun hzero hcontains => absurd ⟨hzero, hcontains⟩ hdrops, ?_⟩
      rw [logSteps, if_neg hdrops]
      rfl

theorem planFinalized_cases {block : BlockSeal} (h : state.planFinalized block = .ok steps) :
    state.Allows (.setFinalized block) (.setFinalized block) ∧
      steps = [.commit (.setFinalized block)] := by
  unfold planFinalized at h
  dsimp only at h
  split at h
  · cases h
  · rename_i pair hpair
    obtain ⟨hhash, h⟩ := require_bind_eq_ok.mp h
    cases hfinalized : state.finalized <;>
      simp only [hfinalized, require_bind_eq_ok, Outcome.pure_eq, Except.ok.injEq] at h
    · subst h
      exact ⟨.setFinalized block pair hpair hhash (by simp [hfinalized]), rfl⟩
    · obtain ⟨habove, rfl⟩ := h
      exact ⟨.setFinalized block pair hpair hhash (by simpa [hfinalized] using habove), rfl⟩

/-- A plan has nothing to do, or is allowed and makes one change after the logs are in line. -/
theorem plan_cases {operation : Operation} (h : state.plan operation = .ok steps) :
    steps = [] ∨ ∃ change, state.Allows operation change ∧
      steps = state.logSteps operation ++ [.commit change] := by
  cases operation with
  | initialise anchor => exact (planInitialise_cases h).imp_right fun hc => ⟨_, hc⟩
  | «seal» block logs => exact (planSeal_cases h).imp_right fun hc => ⟨_, hc⟩
  | addSource source => exact (planSource_cases h).imp_right fun hc => ⟨_, hc⟩
  | addDerived pair => exact (planDerived_cases h).imp_right fun hc => ⟨_, hc⟩
  | setCrossSafe pair => exact .inr ⟨_, planCrossSafe_cases h⟩
  | invalidate candidate => exact .inr ⟨_, planInvalidate_cases h⟩
  | setCrossUnsafe block =>
    obtain ⟨sealed, hsealed, h⟩ := Outcome.bind_eq_ok.mp h
    cases h
    exact .inr ⟨_, .setCrossUnsafe block sealed hsealed, rfl⟩
  | setFinalized block => exact .inr ⟨_, planFinalized_cases h⟩
  | rewindLocalUnsafe target =>
    simp only [plan, requireKept, Outcome.bind_eq_ok, Outcome.pure_eq, Except.ok.injEq] at h
    obtain ⟨_, ⟨_, habove, sealed, hsealed, -⟩, rfl⟩ := h
    exact .inr ⟨_, .rewindLocalUnsafe target sealed habove hsealed, rfl⟩
  | rewindCrossUnsafe target =>
    obtain ⟨_, habove, h⟩ := Outcome.bind_eq_ok.mp h
    obtain ⟨sealed, hsealed, h⟩ := Outcome.bind_eq_ok.mp h
    cases h
    exact .inr ⟨_, .rewindCrossUnsafe target sealed habove hsealed, rfl⟩
  | rewindLocalSafe target =>
    obtain ⟨_, hchecked, h⟩ := Outcome.bind_eq_ok.mp h
    cases h
    exact .inr ⟨_, .rewindLocalSafe target hchecked, rfl⟩
  | rewindCrossSafe target =>
    obtain ⟨_, hchecked, h⟩ := Outcome.bind_eq_ok.mp h
    cases h
    exact .inr ⟨_, .rewindCrossSafe target hchecked, rfl⟩

/-! The conditions of an allowed write are also all that its plan asks for. -/

theorem planInitialise_of_allows {anchor : DerivedPair}
    (h : state.Allows (.initialise anchor) (.initialise anchor)) :
    state.planInitialise anchor = .ok [.commit (.initialise anchor)] := by
  cases h with
  | initialise _ fresh sealed unsealed source derived underived =>
    obtain ⟨new, hnew⟩ := source
    cases hblock : state.blocks.get? anchor.derived.number <;>
      cases hlocal : state.localDerived.get? anchor.derived.number <;>
      simp_all [planInitialise, require]

theorem planSeal_of_allows {block : BlockRef} {logs : List Log}
    (h : state.Allows (.seal block logs) (.seal (sealedWith block logs))) :
    state.planSeal block logs =
      .ok (state.logSteps (.seal block logs) ++ [.commit (.seal (sealedWith block logs))]) := by
  cases h with
  | «seal» _ _ next =>
    unfold planSeal
    dsimp only
    cases hlatest : state.latest? with
    | none => rfl
    | some latest =>
      obtain ⟨hnone, hfollows⟩ := next latest hlatest
      rw [hnone]
      exact require_bind_eq_ok.mpr ⟨hfollows, rfl⟩

theorem planDerived_of_allows {pair : DerivedPair}
    (h : state.Allows (.addDerived pair) (.addDerived pair)) :
    state.planDerived pair = .ok [.commit (.addDerived pair)] := by
  cases h with
  | addDerived _ fresh valid next source =>
    obtain ⟨new, hnew⟩ := source
    unfold planDerived
    rw [fresh]
    refine require_bind_eq_ok.mpr ⟨valid, ?_⟩
    rw [hnew]
    cases hlast : state.localDerived.last? with
    | none => rfl
    | some last => exact require_bind_eq_ok.mpr ⟨next last hlast, rfl⟩

theorem planCrossSafe_of_allows {pair : DerivedPair}
    (h : state.Allows (.setCrossSafe pair) (.setCrossSafe pair)) :
    state.planCrossSafe pair = .ok [.commit (.setCrossSafe pair)] := by
  cases h with
  | setCrossSafe _ known head recorded hash cross next source =>
    unfold planCrossSafe
    dsimp only
    rw [recorded, cross]
    refine require_bind_eq_ok.mpr ⟨hash, ?_⟩
    dsimp only
    rcases next with ⟨hsame, hblock⟩ | ⟨hother, hfollows⟩
    · rw [if_pos hsame]
      exact require_bind_eq_ok.mpr ⟨hblock, require_bind_eq_ok.mpr ⟨source, rfl⟩⟩
    · rw [if_neg hother]
      exact require_bind_eq_ok.mpr ⟨hfollows, require_bind_eq_ok.mpr ⟨source, rfl⟩⟩

theorem planInvalidate_of_allows {candidate : DerivedPair}
    (h : state.Allows (.invalidate candidate) (.invalidate candidate.derived)) :
    state.planInvalidate candidate =
      .ok (state.logSteps (.invalidate candidate) ++ [.commit (.invalidate candidate.derived)]) := by
  cases h with
  | invalidate _ known recorded hash above parent =>
    unfold planInvalidate
    dsimp only
    rw [recorded]
    refine require_bind_eq_ok.mpr ⟨hash, ?_⟩
    rw [above, Outcome.ok_bind]
    split
    · rename_i hdrops
      change state.Drops candidate.derived at hdrops
      obtain ⟨sealed, hsealed⟩ := parent hdrops.1 hdrops.2
      rw [requireKept, above, Outcome.ok_bind, hsealed, logSteps, if_pos hdrops]
      rfl
    · rename_i hdrops
      change ¬state.Drops candidate.derived at hdrops
      rw [logSteps, if_neg hdrops]
      rfl

theorem planFinalized_of_allows {block : BlockSeal}
    (h : state.Allows (.setFinalized block) (.setFinalized block)) :
    state.planFinalized block = .ok [.commit (.setFinalized block)] := by
  cases h with
  | setFinalized _ pair cross hash above =>
    unfold planFinalized
    dsimp only
    rw [cross]
    refine require_bind_eq_ok.mpr ⟨hash, ?_⟩
    cases hfinalized : state.finalized with
    | none => rfl
    | some finalized => exact require_bind_eq_ok.mpr ⟨above finalized hfinalized, rfl⟩

/-- An allowed write is planned with its change, after the steps that bring the logs in line. -/
theorem plan_of_allows {operation : Operation} {change : Change}
    (h : state.Allows operation change) :
    state.plan operation = .ok (state.logSteps operation ++ [.commit change]) := by
  cases id h with
  | initialise => exact planInitialise_of_allows h
  | «seal» => exact planSeal_of_allows h
  | addSource source new =>
    change state.planSource source = _
    rw [planSource, new]
    rfl
  | addDerived => exact planDerived_of_allows h
  | setCrossSafe => exact planCrossSafe_of_allows h
  | invalidate => exact planInvalidate_of_allows h
  | setCrossUnsafe block sealed known =>
    rw [plan, known]
    rfl
  | setFinalized => exact planFinalized_of_allows h
  | rewindLocalUnsafe target sealed above known =>
    rw [plan, requireKept, above, Outcome.ok_bind, known]
    rfl
  | rewindCrossUnsafe target sealed above known =>
    rw [plan, above, Outcome.ok_bind, known]
    rfl
  | rewindLocalSafe target checked =>
    rw [plan, checked]
    rfl
  | rewindCrossSafe target checked =>
    rw [plan, checked]
    rfl

/-- Only writes that add something can have nothing to do. -/
theorem adds_of_plan_nil {operation : Operation} (h : state.plan operation = .ok []) :
    operation.Adds = true := by
  cases operation with
  | initialise | «seal» | addSource | addDerived => rfl
  | setCrossSafe pair => cases (planCrossSafe_cases h).2
  | invalidate candidate =>
    exact absurd (planInvalidate_cases h).2 (List.append_ne_nil_of_right_ne_nil _
      (List.cons_ne_nil _ _)).symm
  | setFinalized block => cases (planFinalized_cases h).2
  | setCrossUnsafe | rewindLocalUnsafe | rewindCrossUnsafe | rewindLocalSafe | rewindCrossSafe =>
    simp only [plan, Outcome.bind_eq_ok, Outcome.pure_eq, Except.ok.injEq, List.cons_ne_nil,
      and_false, exists_false] at h

end Plans

end Ledger

end CrossSafety
