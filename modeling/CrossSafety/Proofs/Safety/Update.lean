import CrossSafety.Proofs.Safety.Cascade

/-!
# What an update of a chain does

An update leaves the state as it was, makes the candidate the cross-safe head, records the head in
the next source block, or invalidates a candidate whose checks ended in a conflict, together with
the blocks that depend on it. `Updates` tells the result along with the state; `Updated` only what
was written.
-/
namespace CrossSafety.Promoter

variable {σ : Type}

/-- The result of an update of a chain and the state after it. Any of the writes may come after
some notes. -/
inductive Updates (promoter : Promoter σ) (chain : ChainId) (state : σ) :
    Except CrossSafetyError PromotionOutcome → σ → Prop where
  | missing {error : StorageError} {after : σ} (notes : promoter.store.Noted state after)
      (missing : (promoter.store.view state).candidate chain = .error error) :
      Updates promoter chain state (.error (.storage error)) after
  | deferred {candidate : DerivedPair} {error : CrossSafetyError} {after : σ}
      (notes : promoter.store.Noted state after)
      (found : (promoter.store.view state).candidate chain = .ok candidate)
      (verdict : promoter.verdict (promoter.store.view state) chain candidate = .error error)
      (inside : error.isOutOfScope = false) (tame : error.isConflict = false) :
      Updates promoter chain state (.error error) after
  | promoted {noted after : σ} {candidate : DerivedPair} (notes : promoter.store.Noted state noted)
      (found : (promoter.store.view state).candidate chain = .ok candidate)
      (verdict : promoter.verdict (promoter.store.view state) chain candidate = .ok ())
      (write : promoter.store.setCrossSafe chain candidate noted = (.ok (), after)) :
      Updates promoter chain state (.ok (.promoted candidate)) after
  | unwidened {candidate : DerivedPair} {error : CrossSafetyError} {cause : StorageError}
      {after : σ} (notes : promoter.store.Noted state after)
      (found : (promoter.store.view state).candidate chain = .ok candidate)
      (verdict : promoter.verdict (promoter.store.view state) chain candidate = .error error)
      (scope : error.isOutOfScope = true) :
      Updates promoter chain state (.error (.storage cause)) after
  | refused {noted after : σ} {candidate head : DerivedPair} {source : BlockRef}
      {error : CrossSafetyError} {cause : StorageError} (notes : promoter.store.Noted state noted)
      (found : (promoter.store.view state).candidate chain = .ok candidate)
      (verdict : promoter.verdict (promoter.store.view state) chain candidate = .error error)
      (scope : error.isOutOfScope = true)
      (current : (promoter.store.view state).crossSafe chain = .ok head)
      (write : promoter.store.setCrossSafe chain ⟨source, head.derived⟩ noted =
        (.error cause, after)) :
      Updates promoter chain state (.error (.storage cause)) after
  | widened {noted after : σ} {candidate head : DerivedPair} {source : BlockRef}
      {error : CrossSafetyError} (notes : promoter.store.Noted state noted)
      (found : (promoter.store.view state).candidate chain = .ok candidate)
      (verdict : promoter.verdict (promoter.store.view state) chain candidate = .error error)
      (scope : error.isOutOfScope = true)
      (next : (promoter.store.view state).sourceAfter chain candidate.source.id = .ok source)
      (current : (promoter.store.view state).crossSafe chain = .ok head)
      (write : promoter.store.setCrossSafe chain ⟨source, head.derived⟩ noted = (.ok (), after)) :
      Updates promoter chain state (.ok (.scopeWidened ⟨source, head.derived⟩)) after
  | invalidated {noted after : σ} {candidate : DerivedPair} {error : CrossSafetyError}
      {result : Except CrossSafetyError (List Dependent)} {done : σ}
      (notes : promoter.store.Noted state noted)
      (found : (promoter.store.view state).candidate chain = .ok candidate)
      (verdict : promoter.verdict (promoter.store.view state) chain candidate = .error error)
      (conflict : error.isConflict = true)
      (cascade : (promoter.store.cascade .empty [⟨chain, candidate⟩]).from noted = (result, done))
      (last : promoter.store.Noted done after) :
      Updates promoter chain state (result.map .invalidated) after

/-- The state after an update of a chain. Any of the writes may come after some notes. -/
inductive Updated (promoter : Promoter σ) (chain : ChainId) (state : σ) : σ → Prop where
  | unchanged {after : σ} (notes : promoter.store.Noted state after) :
      Updated promoter chain state after
  | promoted {noted : σ} {candidate : DerivedPair} (notes : promoter.store.Noted state noted)
      (found : (promoter.store.view state).candidate chain = .ok candidate)
      (verdict : promoter.verdict (promoter.store.view state) chain candidate = .ok ()) :
      Updated promoter chain state (promoter.store.setCrossSafe chain candidate noted).2
  | widened {noted : σ} {head : DerivedPair} {source : BlockRef}
      (notes : promoter.store.Noted state noted)
      (found : (promoter.store.view state).crossSafe chain = .ok head) :
      Updated promoter chain state
        (promoter.store.setCrossSafe chain ⟨source, head.derived⟩ noted).2
  | invalidated {noted after : σ} {candidate : DerivedPair} {error : CrossSafetyError}
      (notes : promoter.store.Noted state noted)
      (found : (promoter.store.view state).candidate chain = .ok candidate)
      (verdict : promoter.verdict (promoter.store.view state) chain candidate = .error error)
      (conflict : error.isConflict = true)
      (last : promoter.store.Noted
        ((promoter.store.cascade .empty [⟨chain, candidate⟩]).from noted).2 after) :
      Updated promoter chain state after

variable {promoter : Promoter σ} {chain : ChainId}

theorem widenScope_from (hunseen : promoter.store.NotesUnseen) {candidate : DerivedPair}
    {error : CrossSafetyError} {state noted : σ} (hnoted : promoter.store.Noted state noted)
    (hfound : (promoter.store.view state).candidate chain = .ok candidate)
    (hverdict : promoter.verdict (promoter.store.view state) chain candidate = .error error)
    (hscope : error.isOutOfScope = true) :
    ∃ result after, (promoter.widenScope chain candidate).from noted = (result, after) ∧
      promoter.Updates chain state (result.map .scopeWidened) after := by
  obtain ⟨read, hread, hcheck⟩ := promoter.store.check_from (fun view => do
    let next ← .require (.sourceAfter chain candidate.source.id)
      (view.sourceAfter chain candidate.source.id)
    let head ← .require (.crossSafe chain) (view.crossSafe chain)
    return (⟨next, head.derived⟩ : DerivedPair)) noted
  rw [widenScope, Promotion.from_bind, hcheck, hnoted.view_eq hunseen]
  have hall := hnoted.trans hread
  simp only [Check.result_bind, Check.result_require]
  cases hnext : (promoter.store.view state).sourceAfter chain candidate.source.id with
  | error cause => exact ⟨_, _, rfl, .unwidened hall hfound hverdict hscope⟩
  | ok source =>
    cases hhead : (promoter.store.view state).crossSafe chain with
    | error cause => exact ⟨_, _, rfl, .unwidened hall hfound hverdict hscope⟩
    | ok head =>
      simp only [Outcome.mapError_ok, Outcome.ok_bind, Check.result_pure]
      rw [Promotion.from_bind, SafetyStore.write_from]
      cases hwrite : promoter.store.setCrossSafe chain ⟨source, head.derived⟩ read with
      | mk written after =>
        cases written with
        | error cause => exact ⟨_, _, rfl, .refused hall hfound hverdict hscope hhead hwrite⟩
        | ok done =>
          exact ⟨_, _, rfl, .widened hall hfound hverdict hscope hnext hhead hwrite⟩

theorem invalidate_from {candidate : DerivedPair} {cause : CrossSafetyError} {state noted : σ}
    (hnoted : promoter.store.Noted state noted)
    (hfound : (promoter.store.view state).candidate chain = .ok candidate)
    (hverdict : promoter.verdict (promoter.store.view state) chain candidate = .error cause)
    (hconflict : cause.isConflict = true) :
    ∃ result after, (promoter.invalidate chain candidate cause).from noted = (result, after) ∧
      promoter.Updates chain state (result.map .invalidated) after := by
  have hrest {told : σ} (htold : promoter.store.Noted noted told) :
      ∃ result after, (do
        let blocks ← promoter.store.cascade .empty [⟨chain, candidate⟩]
        promoter.store.tell (.invalidated chain blocks.length)
        return blocks : Promotion σ (List Dependent)).from told = (result, after) ∧
      promoter.Updates chain state (result.map .invalidated) after := by
    rw [Promotion.from_bind]
    cases hcascade : (promoter.store.cascade .empty [⟨chain, candidate⟩]).from told with
    | mk result done =>
      have hlast {after : σ} (hafter : promoter.store.Noted done after) :
          promoter.Updates chain state (result.map .invalidated) after :=
        .invalidated (hnoted.trans htold) hfound hverdict hconflict hcascade hafter
      cases result with
      | error error => exact ⟨_, _, rfl, hlast (.refl done)⟩
      | ok blocks =>
        obtain ⟨last, hnotes, htell⟩ :=
          promoter.store.tell_from (.invalidated chain blocks.length) done
        dsimp only
        rw [Promotion.from_bind, htell]
        exact ⟨_, _, rfl, hlast hnotes⟩
  unfold invalidate
  split
  · obtain ⟨told, htold, hcycle⟩ := promoter.store.tell_from (.cycle chain) noted
    rw [Promotion.from_bind, hcycle]
    exact hrest htold
  · exact hrest (.refl noted)

/-- All that an update does and returns, if the store takes the candidates that it gives. -/
theorem update_from (hunseen : promoter.store.NotesUnseen) (state : σ)
    (htakes : ∀ noted candidate, promoter.store.Noted state noted →
      (promoter.store.view state).candidate chain = .ok candidate →
      (promoter.store.setCrossSafe chain candidate noted).1 = .ok ()) :
    promoter.Updates chain state ((promoter.update chain).from state).1
      ((promoter.update chain).from state).2 := by
  obtain ⟨read, hread, hcheck⟩ := promoter.store.check_from
    (fun view => .require (.candidate chain) (view.candidate chain)) state
  rw [update, Promotion.from_bind, candidate, hcheck, Check.result_require]
  cases hfound : (promoter.store.view state).candidate chain with
  | error error => exact .missing hread hfound
  | ok candidate =>
    obtain ⟨noted, hnotes, haccept⟩ := promoter.accept_from hunseen chain candidate read
    have hall := hread.trans hnotes
    rw [hread.view_eq hunseen] at haccept
    rw [Outcome.mapError_ok]
    dsimp only
    rw [Promotion.from_tryCatch, Promotion.from_bind, haccept]
    cases hverdict : promoter.verdict (promoter.store.view state) chain candidate with
    | ok =>
      dsimp only
      have hwrite := htakes noted candidate hall hfound
      rw [hwrite]
      exact .promoted hall hfound hverdict (Prod.ext hwrite rfl)
    | error cause =>
      dsimp only
      by_cases hscope : cause.isOutOfScope
      · obtain ⟨result, after, hwiden, hupdates⟩ := widenScope_from hunseen hall hfound hverdict hscope
        rw [if_pos hscope, Promotion.from_bind, hwiden]
        cases result <;> exact hupdates
      · rw [if_neg hscope]
        by_cases hconflict : cause.isConflict
        · obtain ⟨result, after, hinvalidate, hupdates⟩ :=
            invalidate_from hall hfound hverdict hconflict
          rw [if_pos hconflict, Promotion.from_bind, hinvalidate]
          cases result <;> exact hupdates
        · rw [if_neg hconflict]
          exact .deferred hall hfound hverdict (Bool.eq_false_iff.mpr hscope)
            (Bool.eq_false_iff.mpr hconflict)

/-- An update that promotes a block found it as the candidate and accepted it. -/
theorem Updates.exists_promotion {state after : σ} {pair : DerivedPair}
    (h : promoter.Updates chain state (.ok (.promoted pair)) after) :
    ∃ noted, promoter.store.Noted state noted ∧
      (promoter.store.view state).candidate chain = .ok pair ∧
      promoter.verdict (promoter.store.view state) chain pair = .ok () ∧
      promoter.store.setCrossSafe chain pair noted = (.ok (), after) := by
  generalize hresult : Except.ok (PromotionOutcome.promoted pair) = result at h
  cases h with
  | missing | deferred | unwidened | refused | widened => cases hresult
  | promoted notes found verdict write =>
    cases hresult
    exact ⟨_, notes, found, verdict, write⟩
  | @invalidated _ _ _ _ result => cases result <;> cases hresult

/-- An update that widens the scope checked a candidate that depends on something beyond it. -/
theorem Updates.exists_widening {state after : σ} {pair : DerivedPair}
    (h : promoter.Updates chain state (.ok (.scopeWidened pair)) after) :
    ∃ noted candidate error head source, promoter.store.Noted state noted ∧
      (promoter.store.view state).candidate chain = .ok candidate ∧
      promoter.verdict (promoter.store.view state) chain candidate = .error error ∧
      error.isOutOfScope = true ∧
      (promoter.store.view state).sourceAfter chain candidate.source.id = .ok source ∧
      (promoter.store.view state).crossSafe chain = .ok head ∧ pair = ⟨source, head.derived⟩ ∧
      promoter.store.setCrossSafe chain pair noted = (.ok (), after) := by
  generalize hresult : Except.ok (PromotionOutcome.scopeWidened pair) = result at h
  cases h with
  | missing | deferred | unwidened | refused | promoted => cases hresult
  | widened notes found verdict scope next current write =>
    cases hresult
    exact ⟨_, _, _, _, _, notes, found, verdict, scope, next, current, rfl, write⟩
  | @invalidated _ _ _ _ result => cases result <;> cases hresult

/-- An update that invalidates its candidate runs a cascade from it to the end. -/
theorem Updates.exists_cascade {state after : σ} {blocks : List Dependent}
    (h : promoter.Updates chain state (.ok (.invalidated blocks)) after) :
    ∃ noted candidate run, promoter.store.Noted state noted ∧
      (promoter.store.view state).candidate chain = .ok candidate ∧
      promoter.store.Cascades .empty [⟨chain, candidate⟩] noted run ∧
      run.failure = none ∧ run.blocks = blocks ∧ promoter.store.Noted run.after after := by
  generalize hresult : Except.ok (PromotionOutcome.invalidated blocks) = result at h
  cases h with
  | missing | deferred | promoted | unwidened | refused | widened => cases hresult
  | @invalidated noted after candidate error result done notes found _ _ cascade last =>
    cases result with
    | error error => cases hresult
    | ok dropped =>
      cases hresult
      obtain ⟨run, hrun, hends, -⟩ :=
        promoter.store.exists_cascades .empty [⟨chain, candidate⟩] noted
      rw [cascade, Prod.mk.injEq] at hends
      obtain ⟨hdone, hblocks⟩ := CascadeRun.result_eq_ok.mp hends.1.symm
      exact ⟨noted, candidate, run, notes, found, hrun, hdone, hblocks, hends.2 ▸ last⟩

/-- An update that fails writes nothing, is refused another source for the head, or stops in a
cascade from a candidate in conflict. -/
theorem Updates.failed_cases {state after : σ} {error : CrossSafetyError}
    (h : promoter.Updates chain state (.error error) after) :
    promoter.store.Noted state after ∨
      (∃ noted pair cause, promoter.store.Noted state noted ∧
        promoter.store.setCrossSafe chain pair noted = (.error cause, after)) ∨
      ∃ noted candidate conflict run cause, promoter.store.Noted state noted ∧
        (promoter.store.view state).candidate chain = .ok candidate ∧
        promoter.verdict (promoter.store.view state) chain candidate = .error conflict ∧
        conflict.isConflict = true ∧
        promoter.store.Cascades .empty [⟨chain, candidate⟩] noted run ∧
        run.failure = some cause ∧ promoter.store.Noted run.after after := by
  generalize hresult : Except.error error = result at h
  cases h with
  | promoted | widened => cases hresult
  | missing notes | deferred notes | unwidened notes => exact .inl notes
  | refused notes _ _ _ _ write => exact .inr (.inl ⟨_, _, _, notes, write⟩)
  | @invalidated noted after candidate _ result done notes found verdict conflict cascade last =>
    cases result with
    | ok dropped => cases hresult
    | error cause =>
      obtain ⟨run, hrun, hends, -⟩ :=
        promoter.store.exists_cascades .empty [⟨chain, candidate⟩] noted
      rw [cascade, Prod.mk.injEq] at hends
      have hfailed := CascadeRun.result_eq_error.mp hends.1.symm
      exact .inr (.inr ⟨noted, candidate, _, run, cause, notes, found, verdict, conflict, hrun,
        hfailed, hends.2 ▸ last⟩)

/-- An update that invalidates its candidate found a conflict in its checks. -/
theorem Updates.exists_conflict {state after : σ} {blocks : List Dependent}
    (h : promoter.Updates chain state (.ok (.invalidated blocks)) after) :
    ∃ candidate error, (promoter.store.view state).candidate chain = .ok candidate ∧
      promoter.verdict (promoter.store.view state) chain candidate = .error error ∧
      error.isConflict = true := by
  generalize hresult : Except.ok (PromotionOutcome.invalidated blocks) = result at h
  cases h with
  | missing | deferred | promoted | unwidened | refused | widened => cases hresult
  | invalidated _ found verdict conflict => exact ⟨_, _, found, verdict, conflict⟩

/-- A candidate whose checks end in a conflict is invalidated by a cascade from it. -/
theorem Updates.result_of_conflict {state after : σ}
    {result : Except CrossSafetyError PromotionOutcome}
    (h : promoter.Updates chain state result after) {candidate : DerivedPair}
    {error : CrossSafetyError}
    (hfound : (promoter.store.view state).candidate chain = .ok candidate)
    (hverdict : promoter.verdict (promoter.store.view state) chain candidate = .error error)
    (hconflict : error.isConflict = true) :
    ∃ noted, promoter.store.Noted state noted ∧
      result = ((promoter.store.cascade .empty [⟨chain, candidate⟩]).from noted).1.map
        .invalidated := by
  have hinside : error.isOutOfScope = false := by
    cases error <;> first | rfl | cases hconflict
  cases h with
  | missing _ missing =>
    rw [hfound] at missing
    cases missing
  | deferred _ found verdict _ tame =>
    rw [hfound] at found
    cases found
    rw [hverdict] at verdict
    cases verdict
    rw [hconflict] at tame
    cases tame
  | promoted _ found verdict =>
    rw [hfound] at found
    cases found
    rw [hverdict] at verdict
    cases verdict
  | unwidened _ found verdict scope | refused _ found verdict scope
  | widened _ found verdict scope =>
    rw [hfound] at found
    cases found
    rw [hverdict] at verdict
    cases verdict
    rw [hinside] at scope
    cases scope
  | invalidated notes found verdict _ cascade =>
    rw [hfound] at found
    cases found
    exact ⟨_, notes, by rw [cascade]⟩

/-- All that an update does, if the store takes the candidates that it gives. -/
theorem update_cases (hunseen : promoter.store.NotesUnseen) (state : σ)
    (htakes : ∀ noted candidate, promoter.store.Noted state noted →
      (promoter.store.view state).candidate chain = .ok candidate →
      (promoter.store.setCrossSafe chain candidate noted).1 = .ok ()) :
    promoter.Updated chain state ((promoter.update chain).from state).2 := by
  have hupdates := update_from hunseen state htakes
  generalize ((promoter.update chain).from state).1 = result at hupdates
  generalize ((promoter.update chain).from state).2 = after at hupdates
  cases hupdates with
  | missing notes | deferred notes | unwidened notes => exact .unchanged notes
  | promoted notes found verdict write =>
    cases congrArg Prod.snd write
    exact .promoted notes found verdict
  | widened notes _ _ _ _ current write =>
    cases congrArg Prod.snd write
    exact .widened notes current
  | refused notes _ _ _ current write =>
    cases congrArg Prod.snd write
    exact .widened notes current
  | invalidated notes found verdict conflict cascade last =>
    exact .invalidated notes found verdict conflict (by rwa [cascade])

end CrossSafety.Promoter
