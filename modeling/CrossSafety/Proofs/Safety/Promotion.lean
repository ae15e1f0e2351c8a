import CrossSafety.Proofs.Safety.Checks
import CrossSafety.Proofs.Safety.Order
import CrossSafety.Safety.Promotion

/-!
# How a promotion proceeds

A promotion reads, notes and writes. Notes do not show in what is read, so the checks of a
candidate are all made on the same view, and `Promoter.verdict` is their common result. Only if it
is positive does the promotion write.
-/
namespace CrossSafety

variable {σ α β : Type}

/-- Result and state of a promotion that starts in some state. -/
def Promotion.from (promotion : Promotion σ α) (state : σ) : Except CrossSafetyError α × σ :=
  (ExceptT.run promotion).run state

namespace Promotion

@[simp] theorem from_pure (value : α) (state : σ) :
    (pure value : Promotion σ α).from state = (.ok value, state) := rfl

@[simp] theorem from_throw (error : CrossSafetyError) (state : σ) :
    (throw error : Promotion σ α).from state = (.error error, state) := rfl

theorem from_bind (first : Promotion σ α) (next : α → Promotion σ β) (state : σ) :
    (first >>= next).from state = match first.from state with
      | (.ok value, state) => (next value).from state
      | (.error error, state) => (.error error, state) := by
  rw [Promotion.from, Promotion.from, ExceptT.run_bind, StateT.run_bind]
  generalize (ExceptT.run first).run state = outcome
  obtain ⟨result, after⟩ := outcome
  cases result <;> rfl

theorem from_map (first : Promotion σ α) (f : α → β) (state : σ) :
    (do return f (← first) : Promotion σ β).from state =
      ((first.from state).1.map f, (first.from state).2) := by
  rw [from_bind]
  generalize first.from state = outcome
  obtain ⟨result, after⟩ := outcome
  cases result <;> rfl

theorem from_tryCatch (first : Promotion σ α) (handle : CrossSafetyError → Promotion σ α)
    (state : σ) : (tryCatch first handle).from state = match first.from state with
      | (.ok value, state) => (.ok value, state)
      | (.error error, state) => (handle error).from state := by
  rw [Promotion.from, Promotion.from, ExceptT.run_tryCatch, StateT.run_bind]
  generalize (ExceptT.run first).run state = outcome
  obtain ⟨result, after⟩ := outcome
  cases result <;> rfl

end Promotion

namespace SafetyStore

variable {store : SafetyStore σ}

/-- A state differs from another one in notes only. -/
def Noted (store : SafetyStore σ) (state after : σ) : Prop :=
  ∃ notes : List PromotionNote,
    after = notes.foldl (fun state note => store.note note state) state

theorem Noted.refl (state : σ) : store.Noted state state := ⟨[], rfl⟩

theorem Noted.trans {state middle after : σ} (h : store.Noted state middle)
    (h' : store.Noted middle after) : store.Noted state after := by
  obtain ⟨first, rfl⟩ := h
  obtain ⟨second, rfl⟩ := h'
  exact ⟨first ++ second, by rw [List.foldl_append]⟩

/-- A store whose notes do not show in what is read. -/
def NotesUnseen (store : SafetyStore σ) : Prop :=
  ∀ note state, store.view (store.note note state) = store.view state

theorem Noted.view_eq (hunseen : store.NotesUnseen) {state after : σ}
    (h : store.Noted state after) : store.view after = store.view state := by
  obtain ⟨notes, rfl⟩ := h
  induction notes generalizing state with
  | nil => rfl
  | cons note rest ih => rw [List.foldl_cons, ih, hunseen]

theorem check_from (run : SafetyView → Check α) (state : σ) :
    ∃ after, store.Noted state after ∧
      (store.check run).from state = ((run (store.view state)).result, after) :=
  ⟨_, ⟨(run (store.view state)).reads.map .took, by rw [List.foldl_map]⟩, rfl⟩

theorem tell_from (note : PromotionNote) (state : σ) :
    ∃ after, store.Noted state after ∧ (store.tell note).from state = (.ok (), after) :=
  ⟨_, ⟨[note], rfl⟩, rfl⟩

theorem write_from (write : σ → Except StorageError Unit × σ) (state : σ) :
    (SafetyStore.write write).from state = ((write state).1.mapError .storage, (write state).2) :=
  rfl

end SafetyStore

/-- A block that the checks of a candidate went through. -/
structure Examined (view : SafetyView) (set : DependencySet) (valid : ChainId → BlockSeal → Prop)
    (timestamp : UInt64) (hazards : Hazards) (executor : PendingBlock) : Prop where
  time : executor.block.timestamp = timestamp
  passes : ∃ opened, BlockPasses view set valid hazards executor opened
  joint : view.OnlyJoint timestamp hazards executor

/-- A block and its hazards all went through the checks, and the hazards' logs have ranks. -/
structure Accepted (view : SafetyView) (set : DependencySet) (valid : ChainId → BlockSeal → Prop)
    (hazards : Hazards) (start : PendingBlock) : Prop where
  first : Examined view set valid start.block.timestamp hazards start
  others : ∀ index hazard, hazards.get? index = some hazard →
    ∃ chain, set.idOfIndex index = .ok chain ∧
      Examined view set valid start.block.timestamp hazards ⟨chain, hazard⟩
  ordered : ∃ blocks rank bound,
    Hazards.Ordered view set start.block.timestamp hazards blocks rank ∧
      ∀ index log, rank index log ≤ bound

/-- A view that finds a log only in a block of the timestamp that is asked for. -/
def SafetyView.Dated (view : SafetyView) : Prop :=
  ∀ chain query block, view.contains chain query = .ok block → block.timestamp = query.timestamp

/-- A block that can be reached by messages of their own timestamp has the timestamp of the first
block. -/
theorem SafetyView.Dated.time_eq {view : SafetyView} (hdated : view.Dated) {set : DependencySet}
    {start other : PendingBlock} (h : Relation.TransGen (view.Refers set) start other) :
    other.block.timestamp = start.block.timestamp := by
  have hstep {executor next : PendingBlock} (h : view.Refers set executor next) :
      next.block.timestamp = executor.block.timestamp := by
    obtain ⟨_, _, message, -, -, htime, -, hholder⟩ := h
    exact (hdated _ _ _ hholder).trans htime
  induction h with
  | single h => exact hstep h
  | tail _ h ih => exact (hstep h).trans ih

/-- A block that is reached was found to hold the log of a message. -/
theorem SafetyView.exists_contains {view : SafetyView} {set : DependencySet}
    {start other : PendingBlock} (h : Relation.TransGen (view.Refers set) start other) :
    ∃ index query, set.idOfIndex index = .ok other.chain ∧
      view.contains other.chain query = .ok other.block := by
  cases h with
  | single hrefers | tail _ hrefers =>
    obtain ⟨_, _, message, -, -, -, hchain, hholder⟩ := hrefers
    exact ⟨message.chain, message.query, hchain, hholder⟩

namespace Promoter

def survey (promoter : Promoter σ) (view : SafetyView) (chain : ChainId)
    (candidate : DerivedPair) : Check Hazards := do
  let _ ← view.openExactly chain candidate.derived.toSeal
  Hazards.build view promoter.set (view.validInScope candidate.source.number)
    promoter.hazardLimit chain candidate.derived.toSeal

def approve (promoter : Promoter σ) (view : SafetyView) (chain : ChainId)
    (candidate : DerivedPair) (hazards : Hazards) : Check Nat := do
  view.checkReadiness promoter.set candidate.source.number hazards
  Hazards.checkOrder view promoter.set candidate.derived.timestamp hazards
  view.checkDependencies promoter.set candidate.source.number chain candidate.derived.toSeal
    hazards

def verdict (promoter : Promoter σ) (view : SafetyView) (chain : ChainId)
    (candidate : DerivedPair) : Except CrossSafetyError Unit := do
  let hazards ← (promoter.survey view chain candidate).result
  let _ ← (promoter.approve view chain candidate hazards).result
  return ()

/-- A hazard is a block that was found to hold the log of a message. -/
theorem survey_stored {promoter : Promoter σ} {view : SafetyView} {chain : ChainId}
    {candidate : DerivedPair} {hazards : Hazards}
    (h : (promoter.survey view chain candidate).result = .ok hazards) {index : MemberIndex}
    {hazard : BlockSeal} (hget : hazards.get? index = some hazard) :
    ∃ other query, promoter.set.idOfIndex index = .ok other ∧
      view.contains other query = .ok hazard := by
  simp only [survey, Check.result_bind, Outcome.bind_eq_ok] at h
  obtain ⟨_, -, hbuild⟩ := h
  obtain ⟨other, hother, hreach, -⟩ := (Hazards.build_sound hbuild).2 index hazard hget
  obtain ⟨_, query, -, hstored⟩ := SafetyView.exists_contains hreach
  exact ⟨other, query, hother, hstored⟩

/-- A candidate is accepted by its verdict and then by the write. -/
theorem accept_from (promoter : Promoter σ) (hunseen : promoter.store.NotesUnseen) (chain : ChainId)
    (candidate : DerivedPair) (state : σ) :
    ∃ noted, promoter.store.Noted state noted ∧
      (promoter.accept chain candidate).from state =
        match promoter.verdict (promoter.store.view state) chain candidate with
        | .ok () =>
          let written := promoter.store.setCrossSafe chain candidate noted
          (written.1.mapError .storage, written.2)
        | .error error => (.error error, noted) := by
  obtain ⟨surveyed, hsurveyed, hsurvey⟩ := promoter.store.check_from
    (fun view => promoter.survey view chain candidate) state
  have haccept : promoter.accept chain candidate = (do
      let hazards ← promoter.store.check fun view => promoter.survey view chain candidate
      promoter.store.tell (.hazards chain hazards.size)
      let _ ← promoter.store.check fun view => promoter.approve view chain candidate hazards
      SafetyStore.write (promoter.store.setCrossSafe chain candidate)) := rfl
  rw [haccept, verdict, Promotion.from_bind, hsurvey]
  cases hhazards : (promoter.survey (promoter.store.view state) chain candidate).result with
  | error error => exact ⟨surveyed, hsurveyed, rfl⟩
  | ok hazards =>
    obtain ⟨told, htold, htell⟩ := promoter.store.tell_from (.hazards chain hazards.size) surveyed
    obtain ⟨noted, hnoted, hcheck⟩ := promoter.store.check_from
      (fun view => promoter.approve view chain candidate hazards) told
    have hall := (hsurveyed.trans htold).trans hnoted
    rw [(hsurveyed.trans htold).view_eq hunseen] at hcheck
    dsimp only
    rw [Promotion.from_bind, htell]
    dsimp only
    rw [Promotion.from_bind, hcheck]
    cases happrove : (promoter.approve (promoter.store.view state) chain candidate
        hazards).result with
    | error error => exact ⟨noted, hall, by rw [Outcome.ok_bind, happrove]; rfl⟩
    | ok count => exact ⟨noted, hall, by rw [Outcome.ok_bind, happrove]; rfl⟩

/-- A positive verdict: candidate and hazards went through the checks and the hazards are ready. -/
theorem verdict_sound {promoter : Promoter σ} {view : SafetyView} (hdated : view.Dated) {chain : ChainId}
    {candidate : DerivedPair}
    (hown : ∀ index, promoter.set.indexOfId chain = .ok index →
      promoter.set.idOfIndex index = .ok chain)
    (h : promoter.verdict view chain candidate = .ok ()) :
    ∃ hazards, (promoter.survey view chain candidate).result = .ok hazards ∧
      Accepted view promoter.set (view.CrossSafeWithin candidate.source.number) hazards
        ⟨chain, candidate.derived.toSeal⟩ ∧
      ∀ index hazard, hazards.get? index = some hazard →
        ∃ other, promoter.set.idOfIndex index = .ok other ∧
          view.Ready candidate.source.number other hazard := by
  obtain ⟨hazards, hsurvey, h⟩ := Outcome.bind_eq_ok.mp h
  obtain ⟨count, happrove, -⟩ := Outcome.bind_eq_ok.mp h
  refine ⟨hazards, hsurvey, ?_, ?_⟩
  · simp only [survey, approve, Check.result_bind, Outcome.bind_eq_ok] at hsurvey happrove
    obtain ⟨_, -, hbuild⟩ := hsurvey
    obtain ⟨_, -, _, horder, hdependencies⟩ := happrove
    obtain ⟨⟨opened, hstart⟩, hall⟩ := Hazards.build_sound hbuild
    obtain ⟨ownIndex, hownIndex, hjoint, hjoints⟩ :=
      SafetyView.checkDependencies_sound hdependencies
    have hvalid (chain : ChainId) (block : BlockSeal)
        (haccepts : HazardSearch.Accepts (view.validInScope candidate.source.number) chain block) :
        view.CrossSafeWithin candidate.source.number chain block :=
      SafetyView.validInScope_eq_ok.mp haccepts
    refine ⟨⟨rfl, ⟨opened, hstart.imp hvalid⟩, hjoint⟩, fun index hazard hget => ?_,
      Hazards.checkOrder_sound horder⟩
    obtain ⟨other, hother, hreach, found, hpasses⟩ := hall index hazard hget
    refine ⟨other, hother, hdated.time_eq hreach, ⟨found, hpasses.imp hvalid⟩, ?_⟩
    rcases hjoints index hazard hget with ⟨rfl, hsame⟩ | ⟨chain', hchain', hjoint'⟩
    · -- the hazard is the candidate itself
      rw [hown index hownIndex] at hother
      cases hother
      intro contents hcontents
      have hnumber : hazard.number = candidate.derived.toSeal.number :=
        congrArg BlockId.number hsame
      dsimp only at hcontents
      rw [hnumber] at hcontents
      exact hjoint contents hcontents
    · rw [hother] at hchain'
      cases hchain'
      exact hjoint'
  · simp only [approve, Check.result_bind, Outcome.bind_eq_ok] at happrove
    obtain ⟨_, hready, -⟩ := happrove
    exact SafetyView.checkReadiness_eq_ok.mp hready

end Promoter

end CrossSafety
