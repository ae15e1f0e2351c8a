import CrossSafety.Proofs.Safety.Traversal
import CrossSafety.Safety.Readiness
import CrossSafety.Safety.Resolution

/-!
# What the checks of hazards and dependencies find

An older block that is accepted is cross-safe in the scope. A hazard that is ready is that too, or
its chain has a candidate of another number or the hazard itself. The messages that a candidate and
its hazards execute at the candidate's timestamp point to hazards by number.
-/
namespace CrossSafety

namespace SafetyView

variable {view : SafetyView} {set : DependencySet} {scope : UInt64} {chain : ChainId}

theorem requireInScope_eq_ok {number source : UInt64} :
    (requireInScope chain number source scope).result = .ok () ↔ source ≤ scope := by
  unfold requireInScope
  by_cases hlt : scope < source
  · simp [hlt, UInt64.not_le.mpr hlt]
  · simp [hlt, UInt64.not_lt.mp hlt]

/-- Whether a block is cross-safe in a source up to the scope. -/
def CrossSafeWithin (view : SafetyView) (scope : UInt64) (chain : ChainId) (block : BlockSeal) :
    Prop :=
  ∃ source, view.sourceOf chain block.id = .ok source ∧ source.number ≤ scope

theorem validInScope_eq_ok {block : BlockSeal} :
    (view.validInScope scope chain block).result = .ok () ↔
      view.CrossSafeWithin scope chain block := by
  unfold validInScope CrossSafeWithin
  simp only [Check.result_bind, Check.result_attempt, Outcome.ok_bind]
  cases view.sourceOf chain block.id with
  | ok source => simp [requireInScope_eq_ok]
  | error error => cases error <;> simp

/-- A hazard that is ready: cross-safe in the scope, or ahead of the cross-safe head of a chain whose
candidate is this block or has another number. -/
def Ready (view : SafetyView) (scope : UInt64) (chain : ChainId) (block : BlockSeal) : Prop :=
  view.CrossSafeWithin scope chain block ∨
    view.sourceOf chain block.id = .error .futureData ∧
      ∃ next, view.candidate chain = .ok next ∧ next.source.number ≤ scope ∧
        (next.derived.number = block.number → next.derived.id = block.id)

theorem checkReadyBlock_eq_ok {index : MemberIndex} {block : BlockSeal} :
    (view.checkReadyBlock set scope index block).result = .ok () ↔
      ∃ chain, set.idOfIndex index = .ok chain ∧ view.Ready scope chain block := by
  unfold checkReadyBlock Ready CrossSafeWithin
  simp only [Check.result_bind, Check.result_ofResult, Check.result_attempt, Outcome.bind_eq_ok,
    Outcome.mapError_eq_ok, Outcome.ok_bind]
  refine exists_congr fun chain => and_congr_right fun _ => ?_
  cases view.sourceOf chain block.id with
  | ok source => simp [requireInScope_eq_ok]
  | error error =>
    cases error with
    | futureData =>
      simp only [Check.result_bind, Check.result_require, Outcome.bind_eq_ok,
        Outcome.mapError_eq_ok, reduceCtorEq, false_and, exists_false, true_and, false_or]
      refine exists_congr fun next => and_congr_right fun _ => ?_
      by_cases hother : next.derived.number = block.number ∧ next.derived.id ≠ block.id
      · simp [hother]
      · simp only [hother, if_false, requireInScope_eq_ok]
        exact ⟨fun h => ⟨h, fun hnumber => Decidable.not_not.mp fun hne => hother ⟨hnumber, hne⟩⟩,
          fun h => h.1⟩
    | _ => simp

theorem checkReadiness_eq_ok {hazards : Hazards} :
    (view.checkReadiness set scope hazards).result = .ok () ↔
      ∀ index block, hazards.get? index = some block →
        ∃ chain, set.idOfIndex index = .ok chain ∧ view.Ready scope chain block := by
  have hlist (entries : List (MemberIndex × BlockSeal)) :
      (entries.forM fun entry => view.checkReadyBlock set scope entry.1 entry.2).result =
        .ok () ↔ ∀ entry ∈ entries, ∃ chain, set.idOfIndex entry.1 = .ok chain ∧
          view.Ready scope chain entry.2 := by
    induction entries with
    | nil => simp
    | cons entry rest ih =>
      rw [List.forall_mem_cons, ← ih, ← checkReadyBlock_eq_ok]
      change (_ >>= fun _ => _ : Check Unit).result = .ok () ↔ _
      rw [Check.result_bind, Outcome.bind_eq_ok]
      exact ⟨fun ⟨_, hfirst, hrest⟩ => ⟨hfirst, hrest⟩, fun h => ⟨(), h⟩⟩
  refine (hlist hazards.toList).trans ?_
  simp only [Prod.forall, Table.mem_toList]

/-! ## The frontier -/

/-- A hazard on the frontier: cross-safe in the scope, or the very block that its chain promotes next,
within the scope. -/
def OnFrontier (view : SafetyView) (scope : UInt64) (chain : ChainId) (block : BlockSeal) : Prop :=
  view.CrossSafeWithin scope chain block ∨
    view.sourceOf chain block.id = .error .futureData ∧
      ∃ next, view.candidate chain = .ok next ∧ next.derived.id = block.id ∧
        next.source.number ≤ scope

/-- Each hazard that is not cross-safe has the number of the candidate of its chain. -/
def MeetsCandidates (view : SafetyView) (set : DependencySet) (hazards : Hazards) : Prop :=
  ∀ index hazard chain next, hazards.get? index = some hazard → set.idOfIndex index = .ok chain →
    view.sourceOf chain hazard.id = .error .futureData → view.candidate chain = .ok next →
    next.derived.number = hazard.number

/-- What is on the frontier is ready, and a candidate of the hazard's number leaves no other way to
be ready. -/
theorem ready_iff_onFrontier {block : BlockSeal} (hmeets : ∀ next,
      view.sourceOf chain block.id = .error .futureData → view.candidate chain = .ok next →
      next.derived.number = block.number) :
    view.Ready scope chain block ↔ view.OnFrontier scope chain block := by
  refine or_congr_right (and_congr_right fun hahead => exists_congr fun next =>
    and_congr_right fun hnext => ?_)
  constructor
  · rintro ⟨hscope, hsame⟩
    exact ⟨hsame (hmeets next hahead hnext), hscope⟩
  · rintro ⟨hsame, hscope⟩
    exact ⟨hscope, fun _ => hsame⟩

/-- Hazards pass if all of them are on the frontier, and then only, unless one lies beyond the
candidate of its chain: the check compares candidate and hazard only if they have the same number. -/
theorem checkReadiness_frontier {hazards : Hazards} (hmeets : view.MeetsCandidates set hazards) :
    (view.checkReadiness set scope hazards).result = .ok () ↔
      ∀ index hazard, hazards.get? index = some hazard →
        ∃ chain, set.idOfIndex index = .ok chain ∧ view.OnFrontier scope chain hazard := by
  rw [checkReadiness_eq_ok]
  refine forall_congr' fun index => forall_congr' fun hazard => forall_congr' fun hget =>
    exists_congr fun chain => and_congr_right fun hchain => ?_
  exact ready_iff_onFrontier fun next => hmeets index hazard chain next hget hchain

/-- One hazard is cross-safe, another is the candidate of its chain. A source below that of the
candidate is too narrow. -/
theorem checkReadiness_frontier_mixed :
    let set : Membership := ⟨.ofList [(901, ⟨1, 0, 0⟩), (902, ⟨2, 0, 0⟩)]⟩
    let block (number : UInt64) (hash : UInt8) : BlockRef :=
      ⟨.ofBytes [hash], number, .ofBytes [hash - 1], number⟩
    let view : SafetyView := {
      blockAt := fun _ _ => .error .futureData
      contains := fun _ _ => .error .conflict
      candidate := fun _ => .ok ⟨block 6 9, block 20 2⟩
      crossSafe := fun _ => .error .databaseNotInitialised
      sourceOf := fun chain _ => if chain = 902 then .ok (block 5 8).toSeal else .error .futureData
      sourceAfter := fun _ _ => .error .futureData
      dependents := fun _ _ => .ok [] }
    let hazards : Hazards := .ofList [(1, (block 20 2).toSeal), (2, (block 30 3).toSeal)]
    view.MeetsCandidates set.lookups hazards ∧
      (∀ index hazard, hazards.get? index = some hazard →
        ∃ chain, set.lookups.idOfIndex index = .ok chain ∧ view.OnFrontier 6 chain hazard) ∧
      ¬∀ index hazard, hazards.get? index = some hazard →
        ∃ chain, set.lookups.idOfIndex index = .ok chain ∧ view.OnFrontier 5 chain hazard := by
  intro set block view hazards
  have hmeets : view.MeetsCandidates set.lookups hazards := by
    intro index hazard chain next hget hchain hahead hnext
    have hentry := Table.mem_toList.mpr hget
    have hlist : hazards.toList = [(1, (block 20 2).toSeal), (2, (block 30 3).toSeal)] := by decide
    rw [hlist] at hentry
    simp only [List.mem_cons, Prod.mk.injEq, List.not_mem_nil, or_false] at hentry
    rcases hentry with ⟨rfl, rfl⟩ | ⟨rfl, rfl⟩
    · cases hnext
      rfl
    · have hmember : set.lookups.idOfIndex 2 = .ok 902 := rfl
      cases hmember.symm.trans hchain
      cases hahead
  have hready : (view.checkReadiness set.lookups 6 hazards).result = .ok () := rfl
  have hnarrow : (view.checkReadiness set.lookups 5 hazards).result =
      .error (.outOfScope 901 20 6 5) := rfl
  refine ⟨hmeets, (checkReadiness_frontier hmeets).mp hready, fun hall => ?_⟩
  cases hnarrow.symm.trans ((checkReadiness_frontier hmeets).mpr hall)

end SafetyView

/-- The block of a hazard, on the chain of its index. -/
def pendingHazard (set : DependencySet) :
    MemberIndex × BlockSeal → Except CrossSafetyError PendingBlock :=
  fun (index, block) => match set.idOfIndex index with
    | .ok chain => .ok ⟨chain, block⟩
    | .error _ => .error (.conflict (.unknownChain index))

theorem pendingHazard_eq_ok {set : DependencySet} {index : MemberIndex} {block : BlockSeal} {next : PendingBlock} :
    pendingHazard set (index, block) = .ok next ↔
      set.idOfIndex index = .ok next.chain ∧ block = next.block := by
  obtain ⟨chain, known⟩ := next
  unfold pendingHazard
  dsimp only
  cases set.idOfIndex index <;> simp

theorem Hazards.isJoint_eq_true {hazards : Hazards} {timestamp : UInt64}
    {message : ExecutingMessage} : hazards.isJoint timestamp message = .ok true ↔
      ∃ hazard, hazards.get? message.chain = some hazard ∧ hazard.number = message.blockNumber := by
  rw [isJoint]
  constructor
  · intro h
    split at h
    · rename_i hany
      obtain ⟨hazard, hget, hnumber⟩ := (Option.any_eq_true _ _).mp hany
      exact ⟨hazard, hget, of_decide_eq_true hnumber⟩
    · split at h <;> cases h
  · rintro ⟨hazard, hget, hnumber⟩
    rw [hget, Option.any_some, if_pos (decide_eq_true hnumber)]

theorem Hazards.isJoint_sound {hazards : Hazards} {timestamp : UInt64}
    {message : ExecutingMessage} {joint : Bool}
    (h : hazards.isJoint timestamp message = .ok joint) (htime : message.timestamp = timestamp) :
    ∃ hazard, hazards.get? message.chain = some hazard ∧ hazard.number = message.blockNumber := by
  cases joint with
  | true => exact isJoint_eq_true.mp h
  | false =>
    rw [isJoint, if_pos htime] at h
    split at h <;> cases h

/-- If every message of the timestamp points to a hazard, the others only may be left. -/
theorem Hazards.isJoint_cases {hazards : Hazards} {timestamp : UInt64}
    {message : ExecutingMessage} (h : message.timestamp = timestamp →
      ∃ hazard, hazards.get? message.chain = some hazard ∧ hazard.number = message.blockNumber) :
    hazards.isJoint timestamp message = .ok true ∨
      hazards.isJoint timestamp message = .ok false ∧ message.timestamp ≠ timestamp := by
  rw [isJoint]
  split
  · exact .inl rfl
  · rename_i hany
    by_cases htime : message.timestamp = timestamp
    · obtain ⟨hazard, hget, hnumber⟩ := h htime
      rw [hget, Option.any_some] at hany
      exact absurd (decide_eq_true hnumber) hany
    · exact .inr ⟨if_neg htime, htime⟩

namespace SafetyView

variable {view : SafetyView} {set : DependencySet} {scope timestamp : UInt64} {hazards : Hazards}

theorem checkDependency_eq_ok {message : ExecutingMessage} :
    (view.checkDependency set scope message).result = .ok () ↔
      ∃ chain, set.idOfIndex message.chain = .ok chain ∧
        ∃ block, view.contains chain message.query = .ok block ∧
          view.CrossSafeWithin scope chain block := by
  unfold checkDependency CrossSafeWithin
  simp only [Check.result_bind, Check.result_ofResult, Check.result_require, Check.result_attempt,
    Outcome.bind_eq_ok, Outcome.mapError_eq_ok, Outcome.ok_bind]
  refine exists_congr fun chain => and_congr_right fun _ => exists_congr fun block =>
    and_congr_right fun _ => ?_
  cases view.sourceOf chain block.id with
  | ok source => simp [requireInScope_eq_ok]
  | error error =>
    refine iff_of_false ?_ fun ⟨_, hsource, _⟩ => nomatch hsource
    cases error with
    | notFound missing => cases missing <;> simp
    | _ => simp

theorem checkMessages_sound {messages : List ExecutingMessage}
    {met last : Table MemberIndex UInt64}
    (h : (view.checkMessages set scope timestamp hazards messages met).result = .ok last) :
    ∀ message ∈ messages, ∃ joint, hazards.isJoint timestamp message = .ok joint := by
  induction messages generalizing met with
  | nil => exact fun _ hmem => absurd hmem List.not_mem_nil
  | cons message rest ih =>
    simp only [checkMessages, Check.result_bind, Check.result_ofResult, Outcome.bind_eq_ok,
      Outcome.mapError_eq_ok] at h
    obtain ⟨joint, hjoint, h⟩ := h
    have hrest : ∃ met, (view.checkMessages set scope timestamp hazards rest met).result =
        .ok last := by
      split at h
      · exact ⟨_, h⟩
      · simp only [Check.result_bind, Outcome.bind_eq_ok] at h
        obtain ⟨_, -, h⟩ := h
        exact ⟨_, h⟩
    obtain ⟨next, hnext⟩ := hrest
    exact List.forall_mem_cons.mpr ⟨⟨joint, hjoint⟩, ih hnext⟩

theorem checkBlocks_sound {blocks : List PendingBlock} {met last : Table MemberIndex UInt64}
    (h : (view.checkBlocks set scope timestamp hazards blocks met).result = .ok last) :
    ∀ next ∈ blocks, ∃ opened, view.blockAt next.chain next.block.number = .ok opened ∧
      ∀ message ∈ opened.messages.values,
        ∃ joint, hazards.isJoint timestamp message = .ok joint := by
  induction blocks generalizing met with
  | nil => exact fun _ hmem => absurd hmem List.not_mem_nil
  | cons next rest ih =>
    simp only [checkBlocks, Check.result_bind, Check.result_require, Outcome.bind_eq_ok,
      Outcome.mapError_eq_ok] at h
    obtain ⟨opened, hopened, middle, hmessages, hrest⟩ := h
    exact List.forall_mem_cons.mpr ⟨⟨opened, hopened, checkMessages_sound hmessages⟩, ih hrest⟩

/-- A block only executes messages of the timestamp that point to hazard blocks. -/
def OnlyJoint (view : SafetyView) (timestamp : UInt64) (hazards : Hazards) (next : PendingBlock) :
    Prop :=
  ∀ opened, view.blockAt next.chain next.block.number = .ok opened →
    ∀ logIndex message, opened.messages.get? logIndex = some message →
      message.timestamp = timestamp →
      ∃ hazard, hazards.get? message.chain = some hazard ∧ hazard.number = message.blockNumber

theorem checkDependencies_sound {chain : ChainId} {candidate : BlockSeal} {count : Nat}
    (h : (view.checkDependencies set scope chain candidate hazards).result = .ok count) :
    ∃ ownIndex, set.indexOfId chain = .ok ownIndex ∧
      view.OnlyJoint candidate.timestamp hazards ⟨chain, candidate⟩ ∧
      ∀ index hazard, hazards.get? index = some hazard →
        (index = ownIndex ∧ hazard.id = candidate.id) ∨
        ∃ other, set.idOfIndex index = .ok other ∧
          view.OnlyJoint candidate.timestamp hazards ⟨other, hazard⟩ := by
  simp only [checkDependencies, Check.lookup, Check.result_bind, Check.result_ofResult,
    Outcome.bind_eq_ok, Outcome.mapError_eq_ok] at h
  obtain ⟨ownIndex, hown, blocks, hblocks, met, hmet, -⟩ := h
  have hjoint : ∀ next ∈ (⟨chain, candidate⟩ :: blocks : List PendingBlock),
      view.OnlyJoint candidate.timestamp hazards next := by
    intro next hmem opened hopened logIndex message hmessage htime
    obtain ⟨found, hfound, hjoints⟩ := checkBlocks_sound hmet next hmem
    rw [hopened] at hfound
    cases hfound
    obtain ⟨joint, hjoint⟩ := hjoints message (Table.mem_values.mpr ⟨logIndex, hmessage⟩)
    exact Hazards.isJoint_sound hjoint htime
  refine ⟨ownIndex, hown, hjoint _ List.mem_cons_self, fun index hazard hget => ?_⟩
  by_cases hcandidate : index = ownIndex ∧ hazard.id = candidate.id
  · exact .inl hcandidate
  · obtain ⟨next, hmem, hnext⟩ := (Outcome.mapM_mem hblocks).1 (index, hazard)
      (List.mem_filter.mpr ⟨Table.mem_toList.mpr hget, decide_eq_true hcandidate⟩)
    obtain ⟨hother, rfl⟩ := pendingHazard_eq_ok.mp hnext
    exact .inr ⟨next.chain, hother, hjoint _ (List.mem_cons_of_mem _ hmem)⟩

end SafetyView

end CrossSafety
