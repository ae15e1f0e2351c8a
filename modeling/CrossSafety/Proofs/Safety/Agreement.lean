import CrossSafety.Proofs.Safety.Closure
import CrossSafety.Proofs.Safety.Orderable
import CrossSafety.Proofs.Safety.Verdict

/-!
# The checks of a hazard set agree

The search for hazards, the check of their order and that of the dependencies go through the same
messages, and each tells in its own way where one leads: the search finds the block that holds the
log, the order is checked between positions of logs, and dependencies go by number. If a hazard set
was built with a scope for older blocks, the order can be checked, and each message depends on a
hazard or on a block within the scope. Every hazard is depended on.
-/
namespace CrossSafety

/-- A view in which a log is found only in a block that counts it. The logs that the block executes
messages at are counted too. -/
structure SafetyView.Counted (view : SafetyView) : Prop where
  initiating : ∀ chain query block opened, view.contains chain query = .ok block →
    view.blockAt chain block.number = .ok opened → query.logIndex < opened.logCount
  executing : ∀ chain query block opened, view.contains chain query = .ok block →
    view.blockAt chain block.number = .ok opened →
    ∀ logIndex message, opened.messages.get? logIndex = some message → logIndex < opened.logCount

section Agreement

variable {view : SafetyView} {set : DependencySet} {check : OlderBlockCheck} {scope : UInt64}
  {limit : Nat} {chain : ChainId} {candidate : BlockSeal} {hazards : Hazards}

/-! ## The order of the hazards -/

variable (hdated : view.Dated) (hcoherent : view.Coherent)
  (hids : ∀ index chain, set.idOfIndex index = .ok chain → set.indexOfId chain = .ok index)

include hdated hcoherent hids in
/-- The order of hazards that were built can be checked. -/
theorem answerable_of_build (hcounted : view.Counted)
    (hbuild : (Hazards.build view set check limit chain candidate).result = .ok hazards) :
    Hazards.Answerable view set candidate.timestamp hazards := by
  obtain ⟨-, hall⟩ := Hazards.build_sound hbuild
  refine ⟨fun index hazard hget => ?_, fun index opened logIndex message hstored hmessage => ?_,
    fun index opened logIndex message hstored hmessage htime => ?_⟩
  · obtain ⟨other, hother, -, opened, hpasses⟩ := hall index hazard hget
    exact ⟨opened, hazard, other, hget, hother, hpasses.opens, hpasses.same⟩
  · obtain ⟨hazard, other, hget, hother, hopened, -⟩ := hstored
    obtain ⟨_, hother', hreach, -⟩ := hall index hazard hget
    cases hother.symm.trans hother'
    obtain ⟨_, query, -, hfound⟩ := SafetyView.exists_contains hreach
    exact hcounted.executing other query hazard opened hfound hopened logIndex message hmessage
  · obtain ⟨hazard, other, hget, hother, hopened, -⟩ := hstored
    obtain ⟨_, hother', hreach, _, hpasses⟩ := hall index hazard hget
    cases hother.symm.trans hother'
    cases hopened.symm.trans hpasses.opens
    obtain ⟨ownIndex, initiator, holder, hmessage, hhas⟩ := hpasses.messages logIndex message hmessage
    have hown : ownIndex = index := Except.ok.inj (hmessage.own.symm.trans (hids _ _ hother))
    obtain ⟨known, hknown, hsame⟩ := hhas (htime.trans (hdated.time_eq hreach).symm)
    have hnumber : known.number = holder.number := congrArg BlockId.number hsame
    have hasked : holder.number = message.blockNumber :=
      hcoherent.numbered initiator message.query holder hmessage.stored
    refine ⟨⟨known, hknown⟩, ?_, ?_⟩
    · -- a log of the block's own number would be found in the block itself
      rintro ⟨rfl, rfl⟩
      cases hget.symm.trans hknown
      exact hmessage.notSelf ⟨hown.symm, (hnumber.trans hasked).symm, rfl⟩
    · rintro initiating ⟨found, place, hfound, hplace, hinitiating, -⟩ -
      cases hknown.symm.trans hfound
      cases hmessage.member.symm.trans hplace
      exact hcounted.initiating initiator message.query holder initiating hmessage.stored
        (hnumber ▸ hinitiating)

/-! ## What messages depend on -/

namespace SafetyView

variable {timestamp : UInt64} {message : ExecutingMessage} {executor : PendingBlock}

/-- A message depends on a hazard or on a block that is cross-safe within the scope. -/
def Depends (view : SafetyView) (set : DependencySet) (scope timestamp : UInt64)
    (hazards : Hazards) (message : ExecutingMessage) : Prop :=
  hazards.isJoint timestamp message = .ok true ∨
    hazards.isJoint timestamp message = .ok false ∧
      (view.checkDependency set scope message).result = .ok ()

/-- A message of a block depends on the hazard of a chain. -/
def Joins (view : SafetyView) (timestamp : UInt64) (hazards : Hazards) (executor : PendingBlock)
    (index : MemberIndex) : Prop :=
  ∃ opened, view.blockAt executor.chain executor.block.number = .ok opened ∧
    ∃ message ∈ opened.messages.values, message.chain = index ∧
      hazards.isJoint timestamp message = .ok true

/-- Messages pass, and the hazards they depend on are met. -/
theorem exists_checkMessages {messages : List ExecutingMessage}
    (h : ∀ message ∈ messages, view.Depends set scope timestamp hazards message)
    (met : Table MemberIndex UInt64) :
    ∃ last, (view.checkMessages set scope timestamp hazards messages met).result = .ok last ∧
      ∀ index, index ∈ last.keys ↔ index ∈ met.keys ∨
        ∃ message ∈ messages, message.chain = index ∧
          hazards.isJoint timestamp message = .ok true := by
  induction messages generalizing met with
  | nil => exact ⟨met, rfl, fun index => by simp⟩
  | cons message rest ih =>
    obtain ⟨hfirst, hrest⟩ := List.forall_mem_cons.mp h
    unfold checkMessages
    rw [Check.result_bind, Check.result_ofResult]
    rcases hfirst with hjoint | ⟨hjoint, hdepends⟩
    · obtain ⟨last, hlast, hmet⟩ := ih hrest (met.insert message.chain message.blockNumber)
      refine ⟨last, by rw [hjoint]; exact hlast, fun index => ?_⟩
      rw [hmet, Table.mem_keys_insert, List.exists_mem_cons_iff, hjoint, and_iff_left rfl, or_assoc,
        or_left_comm, @eq_comm _ index]
    · obtain ⟨last, hlast, hmet⟩ := ih hrest met
      refine ⟨last, ?_, fun index => ?_⟩
      · rw [hjoint, Outcome.mapError_ok, Outcome.ok_bind, if_neg Bool.false_ne_true,
          Check.result_bind, hdepends]
        exact hlast
      · rw [hmet, List.exists_mem_cons_iff, hjoint]
        simp

/-- Blocks pass, and the hazards that their messages depend on are met. -/
theorem exists_checkBlocks {blocks : List PendingBlock}
    (h : ∀ block ∈ blocks, ∃ opened, view.blockAt block.chain block.block.number = .ok opened ∧
      ∀ message ∈ opened.messages.values, view.Depends set scope timestamp hazards message)
    (met : Table MemberIndex UInt64) :
    ∃ last, (view.checkBlocks set scope timestamp hazards blocks met).result = .ok last ∧
      ∀ index, index ∈ last.keys ↔ index ∈ met.keys ∨
        ∃ block ∈ blocks, view.Joins timestamp hazards block index := by
  induction blocks generalizing met with
  | nil => exact ⟨met, rfl, fun index => by simp⟩
  | cons block rest ih =>
    obtain ⟨⟨opened, hopened, hdepends⟩, hrest⟩ := List.forall_mem_cons.mp h
    obtain ⟨middle, hmiddle, hfirst⟩ := exists_checkMessages hdepends met
    obtain ⟨last, hlast, hmet⟩ := ih hrest middle
    have hjoins (index : MemberIndex) : view.Joins timestamp hazards block index ↔
        ∃ message ∈ opened.messages.values, message.chain = index ∧
          hazards.isJoint timestamp message = .ok true := by
      constructor
      · rintro ⟨found, hfound, hmessage⟩
        cases hopened.symm.trans hfound
        exact hmessage
      · exact fun hmessage => ⟨opened, hopened, hmessage⟩
    refine ⟨last, ?_, fun index => ?_⟩
    · unfold checkBlocks
      rw [Check.result_bind, Check.result_require, hopened, Outcome.mapError_ok, Outcome.ok_bind,
        Check.result_bind, hmiddle]
      exact hlast
    · rw [hmet, hfirst, List.exists_mem_cons_iff, hjoins, or_assoc]

end SafetyView

/-- The messages of a block that passed depend on hazards or on older blocks within the scope. -/
theorem BlockPasses.depends {executor : PendingBlock} {opened : BlockContents}
    (h : BlockPasses view set (HazardSearch.Accepts (view.validInScope scope)) hazards executor
      opened)
    (hcoherent : view.Coherent) {timestamp : UInt64} (htime : executor.block.timestamp = timestamp) :
    ∀ message ∈ opened.messages.values, view.Depends set scope timestamp hazards message := by
  intro message hmem
  obtain ⟨logIndex, hmessage⟩ := Table.mem_values.mp hmem
  have hjoint : view.OnlyJoint timestamp hazards executor := h.onlyJoint hcoherent htime
  rcases Hazards.isJoint_cases (hjoint opened h.opens logIndex message hmessage) with
    htrue | ⟨hfalse, hother⟩
  · exact .inl htrue
  · obtain ⟨ownIndex, initiator, holder, hpasses, -⟩ := h.messages logIndex message hmessage
    have hlt : message.timestamp < executor.block.timestamp :=
      UInt64.lt_of_le_of_ne hpasses.notNewer (htime ▸ hother)
    exact .inr ⟨hfalse, SafetyView.checkDependency_eq_ok.mpr ⟨initiator, hpasses.member, holder,
      hpasses.stored, SafetyView.validInScope_eq_ok.mp (hpasses.older hlt)⟩⟩

/-- The hazard that a block refers to is depended on by a message of the block. -/
theorem BlockPasses.joins {executor other : PendingBlock} {opened : BlockContents}
    {valid : ChainId → BlockSeal → Prop} (h : BlockPasses view set valid hazards executor opened)
    (hcoherent : view.Coherent)
    (hids : ∀ index chain, set.idOfIndex index = .ok chain ↔ set.indexOfId chain = .ok index)
    {timestamp : UInt64} (htime : executor.block.timestamp = timestamp)
    (hrefers : view.Refers set executor other) {index : MemberIndex}
    (hindex : set.idOfIndex index = .ok other.chain) :
    view.Joins timestamp hazards executor index := by
  obtain ⟨found, logIndex, message, hfound, hmessage, hsame, hchain, -⟩ := hrefers
  have hmember : message.chain = index :=
    Except.ok.inj (((hids _ _).mp hchain).symm.trans ((hids _ _).mp hindex))
  refine ⟨found, hfound, message, Table.mem_values.mpr ⟨logIndex, hmessage⟩, hmember, ?_⟩
  exact Hazards.isJoint_eq_true.mpr
    (h.onlyJoint hcoherent htime found hfound logIndex message hmessage (hsame.trans htime))

/-! ## The dependencies of the candidate and its hazards -/

/-- The candidate and all that it reaches are checked: a hazard that is left out is the candidate. -/
theorem mem_checked (hdated : view.Dated)
    (hids : ∀ index chain, set.idOfIndex index = .ok chain ↔ set.indexOfId chain = .ok index)
    {ownIndex : MemberIndex} (hown : set.indexOfId chain = .ok ownIndex)
    (hclosure : IsClosure view set ⟨chain, candidate⟩ hazards) {blocks : List PendingBlock}
    (hmem : ∀ block, block ∈ blocks ↔ ∃ index, hazards.get? index = some block.block ∧
      set.idOfIndex index = .ok block.chain ∧ ¬(index = ownIndex ∧ block.block.id = candidate.id))
    {executor : PendingBlock}
    (hexecutor : Relation.ReflTransGen (view.Refers set) ⟨chain, candidate⟩ executor) :
    executor ∈ (⟨chain, candidate⟩ :: blocks : List PendingBlock) := by
  rcases Relation.reflTransGen_iff_eq_or_transGen.mp hexecutor with rfl | hreach
  · exact List.mem_cons_self
  · obtain ⟨index, -, hindex, -⟩ := SafetyView.exists_contains hreach
    by_cases hself : index = ownIndex ∧ executor.block.id = candidate.id
    · obtain ⟨rfl, hsame⟩ := hself
      have hchain : executor.chain = chain :=
        Except.ok.inj (hindex.symm.trans ((hids index chain).mpr hown))
      have hblock : executor.block = candidate := BlockSeal.eq_of_id hsame (hdated.time_eq hreach)
      rw [← hchain, ← hblock]
      exact List.mem_cons_self
    · have hget := (hclosure index executor.block).mpr ⟨executor.chain, hindex, hreach⟩
      exact List.mem_cons_of_mem _ ((hmem executor).mpr ⟨index, hget, hindex, hself⟩)

/-- The dependencies of a candidate whose hazards were built pass, and each hazard is one of them. -/
theorem checkDependencies_of_build (hdated : view.Dated) (hcoherent : view.Coherent)
    (hids : ∀ index chain, set.idOfIndex index = .ok chain ↔ set.indexOfId chain = .ok index)
    {ownIndex : MemberIndex} (hown : set.indexOfId chain = .ok ownIndex)
    (hbuild : (Hazards.build view set (view.validInScope scope) limit chain candidate).result =
      .ok hazards) :
    (view.checkDependencies set scope chain candidate hazards).result = .ok hazards.size := by
  obtain ⟨⟨contents, hstart⟩, hall⟩ := Hazards.build_sound hbuild
  have hclosure : IsClosure view set ⟨chain, candidate⟩ hazards :=
    Traversal.build_isClosure hdated (fun index chain => (hids index chain).mp)
      (Traversal.build_newestFirst ▸ hbuild)
  have hplaced (index : MemberIndex) (hazard : BlockSeal) (hget : hazards.get? index = some hazard) :
      ∃ other, set.idOfIndex index = .ok other := by
    obtain ⟨other, hother, -⟩ := hall index hazard hget
    exact ⟨other, hother⟩
  obtain ⟨blocks, hblocks, hmem⟩ := exists_pendingHazards hplaced ownIndex candidate
  have hpasses : ∀ block ∈ (⟨chain, candidate⟩ :: blocks : List PendingBlock),
      block.block.timestamp = candidate.timestamp ∧ ∃ opened, BlockPasses view set
        (HazardSearch.Accepts (view.validInScope scope)) hazards block opened := by
    refine List.forall_mem_cons.mpr ⟨⟨rfl, contents, hstart⟩, fun block hblock => ?_⟩
    obtain ⟨index, hget, hother, -⟩ := (hmem block).mp hblock
    obtain ⟨_, hother', hreach, hpasses⟩ := hall index block.block hget
    cases hother.symm.trans hother'
    exact ⟨hdated.time_eq hreach, hpasses⟩
  have hdepends : ∀ block ∈ (⟨chain, candidate⟩ :: blocks : List PendingBlock),
      ∃ opened, view.blockAt block.chain block.block.number = .ok opened ∧
        ∀ message ∈ opened.messages.values,
          view.Depends set scope candidate.timestamp hazards message := by
    intro block hblock
    obtain ⟨htime, opened, hpassed⟩ := hpasses block hblock
    exact ⟨opened, hpassed.opens, hpassed.depends hcoherent htime⟩
  obtain ⟨met, hmet, hkeys⟩ := SafetyView.exists_checkBlocks hdepends .empty
  have hsize : met.size = hazards.size := by
    refine Table.size_eq_of_mem_keys fun index => ?_
    rw [hkeys, or_iff_right (fun hnone => nomatch hnone)]
    constructor
    · rintro ⟨block, -, opened, -, message, -, rfl, hjoint⟩
      obtain ⟨hazard, hget, -⟩ := Hazards.isJoint_eq_true.mp hjoint
      exact Table.mem_keys.mpr ⟨hazard, hget⟩
    · intro hindex
      obtain ⟨hazard, hget⟩ := Table.mem_keys.mp hindex
      obtain ⟨other, hother, hreach⟩ := (hclosure index hazard).mp hget
      obtain ⟨executor, hexecutor, hrefers⟩ := Relation.TransGen.tail'_iff.mp hreach
      have hchecked := mem_checked hdated hids hown hclosure hmem hexecutor
      obtain ⟨htime, opened, hpassed⟩ := hpasses executor hchecked
      exact ⟨executor, hchecked,
        hpassed.joins hcoherent hids htime hrefers hother⟩
  simp only [SafetyView.checkDependencies, Check.result_bind, Check.lookup, Check.result_ofResult,
    hown, Outcome.mapError_ok, Outcome.ok_bind]
  change ((hazards.toList.filter fun entry =>
    ¬(entry.1 = ownIndex ∧ entry.2.id = candidate.id)).mapM (pendingHazard set) >>= _) = _
  rw [hblocks, Outcome.ok_bind, hmet, Outcome.ok_bind, ← hsize]
  rfl

end Agreement

end CrossSafety
