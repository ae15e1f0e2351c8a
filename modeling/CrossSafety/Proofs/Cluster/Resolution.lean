import CrossSafety.Proofs.Cluster.Promote

/-!
# Cross-safe blocks keep what they depend on

A cluster is run from no chains at all: chains are opened, initialised and extended, and any of them
is moved on, in any order. In every state that is reached, the messages of the cross-safe blocks
above the anchors still resolve, as long as each promotion met an exact frontier. Without that a
cross-safe block can lose its messages.
-/
namespace CrossSafety

instance : (operation : Operation) → Decidable operation.InRange
  | .initialise _ => inferInstanceAs (Decidable (_ < _))
  | .seal _ _ => inferInstanceAs (Decidable (_ ∧ _))
  | .addSource _ | .addDerived _ | .setCrossSafe _ | .invalidate _ | .setCrossUnsafe _
  | .setFinalized _ | .rewindLocalUnsafe _ | .rewindCrossUnsafe _ | .rewindLocalSafe _
  | .rewindCrossSafe _ => .isTrue trivial

theorem Operation.spares_of_adds {operation : Operation} (h : operation.Adds = true)
    (state : Ledger) (kept : UInt64 → Prop) : operation.Spares state kept := by
  cases operation <;> trivial

namespace Cluster

/-- What may happen to a cluster: a chain is opened, written to or moved on. -/
inductive Step where
  | create (chain : ChainId)
  | write (chain : ChainId) (operation : Operation)
  | promote (limit : Nat) (chain : ChainId)

namespace Step

/-- Whether the write of a step adds to its chain and stays in range. -/
def Extends : Step → Prop
  | .write _ operation => operation.Adds = true ∧ operation.InRange
  | .create _ | .promote _ _ => True

instance : (step : Step) → Decidable step.Extends
  | .write _ _ => inferInstanceAs (Decidable (_ ∧ _))
  | .create _ | .promote _ _ => .isTrue trivial

def block? : Step → Option BlockRef
  | .write _ operation => operation.block?
  | .create _ | .promote _ _ => none

end Step

def after (cluster : Cluster) : Step → Cluster
  | .create chain => (cluster.create chain).2
  | .write chain operation => (cluster.perform chain operation).2
  | .promote limit chain => (cluster.promote limit chain).2

def run (cluster : Cluster) (steps : List Step) : Cluster := steps.foldl after cluster

/-- Whether a promotion meets an exact frontier. -/
def StepExact (cluster : Cluster) : Step → Prop
  | .promote limit chain => cluster.FrontierExact limit chain
  | .create _ | .write _ _ => True

/-- Whether every promotion of a run meets an exact frontier. -/
def RunExact (cluster : Cluster) : List Step → Prop
  | [] => True
  | step :: rest => cluster.StepExact step ∧ (cluster.after step).RunExact rest

instance (cluster : Cluster) : (step : Step) → Decidable (cluster.StepExact step)
  | .promote _ _ => inferInstanceAs (Decidable (cluster.FrontierExact _ _))
  | .create _ | .write _ _ => .isTrue trivial

instance decidableRunExact (cluster : Cluster) :
    (steps : List Step) → Decidable (cluster.RunExact steps)
  | [] => .isTrue trivial
  | step :: rest =>
    have := decidableRunExact (cluster.after step) rest
    inferInstanceAs (Decidable (_ ∧ _))

/-- Every cross-safe block above the anchor of its chain is sealed, and the initiating log of each
message that it executes is found on its chain. -/
def Resolves (cluster : Cluster) : Prop :=
  ∀ chain store anchor first number record, cluster.chains.get? chain = some store →
    store.state.crossDerived.get? anchor = some first →
    store.state.crossDerived.get? number = some record → anchor < number →
    ∃ sealed, store.state.blocks.get? number = some sealed ∧
      sealed.block.hash = record.derived.hash ∧
      ∀ logIndex message, sealed.messages.get? logIndex = some message →
        ∃ initiator block, cluster.members.idOfIndex message.chain = .ok initiator ∧
          (cluster.ask initiator fun store => store.contains message.query) = .ok block

variable {cluster : Cluster} {known : BlockRef → Prop} {pledges : List Pledge}

theorem Secure.empty {members : Membership} (hdistinct : members.hasDistinctIndices = true)
    (metrics : Bool) (known : BlockRef → Prop) : (empty members metrics).Secure known [] where
  distinct := hdistinct
  unfiled := rfl
  steady _ _ hstore := nomatch hstore
  upheld _ hmem := absurd hmem List.not_mem_nil
  recorded _ hmem := absurd hmem List.not_mem_nil
  backed _ _ _ _ hstore := nomatch hstore

theorem Secure.write (h : cluster.Secure known pledges) {chain : ChainId} {operation : Operation}
    (hadds : operation.Adds = true) (hrange : operation.InRange)
    (hblock : ∀ block, operation.block? = some block → known block) :
    (cluster.perform chain operation).2.Secure known pledges := by
  cases hstore : cluster.chains.get? chain with
  | none => rwa [perform_closed hstore]
  | some store =>
    refine List.nil_append pledges ▸ h.perform hstore hrange
      (Operation.spares_of_adds hadds _ _) hblock
      (fun _ hmem => absurd hmem List.not_mem_nil) fun record hset => ?_
    subst hset
    cases hadds

theorem Secure.after (h : cluster.Secure known pledges)
    (hunique : ∀ a b, known a → known b → a.hash = b.hash → a = b) {step : Step}
    (hextends : step.Extends) (hblock : ∀ block, step.block? = some block → known block)
    (hexact : cluster.StepExact step) :
    ∃ pledges, (cluster.after step).Secure known pledges := by
  cases step with
  | create chain => exact ⟨pledges, h.create⟩
  | write chain operation => exact ⟨pledges, h.write hextends.1 hextends.2 hblock⟩
  | promote limit chain => exact h.promote hunique hexact

theorem Secure.run (h : cluster.Secure known pledges)
    (hunique : ∀ a b, known a → known b → a.hash = b.hash → a = b) {steps : List Step}
    (hextends : ∀ step ∈ steps, step.Extends)
    (hblocks : ∀ step ∈ steps, ∀ block, step.block? = some block → known block)
    (hexact : cluster.RunExact steps) : ∃ pledges, (cluster.run steps).Secure known pledges := by
  induction steps generalizing cluster pledges with
  | nil => exact ⟨pledges, h⟩
  | cons step rest ih =>
    obtain ⟨next, hnext⟩ := h.after hunique (hextends step List.mem_cons_self)
      (hblocks step List.mem_cons_self) hexact.1
    exact ih hnext (fun other hmem => hextends other (List.mem_cons_of_mem _ hmem))
      (fun other hmem => hblocks other (List.mem_cons_of_mem _ hmem)) hexact.2

/-- A pledge that holds finds the initiating log of each message of its block. -/
theorem Secure.resolves (h : cluster.Secure known pledges) : cluster.Resolves := by
  intro chain store anchor first number record hstore hanchor hrecord habove
  rcases h.backed chain store number record hstore hrecord with hfirst |
    ⟨pledge, hmem, rfl, rfl, hhash⟩
  · exact absurd habove (UInt64.not_lt.mpr (hfirst anchor first hanchor))
  · obtain ⟨opened, hpasses⟩ := (h.upheld pledge hmem).accepted.first.passes
    obtain ⟨sealed, hsealed, rfl⟩ := view_blockAt.mp hpasses.opens
    obtain ⟨store', hstore', hget⟩ := sealedAt_eq_some.mp hsealed
    have heq := hstore.symm.trans hstore'
    cases heq
    refine ⟨sealed, hget, (congrArg BlockId.hash hpasses.same).trans hhash,
      fun logIndex message hmessage => ?_⟩
    obtain ⟨_, initiator, holder, hpassed, -⟩ := hpasses.messages logIndex message hmessage
    exact ⟨initiator, holder, hpassed.member, hpassed.stored⟩

/-- In every state that is reached, the messages of the cross-safe blocks still resolve, if the
frontier was exact at every promotion and a hash names one block. -/
theorem run_resolves (members : Membership) (metrics : Bool) (steps : List Step)
    (hdistinct : members.hasDistinctIndices = true) (hextends : ∀ step ∈ steps, step.Extends)
    (hunique : ∀ a ∈ steps.filterMap Step.block?, ∀ b ∈ steps.filterMap Step.block?,
      a.hash = b.hash → a = b)
    (hexact : (empty members metrics).RunExact steps) :
    ((empty members metrics).run steps).Resolves := by
  have hblocks : ∀ step ∈ steps, ∀ block, step.block? = some block →
      block ∈ steps.filterMap Step.block? :=
    fun step hmem block hblock => List.mem_filterMap.mpr ⟨step, hmem, hblock⟩
  obtain ⟨pledges, hsecure⟩ := (Secure.empty hdistinct metrics _).run
    (fun a b ha hb => hunique a ha b hb) hextends hblocks hexact
  exact hsecure.resolves

/-- A block becomes cross-safe together with the next block of the other chain. Then its successor
is rejected for a message from an unknown chain, and goes with a block that depends on it. -/
theorem run_resolves_after_cascade :
    let members : Membership := ⟨.ofList [(900, ⟨0, 0, 0⟩), (901, ⟨1, 0, 0⟩)]⟩
    let block (number : UInt64) (hash parent : UInt8) : DerivedPair :=
      ⟨⟨.ofBytes [9], 0, .ofBytes [0], 0⟩, ⟨.ofBytes [hash], number, .ofBytes [parent], number⟩⟩
    let extend (chain : ChainId) (pair : DerivedPair) (hash : UInt8)
        (message : Option ExecutingMessage) : List Step :=
      [.write chain (.seal pair.derived [⟨0, .ofBytes [hash], message⟩]),
        .write chain (.addDerived pair)]
    let steps : List Step := [.create 900, .create 901, .write 900 (.initialise (block 1 1 0)),
      .write 901 (.initialise (block 1 2 0))] ++ extend 901 (block 2 4 2) 21 none ++
      extend 900 (block 2 3 1) 22 (some ⟨1, 2, 0, 2, .ofBytes [21]⟩) ++ [.promote 10 900] ++
      extend 900 (block 3 5 3) 23 (some ⟨7, 1, 0, 1, .ofBytes [20]⟩) ++
      extend 901 (block 3 6 4) 24 (some ⟨0, 3, 0, 3, .ofBytes [23]⟩) ++ [.promote 10 900]
    members.hasDistinctIndices = true ∧ (∀ step ∈ steps, step.Extends) ∧
      (∀ a ∈ steps.filterMap Step.block?, ∀ b ∈ steps.filterMap Step.block?,
        a.hash = b.hash → a = b) ∧
      (empty members false).RunExact steps ∧ ((empty members false).run steps).Resolves := by
  intro members block extend steps
  have hdistinct : members.hasDistinctIndices = true := by decide +kernel
  have hextends : ∀ step ∈ steps, step.Extends := by decide +kernel
  have hunique : ∀ a ∈ steps.filterMap Step.block?, ∀ b ∈ steps.filterMap Step.block?,
      a.hash = b.hash → a = b := by decide +kernel
  have hexact : (empty members false).RunExact steps := by decide +kernel
  exact ⟨hdistinct, hextends, hunique, hexact,
    run_resolves members false steps hdistinct hextends hunique hexact⟩

end Cluster

end CrossSafety
