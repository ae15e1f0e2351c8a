import CrossSafety.Proofs.Chain.Exposed
import CrossSafety.Proofs.Cluster.Joint
import CrossSafety.Proofs.Cluster.Traced

/-!
# Updates that fail

An update that fails before its first write leaves the stores as they are, and so does one whose
first write is refused. A cascade makes more than one write. It does not stop behind the first if
every block that it may come to can be dropped: its chain is a member, and the block below it is
sealed. The finalized heads never stand in the way, and log stores with the logs of the sealed blocks
can always be cut.
-/
namespace CrossSafety

/-- A chain with the logs of its sealed blocks, and a finalized head that is held. -/
structure ChainStore.Intact (store : ChainStore) : Prop where
  traced : ∃ told, store.Traced told
  held : store.state.FinalizedHeld

namespace ChainStore

variable {store : ChainStore}

theorem Intact.holds (h : store.Intact) :
    store.Holds fun state => state.Consistent ∧ state.FinalizedHeld := by
  obtain ⟨told, htraced⟩ := h.traced
  exact ⟨htraced.journaled, htraced.consistent, h.held⟩

theorem Intact.exists_listed (h : store.Intact) : ∃ logs, store.Listed logs := by
  obtain ⟨told, htraced⟩ := h.traced
  obtain ⟨logs, hlisted, -⟩ := htraced.exists_listed
  exact ⟨logs, hlisted⟩

end ChainStore

namespace Cluster

variable {allowed : Operation → Prop} {cluster after state noted written : Cluster}
  {chain : ChainId} {block next : Dependent} {floors : Floors} {rest dependents : List Dependent}

/-! ## What every chain has -/

/-- What makes a chain intact lasts as long as block numbers are bounded. -/
theorem lasting_intact (hblocks : ∀ operation, allowed operation → operation.BlocksBounded) :
    Lasting allowed (·.Intact) fun directory =>
      ∃ store : ChainStore, store.Intact ∧ directory = store.directory := by
  refine lasting_traced ⟨⟨_, ChainStore.empty_traced⟩, fun _ hhead => nomatch hhead⟩
    (fun _ hstore => hstore.traced) (fun store hstore => ?_) fun store operation hstore hallowed => ?_
  · obtain ⟨told, htraced⟩ := hstore.traced
    exact ⟨⟨told, htraced.compact⟩, (ChainStore.compact_eq store).1 ▸ hstore.held⟩
  · obtain ⟨told, htraced⟩ := hstore.traced
    refine ⟨⟨_, htraced.perform fun _ => htraced.blocksBounded hblocks hallowed⟩, ?_⟩
    exact (hstore.holds.perform (Ledger.invariant_finalizedHeld hblocks) hallowed).state.2

/-- A cluster of intact chains. -/
def Intact (cluster : Cluster) : Prop :=
  cluster.All (·.Intact) fun directory =>
    ∃ store : ChainStore, store.Intact ∧ directory = store.directory

theorem Reachable.intact (h : Reachable Operation.BlocksBounded cluster) : cluster.Intact :=
  h.all (lasting_intact fun _ hbounded => hbounded) fun _ hstore => hstore.holds.state.1

theorem Intact.consistent (h : cluster.Intact) : cluster.Holds Ledger.Consistent where
  stores chain store hstore :=
    ⟨(h.stores chain store hstore).holds.journaled, (h.stores chain store hstore).holds.state.1⟩
  files chain directory hfile := by
    obtain ⟨store, hstore, rfl⟩ := h.files chain directory hfile
    exact ChainStore.Holds.directory ⟨hstore.holds.journaled, hstore.holds.state.1⟩

theorem Intact.perform (h : cluster.Intact) {operation : Operation} (hpromotes : operation.Promotes) :
    (cluster.perform chain operation).2.Intact :=
  All.perform (lasting_intact fun _ (hfalse : False) => hfalse.elim) h (.inr hpromotes)

/-- A write of a promotion that fails changes no store. -/
theorem Intact.refused (h : cluster.Intact) (hnoted : safetyStore.Noted cluster noted)
    {operation : Operation} {error : StorageError}
    (hwrite : noted.perform chain operation = (.error error, after))
    (hpromotes : operation.Promotes) :
    ∃ metrics, after = { cluster with metrics } := by
  obtain ⟨before, rfl⟩ := noted_eq hnoted
  have hsame : after = (Cluster.perform { cluster with metrics := before } chain operation).2 :=
    (congrArg Prod.snd hwrite).symm
  cases hstore : cluster.chains.get? chain with
  | none => exact ⟨before, hsame.trans (perform_closed hstore)⟩
  | some store =>
    have hopen : ({ cluster with metrics := before } : Cluster).chains.get? chain = some store :=
      hstore
    obtain ⟨metrics, hperform⟩ := perform_eq hopen operation
    have hfailed : (store.perform operation).result = .error error :=
      congrArg Prod.fst (hperform.symm.trans hwrite)
    obtain ⟨logs, hlisted⟩ := (h.stores chain store hstore).exists_listed
    rw [hperform, hlisted.refused_same hpromotes hfailed, Table.insert_same hopen] at hsame
    exact ⟨metrics, hsame⟩

/-! ## Where an update may fail -/

/-- A cascade dropped the block that it started from, and stopped at a later one. -/
inductive BreaksOff (cluster : Cluster) (block : Dependent) : Cluster → Prop
  | intro {noted written : Cluster} {dependents : List Dependent} {run : CascadeRun Cluster}
      {error : CrossSafetyError} (notes : safetyStore.Noted cluster noted)
      (read : cluster.view.dependents block.chain block.block.derived.id = .ok dependents)
      (write : safetyStore.invalidate block.chain block.block noted = (.ok (), written))
      (later : safetyStore.Cascades (Table.empty.insert block.chain block.block.derived.number)
        dependents written run)
      (stopped : run.failure = some error) : BreaksOff cluster block run.after

/-- A cascade from one block that fails changes no store, unless it dropped that block. -/
theorem Intact.cascade_failed (h : cluster.Intact) (hnoted : safetyStore.Noted cluster noted)
    {run : CascadeRun Cluster} (hrun : safetyStore.Cascades .empty [block] noted run)
    {error : CrossSafetyError} (hfailed : run.failure = some error) :
    (∃ metrics, run.after = { cluster with metrics }) ∨ cluster.BreaksOff block run.after := by
  cases hrun with
  | covered cover => cases cover
  | unread _ notes _ => exact .inl (noted_eq (hnoted.trans notes))
  | refused _ notes _ write => exact .inl (h.refused (hnoted.trans notes) write trivial)
  | dropped _ notes read write later =>
    rw [hnoted.view_eq notesUnseen] at read
    rw [List.append_nil] at later
    have hbreaks := BreaksOff.intro (hnoted.trans notes) read write later hfailed
    exact .inr hbreaks

/-- An update that fails changes no store, unless its candidate is in conflict and a cascade dropped
it and stopped behind it. -/
theorem Intact.promote_failed (h : cluster.Intact) {limit : Nat} {error : CrossSafetyError}
    (hfailed : (cluster.promote limit chain).1 = .error error) :
    (∃ metrics, (cluster.promote limit chain).2 = { cluster with metrics }) ∨
      ∃ candidate conflict stopped, cluster.view.candidate chain = .ok candidate ∧
        (cluster.promoter limit).verdict cluster.view chain candidate = .error conflict ∧
        conflict.isConflict = true ∧ cluster.BreaksOff ⟨chain, candidate⟩ stopped ∧
        safetyStore.Noted stopped (cluster.promote limit chain).2 := by
  rcases (h.consistent.updates hfailed).failed_cases with
    notes | ⟨noted, pair, cause, notes, write⟩ | ⟨noted, candidate, conflict, run, cause, notes,
      hcandidate, hverdict, hconflict, hrun, hstopped, last⟩
  · exact .inl (noted_eq notes)
  · exact .inl (h.refused notes write trivial)
  · rcases h.cascade_failed notes hrun hstopped with ⟨metrics, hsame⟩ | hbreaks
    · obtain ⟨later, hlater⟩ := noted_eq last
      exact .inl ⟨later, hlater.trans (by rw [hsame])⟩
    · exact .inr ⟨candidate, conflict, run.after, hcandidate, hverdict, hconflict, hbreaks, last⟩

/-! ## Blocks that can be dropped -/

/-- Whether every block that may have to go with one of another chain can be dropped. -/
def Yields (cluster : Cluster) : Prop :=
  ∀ chain store pair, cluster.chains.get? chain = some store → store.state.Exposed pair →
    (∃ index, cluster.members.indexOfId chain = .ok index) ∧ store.state.Rooted pair.derived

/-- Whether a block of a member can be dropped. -/
def MayDrop (cluster : Cluster) (block : Dependent) : Prop :=
  (∃ index, cluster.members.indexOfId block.chain = .ok index) ∧
    ∃ store, cluster.chains.get? block.chain = some store ∧
      store.state.Allows (.invalidate block.block) (.invalidate block.block.derived)

/-- Dropping a block leaves blocks of other chains and those below it as they are. -/
theorem Yields.drops (h : cluster.Yields) (hdrops : cluster.Drops block after)
    (hshrinks : cluster.Shrinks after) : after.Yields := by
  intro chain next pair hnext hexposed
  rw [hshrinks.members]
  rcases Decidable.em (chain = block.chain) with rfl | hne
  · have hlt : pair.derived.number < block.block.derived.number :=
      hdrops.awaits.2.1 next _ pair hnext hexposed.recorded
    obtain ⟨store, hstore, hlost⟩ := hshrinks.store hnext
    obtain ⟨hmember, hrooted⟩ := h block.chain store pair hstore (hlost.exposed hexposed)
    obtain ⟨store', logs, metrics, hstore', -, rfl⟩ := hdrops
    cases hstore.symm.trans hstore'
    cases Table.get?_insert_self.symm.trans hnext
    exact ⟨hmember, hrooted.invalidate hlt⟩
  · exact h chain next pair ((hdrops.get?_of_ne hne).symm.trans hnext) hexposed

theorem MayDrop.drops (h : cluster.MayDrop next) (hdrops : cluster.Drops block after)
    (hlt : next.chain = block.chain → next.block.derived.number < block.block.derived.number) :
    after.MayDrop next := by
  obtain ⟨chain, pair⟩ := next
  obtain ⟨hmember, store, hstore, hallows⟩ := h
  rcases Decidable.em (chain = block.chain) with rfl | hne
  · obtain ⟨store', logs, metrics, hstore', -, rfl⟩ := hdrops
    cases hstore.symm.trans hstore'
    exact ⟨hmember, _, Table.get?_insert_self, hallows.after_invalidate (hlt rfl)⟩
  · have hsame := hdrops.get?_of_ne hne
    obtain ⟨store', logs, metrics, -, -, rfl⟩ := hdrops
    exact ⟨hmember, store, hsame.trans hstore, hallows⟩

/-- What depends on another block can be dropped. -/
theorem Yields.mayDrop (h : cluster.Yields) (hintact : cluster.Intact) {id : BlockId}
    (hread : cluster.view.dependents chain id = .ok dependents) :
    ∀ dependent ∈ dependents, cluster.MayDrop dependent := by
  intro dependent hmem
  obtain ⟨index, store, -, hstore, hfirst⟩ := mem_dependents hread hmem
  obtain ⟨hconsistent, hheld⟩ := (hintact.stores dependent.chain store hstore).holds.state
  have hexposed := Ledger.exposed_of_firstExecuting hconsistent.headed hfirst
  obtain ⟨hmember, hrooted⟩ := h dependent.chain store dependent.block hstore hexposed
  exact ⟨hmember, store, hstore, hexposed.allows hconsistent hheld hrooted⟩

/-- Members whose cross-safe heads are sealed. -/
def Anchored (cluster : Cluster) : Prop :=
  ∀ entry ∈ cluster.chains.toList, cluster.members.members.contains entry.1 = true ∧
    entry.2.state.crossSafe.any (fun head =>
      entry.2.state.blocks.contains head.derived.number) = true

instance (cluster : Cluster) : Decidable cluster.Anchored :=
  inferInstanceAs (Decidable (∀ entry ∈ cluster.chains.toList, _ ∧ _))

/-- If hashes name blocks, what lies above sealed cross-safe heads can be dropped. -/
theorem Anchored.yields (h : cluster.Anchored) (hconsistent : cluster.Holds Ledger.Consistent)
    (hunique : cluster.HashesUnique) : cluster.Yields := by
  intro chain store pair hstore hexposed
  obtain ⟨hmember, hhead⟩ := h (chain, store) (Table.mem_toList.mpr hstore)
  obtain ⟨member, hmember⟩ := Table.contains_iff.mp hmember
  obtain ⟨head, hhead, hanchor⟩ := (Option.any_eq_true _ _).mp hhead
  obtain ⟨anchor, hanchor⟩ := Table.contains_iff.mp hanchor
  obtain ⟨sealed, hsealed, hhash, -⟩ := hexposed.executes
  have hsame : sealed.block = pair.derived :=
    hunique.same hstore hsealed hexposed.recorded hhash
  refine ⟨⟨member.index, Membership.indexOfId_eq_ok.mpr ⟨member, hmember, rfl⟩⟩, ?_⟩
  exact hsame ▸ (hconsistent.state hstore).rooted hanchor hsealed (hexposed.above head hhead)

/-- A block that can be dropped stops no cascade. -/
theorem MayDrop.unfailing (h : cluster.MayDrop block) (hintact : cluster.Intact)
    (hnoted : safetyStore.Noted cluster noted) :
    (∃ dependents, cluster.view.dependents block.chain block.block.derived.id = .ok dependents) ∧
      (safetyStore.invalidate block.chain block.block noted).1 = .ok () := by
  obtain ⟨⟨index, hindex⟩, store, hstore, hallows⟩ := h
  constructor
  · change ∃ dependents, cluster.dependents _ _ = _
    rw [Cluster.dependents, hindex]
    exact ⟨_, rfl⟩
  · obtain ⟨metrics, rfl⟩ := noted_eq hnoted
    obtain ⟨logs, hlisted⟩ := (hintact.stores block.chain store hstore).exists_listed
    change (Cluster.perform _ block.chain (.invalidate block.block)).1 = _
    rw [Cluster.perform, Cluster.store, hstore]
    exact hlisted.perform_invalidate hallows

/-! ## Cascades that nothing stops -/

/-- A cluster in which a cascade over some blocks comes to its end. -/
structure Unhindered (cluster : Cluster) (floors : Floors) (pending : List Dependent) : Prop
    extends cluster.Ready pending where
  intact : cluster.Intact
  yields : cluster.Yields
  mayDrop : ∀ block ∈ pending, ¬floors.cover block.chain block.block.derived.number = true →
    cluster.MayDrop block

/-- Once the first block is dropped, nothing stops a cascade. -/
theorem Ready.unhindered (h : state.Ready (next :: rest)) (hintact : state.Intact)
    (hyields : state.Yields)
    (hrest : ∀ block ∈ rest, ¬floors.cover block.chain block.block.derived.number = true →
      state.MayDrop block)
    (hfresh : ¬floors.cover next.chain next.block.derived.number = true)
    (hnoted : safetyStore.Noted state noted)
    (hread : state.view.dependents next.chain next.block.derived.id = .ok dependents)
    (hwrite : safetyStore.invalidate next.chain next.block noted = (.ok (), written)) :
    written.Unhindered (floors.insert next.chain next.block.derived.number)
      (dependents ++ rest) := by
  obtain ⟨hdrops, hshrinks, hready⟩ := h.dropped hnoted hread hwrite
  have hwritten : (noted.perform next.chain (.invalidate next.block)).2.Intact :=
    Intact.perform (All.noted hintact hnoted) trivial
  cases congrArg Prod.snd hwrite
  refine ⟨hready, hwritten, hyields.drops hdrops hshrinks, fun block hmem hlow => ?_⟩
  obtain ⟨hlt, hbefore⟩ := SafetyStore.lt_of_fresh_insert hfresh hlow
  rcases List.mem_append.mp hmem with hmem | hmem
  · exact (hyields.mayDrop hintact hread block hmem).drops hdrops hlt
  · exact (hrest block hmem hbefore).drops hdrops hlt

end Cluster

namespace SafetyStore.Cascades

open Cluster

variable {state : Cluster} {floors : Floors} {pending : List Dependent} {run : CascadeRun Cluster}

theorem unfailing (hrun : safetyStore.Cascades floors pending state run)
    (h : state.Unhindered floors pending) : run.failure = none := by
  induction hrun with
  | done => rfl
  | covered _ _ ih =>
    exact ih ⟨h.tail, h.intact, h.yields, (List.forall_mem_cons.mp h.mayDrop).2⟩
  | unread fresh notes read =>
    obtain ⟨⟨dependents, hread⟩, -⟩ := (h.mayDrop _ List.mem_cons_self fresh).unfailing h.intact notes
    cases read.symm.trans hread
  | refused fresh notes read write =>
    obtain ⟨-, hwrite⟩ := (h.mayDrop _ List.mem_cons_self fresh).unfailing h.intact notes
    cases (congrArg Prod.fst write).symm.trans hwrite
  | dropped fresh notes read write _ ih =>
    exact ih (h.toReady.unhindered h.intact h.yields (List.forall_mem_cons.mp h.mayDrop).2 fresh notes
      read write)

end SafetyStore.Cascades

namespace Cluster

variable {cluster after : Cluster} {chain : ChainId} {limit : Nat} {block : Dependent}

/-- Nothing stops a cascade behind the block that it started from, if what depends on it can be
dropped. -/
theorem Ready.not_breaksOff (h : cluster.Ready [block]) (hintact : cluster.Intact)
    (hyields : cluster.Yields) : ¬cluster.BreaksOff block after := by
  intro hbreaks
  cases hbreaks with
  | intro notes read write later stopped =>
    have hfresh : ¬Floors.cover .empty block.chain block.block.derived.number = true :=
      Bool.false_ne_true
    have hnext := h.unhindered hintact hyields (fun _ hmem => absurd hmem List.not_mem_nil) hfresh
      notes read write
    rw [List.append_nil] at hnext
    cases (later.unfailing hnext).symm.trans stopped

/-- If all blocks that may have to go with others can be dropped, an update that fails changes no
store. -/
theorem promote_failed_keeps (h : Reachable Operation.BlocksBounded cluster)
    (hyields : cluster.Yields) {error : CrossSafetyError}
    (hfailed : (cluster.promote limit chain).1 = .error error) :
    ∃ metrics, (cluster.promote limit chain).2 = { cluster with metrics } := by
  have hintact := h.intact
  rcases hintact.promote_failed hfailed with
    hsame | ⟨candidate, -, stopped, hcandidate, -, -, hbreaks, -⟩
  · exact hsame
  · have hready := ready_candidate hintact.consistent (.refl cluster) hcandidate
    exact absurd hbreaks (hready.not_breaksOff hintact hyields)

/-- Two blocks depend on each other, which is more than the limit allows to check. -/
theorem promote_failed_keeps_beyond_limit :
    let members : Membership := ⟨.ofList [(900, ⟨0, 0, 0⟩), (901, ⟨1, 0, 0⟩)]⟩
    let block (number : UInt64) (hash parent : UInt8) : DerivedPair :=
      ⟨⟨.ofBytes [9], 0, .ofBytes [0], 0⟩, ⟨.ofBytes [hash], number, .ofBytes [parent], number⟩⟩
    let extend (chain : ChainId) (pair : DerivedPair) (message : ExecutingMessage) : List Step :=
      [.write chain (.seal pair.derived [⟨0, .ofBytes [40], some message⟩]),
        .write chain (.addDerived pair)]
    let steps : List Step := [.create 900, .create 901, .write 900 (.initialise (block 1 1 0)),
      .write 901 (.initialise (block 1 2 0))] ++
      extend 900 (block 2 11 1) ⟨1, 2, 0, 2, .ofBytes [40]⟩ ++
      extend 901 (block 2 12 2) ⟨0, 2, 0, 2, .ofBytes [40]⟩
    let cluster := (empty members false).run steps
    cluster.Yields ∧ (cluster.promote 1 900).1 = .error (.hazardLimitExceeded 1) ∧
      ∃ metrics, (cluster.promote 1 900).2 = { cluster with metrics } := by
  intro members block extend steps cluster
  have hbounded : ∀ operation ∈ steps.filterMap Step.operation?, operation.BlocksBounded := by
    decide +kernel
  have hreachable : Reachable Operation.BlocksBounded cluster :=
    (Reachable.empty members false).run hbounded
  have hunique : cluster.HashesUnique := by decide +kernel
  have hanchored : cluster.Anchored := by decide +kernel
  have hyields : cluster.Yields :=
    hanchored.yields (hreachable.consistent fun _ hbounded => hbounded) hunique
  have hfailed : (cluster.promote 1 900).1 = .error (.hazardLimitExceeded 1) := by decide +kernel
  exact ⟨hyields, hfailed, promote_failed_keeps hreachable hyields hfailed⟩

end Cluster

end CrossSafety
