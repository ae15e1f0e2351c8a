import CrossSafety.Proofs.Cluster.Reachable

/-!
# Cascades on a cluster

A cascade on a cluster takes local-safe blocks above the cross-safe heads and nothing else. The
blocks that depend on another one are read before that one is dropped, and chains lose blocks while
they wait for their turn. What is left at the end is told by three facts: chains only ever lose
blocks, so a block that depends on a dropped one was there when the dependents were read; every block
that was waiting is gone in the end, dropped or covered by a floor; and the last block of a chain that
is dropped decides where the chain ends.
-/
namespace CrossSafety

theorem succ_le_of_lt {number other : UInt64} (h : number < other) : number + 1 ≤ other := by
  have hmax : number < maxNumber := UInt64.lt_of_lt_of_le h
    (UInt64.le_iff_toNat_le.mpr (Nat.le_of_lt_succ other.toNat_lt))
  rw [UInt64.le_iff_toNat_le, toNat_succ_of_lt_max hmax]
  exact UInt64.lt_iff_toNat_lt.mp h

namespace Cluster

variable {cluster middle after state noted written : Cluster} {chain other : ChainId}
  {block next : Dependent} {floors : Floors} {pending rest dependents : List Dependent}
  {run : CascadeRun Cluster}

/-! ## Clusters that lose blocks -/

/-- Open stores that lost local-safe and sealed blocks at most. -/
structure Shrinks (cluster after : Cluster) : Prop where
  members : after.members = cluster.members
  files : after.files = cluster.files
  stores : ∀ chain store, cluster.chains.get? chain = some store →
    ∃ next, after.chains.get? chain = some next ∧ store.state.Shrinks next.state
  closed : ∀ chain, cluster.chains.get? chain = none → after.chains.get? chain = none

theorem shrinks_metrics (cluster : Cluster) (metrics : Option Registry) :
    cluster.Shrinks { cluster with metrics } :=
  ⟨rfl, rfl, fun _ store hstore => ⟨store, hstore, .refl store.state⟩, fun _ hclosed => hclosed⟩

theorem shrinks_noted (h : safetyStore.Noted cluster noted) : cluster.Shrinks noted := by
  obtain ⟨metrics, rfl⟩ := noted_eq h
  exact shrinks_metrics cluster metrics

theorem Shrinks.trans (h : cluster.Shrinks middle) (h' : middle.Shrinks after) :
    cluster.Shrinks after where
  members := h'.members.trans h.members
  files := h'.files.trans h.files
  stores chain store hstore := by
    obtain ⟨between, hbetween, hfirst⟩ := h.stores chain store hstore
    obtain ⟨next, hnext, hsecond⟩ := h'.stores chain between hbetween
    exact ⟨next, hnext, hfirst.trans hsecond⟩
  closed chain hclosed := h'.closed chain (h.closed chain hclosed)

/-- A store that is open later was open before. -/
theorem Shrinks.store (h : cluster.Shrinks after) {next : ChainStore}
    (hnext : after.chains.get? chain = some next) :
    ∃ store, cluster.chains.get? chain = some store ∧ store.state.Shrinks next.state := by
  cases hstore : cluster.chains.get? chain with
  | none =>
    rw [h.closed chain hstore] at hnext
    cases hnext
  | some store =>
    obtain ⟨next', hnext', hshrinks⟩ := h.stores chain store hstore
    rw [hnext] at hnext'
    cases hnext'
    exact ⟨store, rfl, hshrinks⟩

theorem shrinks_withStore {store next : ChainStore}
    (hstore : cluster.chains.get? chain = some store) (hshrinks : store.state.Shrinks next.state)
    (metrics : Option Registry) :
    cluster.Shrinks { cluster with chains := cluster.chains.insert chain next, metrics } where
  members := rfl
  files := rfl
  stores other found hfound := by
    rcases Decidable.em (other = chain) with rfl | hne
    · rw [hstore] at hfound
      cases hfound
      exact ⟨next, Table.get?_insert_self, hshrinks⟩
    · exact ⟨found, (Table.get?_insert_of_ne hne).trans hfound, .refl found.state⟩
  closed other hclosed := by
    have hne : other ≠ chain := by
      rintro rfl
      rw [hstore] at hclosed
      cases hclosed
    exact (Table.get?_insert_of_ne hne).trans hclosed

/-- Whether a block lies above the cross-safe head of its chain. -/
def AboveHead (cluster : Cluster) (block : Dependent) : Prop :=
  ∀ store, cluster.chains.get? block.chain = some store →
    store.state.AboveHead block.block.derived.number

theorem Shrinks.aboveHead (h : cluster.Shrinks after) (habove : cluster.AboveHead block) :
    after.AboveHead block := by
  intro next hnext
  obtain ⟨store, hstore, hshrinks⟩ := h.store hnext
  exact hshrinks.aboveHead.mpr (habove store hstore)

/-- Whether all local-safe blocks of a chain lie below a number. -/
def EndsBelow (cluster : Cluster) (chain : ChainId) (number : UInt64) : Prop :=
  ∀ store key pair, cluster.chains.get? chain = some store →
    store.state.localDerived.get? key = some pair → key < number

theorem Shrinks.endsBelow (h : cluster.Shrinks after) {number : UInt64}
    (hends : cluster.EndsBelow chain number) : after.EndsBelow chain number := by
  intro next key pair hnext hget
  obtain ⟨store, hstore, hshrinks⟩ := h.store hnext
  exact hends store key pair hstore (hshrinks.localDerived key pair hget)

/-! ## Dropping one block -/

/-- The cluster after a block was made invalid on its chain. -/
def Drops (cluster : Cluster) (block : Dependent) (after : Cluster) : Prop :=
  ∃ store logs metrics, cluster.chains.get? block.chain = some store ∧
    store.state.Allows (.invalidate block.block) (.invalidate block.block.derived) ∧
    after = { cluster with
      chains := cluster.chains.insert block.chain
        (ChainStore.commit { store with logs } (.invalidate block.block.derived))
      metrics }

theorem drops_of_invalidate (hnoted : safetyStore.Noted cluster noted)
    (hwrite : safetyStore.invalidate block.chain block.block noted = (.ok (), after)) :
    cluster.Drops block after := by
  obtain ⟨metrics, rfl⟩ := noted_eq hnoted
  change Cluster.perform _ block.chain (.invalidate block.block) = _ at hwrite
  cases hstore : cluster.chains.get? block.chain with
  | none =>
    rw [Cluster.perform, Cluster.store, hstore] at hwrite
    cases hwrite
  | some store =>
    have hopen : ({ cluster with metrics } : Cluster).chains.get? block.chain = some store := hstore
    obtain ⟨later, hperform⟩ := perform_eq hopen (.invalidate block.block)
    rw [hperform, Prod.mk.injEq] at hwrite
    obtain ⟨hallows, logs, hdone⟩ := ChainStore.perform_invalidate hwrite.1
    exact ⟨store, logs, later, hstore, hallows, by rw [← hwrite.2, hdone]⟩

/-- A write that is refused changes logs at most. -/
theorem shrinks_of_refused {operation : Operation} {error : StorageError}
    (hwrite : cluster.perform chain operation = (.error error, after)) : cluster.Shrinks after := by
  cases hstore : cluster.chains.get? chain with
  | none =>
    have hsame : (cluster.perform chain operation).2 = cluster := perform_closed hstore
    rw [hwrite] at hsame
    exact hsame ▸ shrinks_metrics cluster cluster.metrics
  | some store =>
    obtain ⟨metrics, hperform⟩ := perform_eq hstore operation
    rw [hperform, Prod.mk.injEq] at hwrite
    obtain ⟨logs, hdone⟩ := ChainStore.perform_error hwrite.1
    have hsame : store.state.Shrinks ({ store with logs } : ChainStore).state := .refl store.state
    rw [← hwrite.2, hdone]
    exact shrinks_withStore hstore hsame metrics

theorem Drops.shrinks (h : cluster.Drops block after)
    (hconsistent : cluster.Holds Ledger.Consistent) (habove : cluster.AboveHead block) :
    cluster.Shrinks after := by
  obtain ⟨store, logs, metrics, hstore, -, rfl⟩ := h
  exact shrinks_withStore hstore
    ((hconsistent.state hstore).headed.shrinks_invalidate (habove store hstore)) metrics

theorem Drops.get?_of_ne (h : cluster.Drops block after) (hne : chain ≠ block.chain) :
    after.chains.get? chain = cluster.chains.get? chain := by
  obtain ⟨store, logs, metrics, -, -, rfl⟩ := h
  exact Table.get?_insert_of_ne hne

/-- How the chain of a dropped block is left: it ends below the block and awaits its replacement. -/
def AwaitsReplacement (cluster : Cluster) (block : Dependent) : Prop :=
  (∃ store, cluster.chains.get? block.chain = some store) ∧
    cluster.EndsBelow block.chain block.block.derived.number ∧
    cluster.view.candidate block.chain = .error (.awaitingReplacement block.block.derived.id)

theorem Drops.awaits (h : cluster.Drops block after) : after.AwaitsReplacement block := by
  obtain ⟨store, logs, metrics, -, -, rfl⟩ := h
  refine ⟨⟨_, Table.get?_insert_self⟩, fun next key pair hnext hget => ?_, ?_⟩
  · have hsame := Table.get?_insert_self.symm.trans hnext
    cases hsame
    exact Ledger.lt_of_invalidate hget
  · change Cluster.ask _ block.chain _ = _
    rw [ask, Cluster.store, Table.get?_insert_self]
    exact store.state.candidate_invalidate block.block.derived

theorem AwaitsReplacement.of_same (h : cluster.AwaitsReplacement block)
    (hsame : after.chains.get? block.chain = cluster.chains.get? block.chain) :
    after.AwaitsReplacement block := by
  obtain ⟨⟨store, hstore⟩, hends, hcandidate⟩ := h
  refine ⟨⟨store, hsame.trans hstore⟩, fun other key pair hother hget => ?_, ?_⟩
  · exact hends other key pair (hsame.symm.trans hother) hget
  · change after.ask block.chain _ = _
    rw [ask, Cluster.store, hsame]
    exact hcandidate

/-- The floor of a dropped block is one where its chain ends. -/
theorem Drops.endsBelow_insert (h : cluster.Drops block after) (hshrinks : cluster.Shrinks after)
    (hfloors : ∀ chain floor, floors.get? chain = some floor → cluster.EndsBelow chain floor) :
    ∀ chain floor, (floors.insert block.chain block.block.derived.number).get? chain = some floor →
      after.EndsBelow chain floor := by
  intro chain floor hfloor
  rcases Decidable.em (chain = block.chain) with rfl | hne
  · rw [Table.get?_insert_self] at hfloor
    cases hfloor
    exact h.awaits.2.1
  · rw [Table.get?_insert_of_ne hne] at hfloor
    exact hshrinks.endsBelow (hfloors chain floor hfloor)

/-! ## What depends on a block -/

/-- Whether no open chain but that of a block has a local-safe block above its cross-safe head that
executes a message of the block. -/
def IndependentOf (cluster : Cluster) (block : Dependent) : Prop :=
  ∃ index, cluster.members.indexOfId block.chain = .ok index ∧
    ∀ other store number pair sealed, other ≠ block.chain →
      cluster.chains.get? other = some store →
      store.state.localDerived.get? number = some pair → store.state.AboveHead number →
      store.state.blocks.get? number = some sealed → sealed.block.hash = pair.derived.hash →
      ∀ logIndex message, sealed.messages.get? logIndex = some message →
        ¬(message.chain = index ∧ message.blockNumber = block.block.derived.number)

theorem dependents_eq {id : BlockId} (h : cluster.view.dependents chain id = .ok dependents) :
    ∃ index, cluster.members.indexOfId chain = .ok index ∧
      ∀ other store first, other ≠ chain → cluster.chains.get? other = some store →
        store.state.firstExecuting index id.number = some first → ⟨other, first⟩ ∈ dependents := by
  change cluster.dependents chain id = _ at h
  unfold Cluster.dependents at h
  cases hindex : cluster.members.indexOfId chain with
  | error error =>
    rw [hindex] at h
    cases h
  | ok index =>
    rw [hindex] at h
    cases h
    refine ⟨index, rfl, fun other store first hne hstore hfirst => ?_⟩
    refine List.mem_filterMap.mpr ⟨(other, store), Table.mem_toList.mpr hstore, ?_⟩
    dsimp only
    rw [if_neg hne, hfirst]
    rfl

/-- If all dependents of a block that were read are gone, nothing depends on it any more. -/
theorem independentOf_dependents (h : cluster.Holds Ledger.Consistent)
    (hread : cluster.view.dependents block.chain block.block.derived.id = .ok dependents)
    (hshrinks : cluster.Shrinks after)
    (hends : ∀ dependent ∈ dependents,
      after.EndsBelow dependent.chain dependent.block.derived.number) :
    after.IndependentOf block := by
  obtain ⟨index, hindex, hall⟩ := dependents_eq hread
  refine ⟨index, hshrinks.members.symm ▸ hindex, ?_⟩
  rintro other last number pair sealed hne hlast hget habove hsealed hhash logIndex message hmessage
    ⟨hchain, hblock⟩
  obtain ⟨store, hstore, hlost⟩ := hshrinks.store hlast
  have hheaded := (h.state hstore).headed
  have hbefore := hlost.localDerived number pair hget
  have hnumber := hheaded.localKeyed number pair hbefore
  have hexecutes : sealed.executes index block.block.derived.id.number = true :=
    List.any_eq_true.mpr ⟨message, Table.mem_values.mpr ⟨logIndex, hmessage⟩,
      decide_eq_true ⟨hchain, hblock⟩⟩
  -- it was there when the dependents were read, and the first one of its chain is not above it
  obtain ⟨first, key, hfirst, hkey, hle⟩ := Ledger.firstExecuting_le hbefore
    (fun head hhead => succ_le_of_lt (hlost.aboveHead.mp habove head hhead))
    (hnumber ▸ hlost.blocks number sealed hsealed) hexecutes hhash
  have hlt := hends ⟨other, first⟩ (hall other store first hne hstore hfirst) last number pair hlast
    hget
  rw [hheaded.localKeyed key first hkey] at hlt
  exact UInt64.lt_irrefl _ (UInt64.lt_of_lt_of_le hlt hle)

/-! ## The steps of a cascade -/

/-- A cluster in which some blocks above the cross-safe heads are waiting to be dropped. -/
structure Ready (cluster : Cluster) (pending : List Dependent) : Prop where
  consistent : cluster.Holds Ledger.Consistent
  above : ∀ block ∈ pending, cluster.AboveHead block

theorem Ready.tail (h : cluster.Ready (next :: rest)) : cluster.Ready rest :=
  ⟨h.consistent, (List.forall_mem_cons.mp h.above).2⟩

theorem invariant_promotes : Ledger.Invariant (fun _ => False) Ledger.Consistent :=
  Ledger.invariant_consistent fun _ hfalse => hfalse.elim

/-- Blocks that depend on another one lie above the cross-safe heads of their chains. -/
theorem aboveHead_of_dependents (h : cluster.Holds Ledger.Consistent) {id : BlockId}
    (hread : cluster.view.dependents chain id = .ok dependents) :
    ∀ block ∈ dependents, cluster.AboveHead block := by
  intro block hmem store hstore head hhead
  obtain ⟨index, store', -, hstore', hfirst⟩ := mem_dependents hread hmem
  rw [hstore] at hstore'
  cases hstore'
  obtain ⟨key, -, hget, hle, -⟩ := Ledger.firstExecuting_some hfirst
  have hheaded := (h.state hstore).headed
  rw [hheaded.localKeyed key block.block hget]
  exact UInt64.lt_of_lt_of_le (hheaded.lt_next hhead) (hle head hhead)

/-- One step of a cascade drops the next block and leaves the others waiting. -/
theorem Ready.dropped (h : state.Ready (next :: rest)) (hnoted : safetyStore.Noted state noted)
    (hread : state.view.dependents next.chain next.block.derived.id = .ok dependents)
    (hwrite : safetyStore.invalidate next.chain next.block noted = (.ok (), written)) :
    state.Drops next written ∧ state.Shrinks written ∧ written.Ready (dependents ++ rest) := by
  obtain ⟨hnext, hrest⟩ := List.forall_mem_cons.mp h.above
  have hdrops := drops_of_invalidate hnoted hwrite
  have hshrinks := hdrops.shrinks h.consistent hnext
  have hconsistent : (noted.perform next.chain (.invalidate next.block)).2.Holds Ledger.Consistent :=
    (h.consistent.noted hnoted).perform invariant_promotes (.inr trivial)
  cases congrArg Prod.snd hwrite
  refine ⟨hdrops, hshrinks, hconsistent, fun block hmem => hshrinks.aboveHead ?_⟩
  rcases List.mem_append.mp hmem with hmem | hmem
  · exact aboveHead_of_dependents h.consistent hread block hmem
  · exact hrest block hmem

end Cluster

namespace SafetyStore.Cascades

open Cluster

variable {state : Cluster} {floors : Floors} {pending : List Dependent} {run : CascadeRun Cluster}
  {chain : ChainId}

/-- A cascade takes local-safe and sealed blocks only, whether it comes to its end or not. -/
theorem shrinks (hrun : safetyStore.Cascades floors pending state run)
    (hready : state.Ready pending) : state.Shrinks run.after := by
  induction hrun with
  | done => exact shrinks_metrics _ _
  | covered _ _ ih => exact ih hready.tail
  | unread _ notes _ => exact shrinks_noted notes
  | refused _ notes _ write => exact (shrinks_noted notes).trans (shrinks_of_refused write)
  | dropped _ notes read write _ ih =>
    obtain ⟨-, hshrinks, hnext⟩ := hready.dropped notes read write
    exact hshrinks.trans (ih hnext)

/-- Chains of which no block was dropped are left as they were. -/
theorem untouched (hrun : safetyStore.Cascades floors pending state run)
    (hready : state.Ready pending) (hdone : run.failure = none)
    (hothers : ∀ block ∈ run.blocks, block.chain ≠ chain) :
    run.after.chains.get? chain = state.chains.get? chain := by
  induction hrun with
  | done => rfl
  | covered _ _ ih => exact ih hready.tail hdone hothers
  | unread | refused => cases hdone
  | dropped _ notes read write _ ih =>
    obtain ⟨hdrops, -, hnext⟩ := hready.dropped notes read write
    obtain ⟨hfirst, hrest⟩ := List.forall_mem_cons.mp hothers
    exact (ih hnext hdone hrest).trans (hdrops.get?_of_ne hfirst.symm)

/-- In the end nothing is local-safe on the chain of a block from that block on, if the block was
waiting. -/
theorem ends (hrun : safetyStore.Cascades floors pending state run) (hready : state.Ready pending)
    (hdone : run.failure = none)
    (hfloors : ∀ chain floor, floors.get? chain = some floor → state.EndsBelow chain floor) :
    ∀ block ∈ pending, run.after.EndsBelow block.chain block.block.derived.number := by
  induction hrun with
  | done => exact fun _ hmem => absurd hmem List.not_mem_nil
  | @covered floors next rest state run cover later ih =>
    refine List.forall_mem_cons.mpr ⟨?_, ih hready.tail hdone hfloors⟩
    obtain ⟨floor, hfloor, hle⟩ := (Option.any_eq_true _ _).mp cover
    have hends := (later.shrinks hready.tail).endsBelow (hfloors next.chain floor hfloor)
    exact fun store key pair hstore hget =>
      UInt64.lt_of_lt_of_le (hends store key pair hstore hget) (of_decide_eq_true hle)
  | unread | refused => cases hdone
  | @dropped floors next rest dependents state noted written run _ notes read write later ih =>
    obtain ⟨hdrops, hshrinks, hnext⟩ := hready.dropped notes read write
    obtain ⟨-, hends, -⟩ := hdrops.awaits
    refine List.forall_mem_cons.mpr ⟨(later.shrinks hnext).endsBelow hends, fun block hmem => ?_⟩
    exact ih hnext hdone (hdrops.endsBelow_insert hshrinks hfloors) block
      (List.mem_append_right dependents hmem)

/-- The lowest block that was dropped on a chain is the one that the chain awaits a replacement
for. -/
theorem lowest (hrun : safetyStore.Cascades floors pending state run) (hready : state.Ready pending)
    (hdone : run.failure = none) {lowest : Dependent} (hmem : lowest ∈ run.blocks)
    (hlowest : ∀ block ∈ run.blocks, block.chain = lowest.chain →
      lowest.block.derived.number ≤ block.block.derived.number) :
    run.after.AwaitsReplacement lowest := by
  induction hrun with
  | done | unread | refused => exact absurd hmem List.not_mem_nil
  | covered _ _ ih => exact ih hready.tail hdone hmem hlowest
  | @dropped floors next rest dependents state noted written run fresh notes read write later ih =>
    obtain ⟨hdrops, -, hnext⟩ := hready.dropped notes read write
    obtain ⟨-, hrest⟩ := List.forall_mem_cons.mp hlowest
    rcases List.mem_cons.mp hmem with rfl | hmem
    · -- a later block of the chain would be lower still
      have hlast := later.untouched hnext hdone fun block hmem hchain =>
        absurd (hrest block hmem hchain) (UInt64.not_le.mpr
          ((lt_of_fresh_insert fresh (later.fresh block hmem)).1 hchain))
      exact hdrops.awaits.of_same hlast
    · exact ih hnext hdone hmem hrest

/-- No block that depends on a dropped one is left above the cross-safe head of its chain. -/
theorem independent (hrun : safetyStore.Cascades floors pending state run)
    (hready : state.Ready pending) (hdone : run.failure = none)
    (hfloors : ∀ chain floor, floors.get? chain = some floor → state.EndsBelow chain floor) :
    ∀ block ∈ run.blocks, run.after.IndependentOf block := by
  induction hrun with
  | done | unread | refused => exact fun _ hmem => absurd hmem List.not_mem_nil
  | covered _ _ ih => exact ih hready.tail hdone hfloors
  | @dropped floors next rest dependents state noted written run _ notes read write later ih =>
    obtain ⟨hdrops, hshrinks, hnext⟩ := hready.dropped notes read write
    have hlowered := hdrops.endsBelow_insert hshrinks hfloors
    refine List.forall_mem_cons.mpr ⟨?_, ih hnext hdone hlowered⟩
    have hends := later.ends hnext hdone hlowered
    exact independentOf_dependents hready.consistent read (hshrinks.trans (later.shrinks hnext))
      fun block hmem => hends block (List.mem_append_left rest hmem)

end SafetyStore.Cascades

namespace Cluster

variable {limit : Nat} {blocks : List Dependent}

/-- A candidate waits above the cross-safe head of its chain, whatever was noted meanwhile. -/
theorem ready_candidate (h : cluster.Holds Ledger.Consistent)
    (hnoted : safetyStore.Noted cluster noted) {candidate : DerivedPair}
    (hcandidate : cluster.view.candidate chain = .ok candidate) :
    noted.Ready [⟨chain, candidate⟩] := by
  refine ⟨h.noted hnoted, List.forall_mem_singleton.mpr ((shrinks_noted hnoted).aboveHead ?_)⟩
  intro store hstore
  obtain ⟨store', hstore', hstate⟩ := ask_eq_ok.mp hcandidate
  have heq := hstore.symm.trans hstore'
  cases heq
  obtain ⟨head, hadvances⟩ := (h.state hstore).headed.advances hstate
  exact hadvances.aboveHead

/-- Notes leave no trace in a cluster without metrics. -/
theorem noted_of_unmetered (hmetrics : cluster.metrics = none)
    (hnoted : safetyStore.Noted cluster noted) : noted = cluster := by
  have hnote (note : PromotionNote) : safetyStore.note note cluster = cluster := by
    change cluster.note note = cluster
    obtain ⟨members, chains, files, metrics⟩ := cluster
    cases hmetrics
    cases note <;> rfl
  obtain ⟨notes, rfl⟩ := hnoted
  induction notes with
  | nil => rfl
  | cons note rest ih => rw [List.foldl_cons, hnote, ih]

/-- Without metrics, a candidate that is rejected goes with the blocks of a cascade that ends within
some number of steps. -/
theorem promote_of_within (h : cluster.Holds Ledger.Consistent) (hmetrics : cluster.metrics = none)
    {candidate : DerivedPair} {error : CrossSafetyError}
    (hcandidate : cluster.view.candidate chain = .ok candidate)
    (hverdict : (cluster.promoter limit).verdict cluster.view chain candidate = .error error)
    (hconflict : error.isConflict = true) {steps : Nat}
    (hwithin : ((safetyStore.cascadeWithin steps .empty [⟨chain, candidate⟩]).from cluster).1 =
      .ok (some blocks)) : (cluster.promote limit chain).1 = .ok (.invalidated blocks) := by
  obtain ⟨noted, hnoted, hresult⟩ :=
    (h.updates rfl).result_of_conflict hcandidate hverdict hconflict
  rw [hresult, noted_of_unmetered hmetrics hnoted]
  exact congrArg (Except.map _) (SafetyStore.cascade_of_within hwithin)

/-- A cascade over some blocks that left nothing behind that depends on one of them. -/
structure CascadeComplete (cluster : Cluster) (chain : ChainId) (blocks : List Dependent)
    (after : Cluster) : Prop where
  /-- The first block is the candidate. -/
  first : ∃ candidate, cluster.view.candidate chain = .ok candidate ∧
    blocks.head? = some ⟨chain, candidate⟩
  /-- The blocks of one chain come from above. -/
  descending : blocks.Pairwise fun first later => first.chain = later.chain →
    later.block.derived.number < first.block.derived.number
  /-- Each chain ends below its lowest block and awaits a replacement of just that one. -/
  lowest : ∀ lowest ∈ blocks, (∀ block ∈ blocks, block.chain = lowest.chain →
    lowest.block.derived.number ≤ block.block.derived.number) → after.AwaitsReplacement lowest
  independent : ∀ block ∈ blocks, after.IndependentOf block

/-- Whenever a candidate is invalidated, everything that depends on it goes too, over any number of
chains. -/
theorem promote_cascade_complete (h : Reachable Operation.BlocksBounded cluster)
    (hinvalidated : (cluster.promote limit chain).1 = .ok (.invalidated blocks)) :
    cluster.CascadeComplete chain blocks (cluster.promote limit chain).2 := by
  have hconsistent := h.consistent fun _ hbounded => hbounded
  obtain ⟨noted, candidate, run, notes, hcandidate, hrun, hdone, rfl, hlast⟩ :=
    (hconsistent.updates hinvalidated).exists_cascade
  have hready := ready_candidate hconsistent notes hcandidate
  obtain ⟨metrics, hafter⟩ := noted_eq hlast
  rw [hafter]
  exact {
    first := ⟨candidate, hcandidate, hrun.head_eq hdone⟩
    descending := hrun.descending
    lowest := fun _ hmem hlowest => hrun.lowest hready hdone hmem hlowest
    independent := hrun.independent hready hdone fun _ _ hfloor => (nomatch hfloor) }

/-- Two blocks depend on the candidate, and the first of them goes once more, at a lower block,
because that one depends on the second. -/
theorem promote_cascade_complete_twice :
    let members : Membership := ⟨.ofList [(900, ⟨0, 0, 0⟩), (901, ⟨1, 0, 0⟩), (902, ⟨2, 0, 0⟩)]⟩
    let block (number : UInt64) (hash parent : UInt8) : DerivedPair :=
      ⟨⟨.ofBytes [9], 0, .ofBytes [0], 0⟩, ⟨.ofBytes [hash], number, .ofBytes [parent], number⟩⟩
    let extend (chain : ChainId) (pair : DerivedPair) (message : ExecutingMessage) : List Step :=
      [.write chain (.seal pair.derived [⟨0, .ofBytes [40], some message⟩]),
        .write chain (.addDerived pair)]
    let steps : List Step := [.create 900, .create 901, .create 902,
      .write 900 (.initialise (block 1 1 0)), .write 901 (.initialise (block 1 2 0)),
      .write 902 (.initialise (block 1 3 0))] ++
      extend 900 (block 2 11 1) ⟨7, 1, 0, 1, .ofBytes [50]⟩ ++
      extend 901 (block 2 12 2) ⟨2, 2, 0, 2, .ofBytes [40]⟩ ++
      extend 901 (block 3 22 12) ⟨0, 2, 0, 2, .ofBytes [40]⟩ ++
      extend 902 (block 2 13 3) ⟨0, 2, 0, 2, .ofBytes [40]⟩
    let cluster := (empty members false).run steps
    let blocks : List Dependent := [⟨900, block 2 11 1⟩, ⟨901, block 3 22 12⟩,
      ⟨902, block 2 13 3⟩, ⟨901, block 2 12 2⟩]
    (cluster.promote 10 900).1 = .ok (.invalidated blocks) ∧
      cluster.CascadeComplete 900 blocks (cluster.promote 10 900).2 := by
  intro members block extend steps cluster blocks
  have hbounded : ∀ operation ∈ steps.filterMap Step.operation?, operation.BlocksBounded := by
    decide +kernel
  have hreachable : Reachable Operation.BlocksBounded cluster :=
    (Reachable.empty members false).run hbounded
  have hmetrics : cluster.metrics.isNone = true := by decide +kernel
  have hcandidate : cluster.view.candidate 900 = .ok (block 2 11 1) := by decide +kernel
  have hverdict : (cluster.promoter 10).verdict cluster.view 900 (block 2 11 1) =
      .error (.conflict (.unknownChain 7)) := by decide +kernel
  have hwithin : ((safetyStore.cascadeWithin 4 .empty [⟨900, block 2 11 1⟩]).from cluster).1 =
      .ok (some blocks) := by decide +kernel
  have hinvalidated : (cluster.promote 10 900).1 = .ok (.invalidated blocks) :=
    promote_of_within (hreachable.consistent fun _ hbounded => hbounded)
      (Option.isNone_iff_eq_none.mp hmetrics) hcandidate hverdict rfl hwithin
  exact ⟨hinvalidated, promote_cascade_complete hreachable hinvalidated⟩

end Cluster

end CrossSafety
