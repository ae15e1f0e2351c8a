import CrossSafety.Proofs.Chain.Invariant
import CrossSafety.Proofs.Cluster.Resolution

/-!
# Reachable clusters

A cluster starts without chains and files. Chains are opened, written to and moved on, their heads
are reported, and all of them are closed, any number of times in any order. What every allowed
change of the indexes keeps holds of all open stores then, and of the files of the others. Opening a
chain may fail, and log files may be in any state; neither matters here.
-/
namespace CrossSafety.Cluster

variable {allowed : Operation → Prop} {holds : Ledger → Prop} {cluster : Cluster} {chain : ChainId}

/-- The states of a cluster to which only some writes are made, apart from those of promotions. -/
inductive Reachable (allowed : Operation → Prop) : Cluster → Prop where
  | empty (members : Membership) (metrics : Bool) : Reachable allowed (.empty members metrics)
  | create {cluster : Cluster} (h : Reachable allowed cluster) (chain : ChainId) :
      Reachable allowed (cluster.create chain).2
  | write {cluster : Cluster} (h : Reachable allowed cluster) (chain : ChainId)
      {operation : Operation} (hallowed : allowed operation) :
      Reachable allowed (cluster.perform chain operation).2
  | promote {cluster : Cluster} (h : Reachable allowed cluster) (limit : Nat) (chain : ChainId) :
      Reachable allowed (cluster.promote limit chain).2
  | report {cluster : Cluster} (h : Reachable allowed cluster) : Reachable allowed cluster.reportHeads
  | close {cluster : Cluster} (h : Reachable allowed cluster) : Reachable allowed cluster.close

/-- The write of a step. -/
def Step.operation? : Step → Option Operation
  | .write _ operation => some operation
  | .create _ | .promote _ _ => none

/-- A run makes reachable states of reachable ones. -/
theorem Reachable.run (h : Reachable allowed cluster) {steps : List Step}
    (hallowed : ∀ operation ∈ steps.filterMap Step.operation?, allowed operation) :
    Reachable allowed (cluster.run steps) := by
  induction steps generalizing cluster with
  | nil => exact h
  | cons step rest ih =>
    cases step with
    | create chain => exact ih (h.create chain) hallowed
    | write chain operation =>
      obtain ⟨hfirst, hrest⟩ := List.forall_mem_cons.mp hallowed
      exact ih (h.write chain hfirst) hrest
    | promote limit chain => exact ih (h.promote limit chain) hallowed

/-! ## What all chains have -/

/-- What opening files gives, a store or the files that are left. -/
def OpensTo (opened : ChainStore → Prop) (closed : Directory → Prop) :
    Except (StorageError × Directory) ChainStore → Prop
  | .ok store => opened store
  | .error (_, left) => closed left

/-- Properties of open stores and of the files of others that openings, closings and some writes
keep. -/
structure Lasting (allowed : Operation → Prop) (opened : ChainStore → Prop)
    (closed : Directory → Prop) : Prop where
  new : opened .empty
  load : ∀ directory, closed directory → OpensTo opened closed (ChainStore.load directory)
  perform : ∀ store operation, opened store → allowed operation ∨ operation.Promotes →
    opened (store.perform operation).store
  close : ∀ store, opened store → closed store.directory

/-- All open stores and all files of the others have a property. -/
structure All (cluster : Cluster) (opened : ChainStore → Prop) (closed : Directory → Prop) :
    Prop where
  stores : ∀ chain store, cluster.chains.get? chain = some store → opened store
  files : ∀ chain directory, cluster.files.get? chain = some directory → closed directory

section Lasting

variable {opened : ChainStore → Prop} {closed : Directory → Prop}

theorem All.withStore (h : cluster.All opened closed) {store : ChainStore} (hstore : opened store)
    (metrics : Option Registry) :
    ({ cluster with chains := cluster.chains.insert chain store, metrics } : Cluster).All
      opened closed where
  stores other found hfound := by
    rcases Table.eq_or_get?_of_insert hfound with rfl | hfound
    · exact hstore
    · exact h.stores other found hfound
  files := h.files

theorem All.noted (h : cluster.All opened closed) {noted : Cluster}
    (hnoted : safetyStore.Noted cluster noted) : noted.All opened closed := by
  obtain ⟨metrics, rfl⟩ := noted_eq hnoted
  exact ⟨h.stores, h.files⟩

variable (hlasting : Lasting allowed opened closed)

include hlasting in
theorem All.create (h : cluster.All opened closed) : (cluster.create chain).2.All opened closed := by
  unfold Cluster.create
  cases cluster.chains.get? chain with
  | some store => exact h
  | none =>
    have hload : OpensTo opened closed
        (ChainStore.load ((cluster.files.get? chain).getD .empty)) := by
      cases hfile : cluster.files.get? chain with
      | none => exact hlasting.new
      | some directory => exact hlasting.load directory (h.files chain directory hfile)
    dsimp only
    cases hresult : ChainStore.load ((cluster.files.get? chain).getD .empty) with
    | ok store =>
      rw [hresult] at hload
      refine ⟨(h.withStore hload none).stores, fun other directory hfile => ?_⟩
      exact h.files other directory (Table.get?_of_erase hfile)
    | error failure =>
      rw [hresult] at hload
      refine ⟨h.stores, fun other directory hfile => ?_⟩
      rcases Table.eq_or_get?_of_insert hfile with rfl | hfile
      · exact hload
      · exact h.files other directory hfile

include hlasting in
theorem All.perform (h : cluster.All opened closed) {operation : Operation}
    (hallowed : allowed operation ∨ operation.Promotes) :
    (cluster.perform chain operation).2.All opened closed := by
  cases hstore : cluster.chains.get? chain with
  | none => rwa [perform_closed hstore]
  | some store =>
    obtain ⟨metrics, hperform⟩ := perform_eq hstore operation
    rw [hperform]
    exact h.withStore (hlasting.perform store operation (h.stores chain store hstore) hallowed)
      metrics

include hlasting in
theorem All.close (h : cluster.All opened closed) : cluster.close.All opened closed where
  stores _ _ hstore := nomatch hstore
  files := by
    have hfold (entries : List (ChainId × ChainStore)) (files : Table ChainId Directory)
        (hentries : ∀ entry ∈ entries, opened entry.2)
        (hfiles : ∀ chain directory, files.get? chain = some directory → closed directory) :
        ∀ chain directory, (entries.foldl (fun files entry =>
          files.insert entry.1 entry.2.directory) files).get? chain = some directory →
          closed directory := by
      induction entries generalizing files with
      | nil => exact hfiles
      | cons entry rest ih =>
        obtain ⟨hentry, hrest⟩ := List.forall_mem_cons.mp hentries
        refine ih _ hrest fun chain directory hfile => ?_
        rcases Table.eq_or_get?_of_insert hfile with rfl | hfile
        · exact hlasting.close entry.2 hentry
        · exact hfiles chain directory hfile
    exact hfold _ _ (fun entry hmem => h.stores entry.1 entry.2 (Table.mem_toList.mp hmem)) h.files

include hlasting in
/-- Moving a chain on keeps what promotions keep. -/
theorem All.promote (h : cluster.All opened closed)
    (hconsistent : ∀ store, opened store → store.state.Consistent) (limit : Nat) :
    (cluster.promote limit chain).2.All opened closed := by
  have hset {noted after : Cluster} {pair : DerivedPair} {result : Except StorageError Unit}
      (hnoted : safetyStore.Noted cluster noted)
      (hwrite : safetyStore.setCrossSafe chain pair noted = (result, after)) :
      after.All opened closed := by
    cases congrArg Prod.snd hwrite
    exact (h.noted hnoted).perform hlasting (.inr trivial)
  have hupdates : (cluster.promoter limit).Updates chain cluster (cluster.promote limit chain).1
      (cluster.promote limit chain).2 :=
    promote_updates (fun _ store hstore => (hconsistent store (h.stores _ _ hstore)).headed) limit
      chain
  generalize (cluster.promote limit chain).1 = result at hupdates
  generalize (cluster.promote limit chain).2 = after at hupdates
  cases hupdates with
  | missing notes | deferred notes | unwidened notes => exact h.noted notes
  | promoted notes _ _ write => exact hset notes write
  | widened notes _ _ _ _ _ write => exact hset notes write
  | refused notes _ _ _ _ write => exact hset notes write
  | invalidated notes _ _ _ cascade last =>
    cases congrArg Prod.snd cascade
    have hinvalidate (state : Cluster) (next : Dependent) (hstate : state.All opened closed)
        (_ : True) : (state.perform next.chain (.invalidate next.block)).2.All opened closed :=
      hstate.perform hlasting (.inr trivial)
    exact (SafetyStore.cascade_preserves (fun _ _ hnoted hstate => All.noted hstate hnoted)
      (fun _ _ _ _ _ _ _ _ => trivial) hinvalidate (fun _ _ => trivial) (h.noted notes)).noted last

include hlasting in
/-- What openings, closings and all writes keep holds in every reachable state. -/
theorem Reachable.all (h : Reachable allowed cluster)
    (hconsistent : ∀ store, opened store → store.state.Consistent) : cluster.All opened closed := by
  induction h with
  | empty => exact ⟨fun _ _ hstore => (nomatch hstore), fun _ _ hfile => (nomatch hfile)⟩
  | create _ _ ih => exact ih.create hlasting
  | write _ _ hallowed ih => exact ih.perform hlasting (.inl hallowed)
  | promote _ limit _ ih => exact ih.promote hlasting hconsistent limit
  | report _ ih => exact ⟨ih.stores, ih.files⟩
  | close _ ih => exact ih.close hlasting

end Lasting

/-! ## Properties of the indexes -/

/-- Open stores and files of the others with journals that lead to indexes with a property. -/
structure Holds (cluster : Cluster) (holds : Ledger → Prop) : Prop where
  stores : ∀ chain store, cluster.chains.get? chain = some store → store.Holds holds
  files : ∀ chain directory, cluster.files.get? chain = some directory → directory.Holds holds

theorem holds_iff : cluster.Holds holds ↔ cluster.All (·.Holds holds) (·.Holds holds) :=
  ⟨fun h => ⟨h.stores, h.files⟩, fun h => ⟨h.stores, h.files⟩⟩

theorem Holds.state (h : cluster.Holds holds) {store : ChainStore}
    (hstore : cluster.chains.get? chain = some store) : holds store.state :=
  (h.stores chain store hstore).state

theorem Holds.imp {weaker : Ledger → Prop} (h : cluster.Holds holds)
    (himp : ∀ state, holds state → weaker state) : cluster.Holds weaker where
  stores chain store hstore :=
    ⟨(h.stores chain store hstore).journaled, himp _ (h.state hstore)⟩
  files chain directory hfile := by
    obtain ⟨store, hstore, hsame⟩ := h.files chain directory hfile
    exact ⟨store, ⟨hstore.journaled, himp _ hstore.state⟩, hsame⟩

theorem Holds.noted (h : cluster.Holds holds) {noted : Cluster}
    (hnoted : safetyStore.Noted cluster noted) : noted.Holds holds :=
  holds_iff.mpr ((holds_iff.mp h).noted hnoted)

/-- What every allowed change of the indexes keeps is lasting. -/
theorem lasting_holds (hinvariant : Ledger.Invariant allowed holds) :
    Lasting allowed (·.Holds holds) (·.Holds holds) where
  new := ChainStore.holds_empty hinvariant
  load directory hdirectory := by
    have hload := hdirectory.load hinvariant
    cases hresult : ChainStore.load directory <;> rw [hresult] at hload <;> exact hload
  perform _ _ hstore hallowed := hstore.perform hinvariant hallowed
  close _ hstore := hstore.directory

theorem Holds.perform (h : cluster.Holds holds) (hinvariant : Ledger.Invariant allowed holds)
    {operation : Operation} (hallowed : allowed operation ∨ operation.Promotes) :
    (cluster.perform chain operation).2.Holds holds :=
  holds_iff.mpr ((holds_iff.mp h).perform (lasting_holds hinvariant) hallowed)

/-- What moving a chain on did, by its result. -/
theorem Holds.updates (h : cluster.Holds Ledger.Consistent) {limit : Nat}
    {result : Except CrossSafetyError PromotionOutcome}
    (hresult : (cluster.promote limit chain).1 = result) :
    (cluster.promoter limit).Updates chain cluster result (cluster.promote limit chain).2 :=
  hresult ▸ promote_updates (fun _ _ hstore => (h.state hstore).headed) limit chain

/-- What every allowed change keeps holds in every reachable state. -/
theorem Reachable.invariant (h : Reachable allowed cluster) (hinvariant : Ledger.Invariant allowed holds)
    (hconsistent : ∀ state, holds state → state.Consistent) : cluster.Holds holds :=
  holds_iff.mpr (h.all (lasting_holds hinvariant) fun _ hstore => hconsistent _ hstore.state)

theorem Reachable.consistent (h : Reachable allowed cluster)
    (hblocks : ∀ operation, allowed operation → operation.BlocksBounded) :
    cluster.Holds Ledger.Consistent :=
  h.invariant (Ledger.invariant_consistent hblocks) fun _ hstate => hstate

end CrossSafety.Cluster
