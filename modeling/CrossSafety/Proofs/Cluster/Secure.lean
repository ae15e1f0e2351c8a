import CrossSafety.Proofs.Cluster.Pledge

/-!
# Clusters whose cross-safe blocks are backed

In a secure cluster every cross-safe block above an anchor is backed by a pledge that holds. Notes
and openings keep a cluster secure, and so does a write that leaves the guarded places alone and
backs what it makes cross-safe.
-/
namespace CrossSafety.Cluster

variable {cluster after : Cluster} {known : BlockRef → Prop} {kept : BlockPlace → Prop}
  {pledge : Pledge} {pledges more : List Pledge} {chain : ChainId} {operation : Operation}

/-- A cluster whose cross-safe blocks are all anchors or backed by pledges that hold. -/
structure Secure (cluster : Cluster) (known : BlockRef → Prop) (pledges : List Pledge) : Prop where
  distinct : cluster.members.hasDistinctIndices = true
  unfiled : cluster.files = .empty
  steady : cluster.Steady known
  upheld : ∀ pledge ∈ pledges, cluster.Upheld pledge
  recorded : ∀ pledge ∈ pledges, cluster.view.CrossSafe pledge.start.chain pledge.start.block
  backed : ∀ chain store number record, cluster.chains.get? chain = some store →
    store.state.crossDerived.get? number = some record →
    store.state.IsFirst number ∨ ∃ pledge ∈ pledges, pledge.Backs chain number record

/-- A record of a store after a change was there before, is that of an anchor, or is backed by a new
pledge. -/
def Accounted (cluster : Cluster) (more : List Pledge) (chain : ChainId) (next : ChainStore) :
    Prop :=
  ∀ number record, next.state.crossDerived.get? number = some record →
    (∃ store, cluster.chains.get? chain = some store ∧
      store.state.crossDerived.get? number = some record ∧
      (store.state.IsFirst number → next.state.IsFirst number)) ∨
    next.state.IsFirst number ∨ ∃ pledge ∈ more, pledge.Backs chain number record

theorem accounted_same {store : ChainStore} (h : cluster.chains.get? chain = some store) :
    cluster.Accounted more chain store :=
  fun _ _ hget => .inl ⟨store, h, hget, id⟩

/-- A change that leaves the guarded places as they are keeps a cluster secure. -/
theorem Secure.keeps (h : cluster.Secure known pledges)
    (hkeeps : cluster.Keeps after (cluster.Guards pledges)) (hunfiled : after.files = .empty)
    (hsteady : after.Steady known)
    (hmore : ∀ pledge ∈ more, after.Upheld pledge ∧
      after.view.CrossSafe pledge.start.chain pledge.start.block)
    (haccounted : ∀ chain next, after.chains.get? chain = some next →
      cluster.Accounted more chain next) : after.Secure known (more ++ pledges) where
  distinct := hkeeps.members ▸ h.distinct
  unfiled := hunfiled
  steady := hsteady
  upheld pledge hmem := by
    rcases List.mem_append.mp hmem with hmem | hmem
    · exact (hmore pledge hmem).1
    · exact (h.upheld pledge hmem).keeps h.steady hkeeps (h.steady.covers hmem)
        (h.steady.guards_crossSafe (h.recorded pledge hmem))
  recorded pledge hmem := by
    rcases List.mem_append.mp hmem with hmem | hmem
    · exact (hmore pledge hmem).2
    · exact hkeeps.view.crossSafe _ _ (h.recorded pledge hmem)
  backed chain next number record hnext hget := by
    rcases haccounted chain next hnext number record hget with
      ⟨store, hstore, hbefore, hfirst⟩ | hfirst | ⟨pledge, hmem, hbacks⟩
    · refine (h.backed chain store number record hstore hbefore).imp hfirst ?_
      exact fun ⟨pledge, hmem, hbacks⟩ => ⟨pledge, List.mem_append_right more hmem, hbacks⟩
    · exact .inl hfirst
    · exact .inr ⟨pledge, List.mem_append_left pledges hmem, hbacks⟩

/-! ## Notes, openings and writes -/

theorem noted_eq {noted : Cluster} (h : safetyStore.Noted cluster noted) :
    ∃ metrics, noted = { cluster with metrics } := by
  obtain ⟨notes, rfl⟩ := h
  induction notes generalizing cluster with
  | nil => exact ⟨cluster.metrics, rfl⟩
  | cons note rest ih =>
    obtain ⟨first, hfirst⟩ := note_eq cluster note
    obtain ⟨metrics, hrest⟩ : ∃ metrics, rest.foldl (fun state note => safetyStore.note note state)
        (cluster.note note) = { cluster.note note with metrics } := ih
    refine ⟨metrics, hrest.trans ?_⟩
    rw [hfirst]

theorem Secure.noted (h : cluster.Secure known pledges) {noted : Cluster}
    (hnoted : safetyStore.Noted cluster noted) : noted.Secure known pledges := by
  obtain ⟨metrics, rfl⟩ := noted_eq hnoted
  exact ⟨h.distinct, h.unfiled, h.steady, fun pledge hmem => { h.upheld pledge hmem with },
    h.recorded, h.backed⟩

theorem get?_replaced {chains : Table ChainId ChainStore} {next found : ChainStore} {other : ChainId}
    (h : (chains.insert chain next).get? other = some found) :
    (other = chain ∧ found = next) ∨ (other ≠ chain ∧ chains.get? other = some found) := by
  rcases Decidable.em (other = chain) with rfl | hne
  · rw [Table.get?_insert_self] at h
    exact .inl ⟨rfl, (Option.some.inj h).symm⟩
  · exact .inr ⟨hne, Table.get?_insert_of_ne hne ▸ h⟩

theorem create_eq (hunfiled : cluster.files = .empty) (hclosed : cluster.chains.get? chain = none) :
    ∃ metrics, (cluster.create chain).2 =
      { cluster with chains := cluster.chains.insert chain .empty, metrics } := by
  have hload : ChainStore.load ((cluster.files.get? chain).getD .empty) = .ok .empty := by
    rw [hunfiled, Table.get?_empty]
    rfl
  have hfiles : cluster.files.erase chain = cluster.files := by
    rw [hunfiled]
    rfl
  rw [Cluster.create, hclosed]
  dsimp only
  rw [hload, hfiles]
  exact ⟨_, rfl⟩

/-- A chain that is opened starts with an empty store. -/
theorem Secure.create (h : cluster.Secure known pledges) :
    (cluster.create chain).2.Secure known pledges := by
  cases hclosed : cluster.chains.get? chain with
  | some store =>
    rw [Cluster.create, hclosed]
    exact h
  | none =>
    obtain ⟨metrics, hcreate⟩ := create_eq h.unfiled hclosed
    have hkeeps : cluster.Keeps (cluster.create chain).2 (cluster.Guards pledges) := by
      rw [hcreate]
      refine ⟨rfl, fun other store hstore => ?_⟩
      have hne : other ≠ chain := by
        rintro rfl
        rw [hclosed] at hstore
        cases hstore
      exact ⟨store, (Table.get?_insert_of_ne hne).trans hstore, .refl store _⟩
    rw [hcreate] at hkeeps ⊢
    refine List.nil_append pledges ▸ h.keeps hkeeps h.unfiled (fun other store hstore => ?_) (fun _ hmem => absurd hmem List.not_mem_nil)
      fun other store hstore => ?_
    · rcases get?_replaced hstore with ⟨rfl, rfl⟩ | ⟨-, hstore⟩
      · exact ChainStore.empty_steady known
      · exact h.steady other store hstore
    · rcases get?_replaced hstore with ⟨rfl, rfl⟩ | ⟨-, hstore⟩
      · exact fun number record hget => (nomatch hget)
      · exact accounted_same hstore

/-- A write to an open chain changes its store and the metrics. -/
theorem perform_eq {store : ChainStore} (h : cluster.chains.get? chain = some store)
    (operation : Operation) : ∃ metrics, cluster.perform chain operation =
      ((store.perform operation).result,
        { cluster with
          chains := cluster.chains.insert chain (store.perform operation).store, metrics }) := by
  rw [Cluster.perform, Cluster.store, h]
  exact ⟨_, rfl⟩

theorem perform_closed (h : cluster.chains.get? chain = none) :
    (cluster.perform chain operation).2 = cluster := by
  rw [Cluster.perform, Cluster.store, h]

section Write

variable {store : ChainStore}

theorem Steady.keeps (h : cluster.Steady known) (hstore : cluster.chains.get? chain = some store)
    (hrange : operation.InRange)
    (hspares : operation.Spares store.state fun number => kept ⟨chain, number⟩) :
    cluster.Keeps (cluster.perform chain operation).2 kept := by
  obtain ⟨metrics, hperform⟩ := perform_eq hstore operation
  rw [hperform]
  refine ⟨rfl, fun other found hfound => ?_⟩
  rcases Decidable.em (other = chain) with rfl | hne
  · rw [hstore] at hfound
    cases hfound
    exact ⟨_, Table.get?_insert_self, (h other store hstore).keeps hrange hspares⟩
  · exact ⟨found, (Table.get?_insert_of_ne hne).trans hfound, .refl found _⟩

/-- A write that leaves the guarded places alone keeps a cluster secure, provided that a new
cross-safe record is backed. -/
theorem Secure.perform (h : cluster.Secure known pledges)
    (hstore : cluster.chains.get? chain = some store) (hrange : operation.InRange)
    (hspares : operation.Spares store.state fun number => cluster.Guards pledges ⟨chain, number⟩)
    (hblock : ∀ block, operation.block? = some block → known block)
    (hmore : ∀ pledge ∈ more, (cluster.perform chain operation).2.Upheld pledge ∧
      (cluster.perform chain operation).2.view.CrossSafe pledge.start.chain pledge.start.block)
    (hbacked : ∀ record, operation = .setCrossSafe record →
      store.state.crossDerived.get? record.derived.number = none →
      ∃ pledge ∈ more, pledge.Backs chain record.derived.number record) :
    (cluster.perform chain operation).2.Secure known (more ++ pledges) := by
  have hkeeps := h.steady.keeps hstore hrange hspares
  have hsteady := h.steady chain store hstore
  obtain ⟨metrics, hperform⟩ := perform_eq hstore operation
  rw [hperform] at hkeeps hmore ⊢
  refine h.keeps hkeeps h.unfiled (fun other found hfound => ?_) hmore
    fun other found hfound => ?_
  · rcases get?_replaced hfound with ⟨rfl, rfl⟩ | ⟨-, hfound⟩
    · exact hsteady.perform hrange hspares hblock
    · exact h.steady other found hfound
  · rcases get?_replaced hfound with ⟨rfl, rfl⟩ | ⟨-, hfound⟩
    · intro number record hget
      rcases hsteady.perform_state operation with hstate | ⟨change, hallows, hstate⟩
      · rw [hstate] at hget
        exact .inl ⟨store, hstore, hget, fun hfirst => hstate ▸ hfirst⟩
      · rw [hstate] at hget ⊢
        rcases Ledger.apply_recorded hsteady.headed hspares hallows hget with
          ⟨hbefore, hfirst⟩ | hfirst | ⟨rfl, rfl, hnone⟩
        · exact .inl ⟨store, hstore, hbefore, hfirst⟩
        · exact .inr (.inl hfirst)
        · exact .inr (.inr (hbacked record rfl hnone))
    · exact accounted_same hfound

end Write

end CrossSafety.Cluster
