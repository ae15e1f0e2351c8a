import CrossSafety.Proofs.LogStore.Bisection

/-!
# The checkpoints of a log store

The checkpoints of a store are those of its groups. What `findCheckpoint` gives is said here by the
checkpoints that can be read from the records: it is the last one that is not above the target.
-/
namespace CrossSafety.LogStore

section Checkpoints

variable {store : LogStore} {logs : LogList} {groups : List LogGroup} {records : Array Record}

theorem Layout.checkpointAt_eq_ok (layout : Layout groups)
    (hrecords : records.toList = groups.flatMap LogGroup.records) {i : Nat}
    {checkpoint : Checkpoint} :
    checkpointAt records i = .ok checkpoint ↔
      ∃ k, ∃ hk : k < groups.length, i = k * checkpointSpacing ∧
        groups[k].checkpoint = checkpoint := by
  constructor
  · intro hread
    obtain ⟨k, hk, rfl⟩ := layout.place_of_checkpoint (hrecords ▸ kindAt_of_checkpointAt hread)
    exact ⟨k, hk, rfl, Except.ok.inj ((layout.opened hrecords hk).1.symm.trans hread)⟩
  · rintro ⟨k, hk, rfl, rfl⟩
    exact (layout.opened hrecords hk).1

/-- A checkpoint is followed by a hash and by the event of the log whose position it gives. -/
theorem Represents.opened (h : Represents store logs) {i : Nat} {checkpoint : Checkpoint}
    (hread : checkpointAt store.records i = .ok checkpoint) :
    (∃ hash, (recordAt store.records (i + 1) >>= ShortHash.decode (i + 1)) = .ok hash) ∧
      ∃ hash, (recordAt store.records (i + 2) >>= LogRecord.decode (i + 2)) =
          .ok (.still hash) ∧
        ⟨checkpoint.position, hash⟩ ∈ logs := by
  obtain ⟨groups, layout, hrecords, hlogs⟩ := h.laid
  obtain ⟨k, hk, rfl, rfl⟩ := (layout.checkpointAt_eq_ok hrecords).mp hread
  obtain ⟨-, hhash, hevent⟩ := layout.opened hrecords hk
  refine ⟨⟨_, hhash⟩, _, hevent, ?_⟩
  rw [hlogs]
  exact List.mem_flatMap.mpr ⟨groups[k], List.getElem_mem hk, first_mem_entries _⟩

theorem Represents.checkpoint_ascending (h : Represents store logs) {i j : Nat}
    {first second : Checkpoint} (hij : i < j) (hfirst : checkpointAt store.records i = .ok first)
    (hsecond : checkpointAt store.records j = .ok second) : first.position < second.position := by
  obtain ⟨groups, layout, hrecords, hlogs⟩ := h.laid
  obtain ⟨k, hk, rfl, rfl⟩ := (layout.checkpointAt_eq_ok hrecords).mp hfirst
  obtain ⟨l, hl, rfl, rfl⟩ := (layout.checkpointAt_eq_ok hrecords).mp hsecond
  have hlt := (indexed layout (h.ascending hlogs) hrecords).position_lt
    (Nat.lt_of_mul_lt_mul_right hij) (by rwa [List.length_map]) (by rwa [List.length_map])
  rwa [List.getElem_map, List.getElem_map] at hlt

/-- The checkpoint at an index is the last one that is not above a target. -/
structure LastUpTo (records : Array Record) (target : Position) (i : Nat)
    (checkpoint : Checkpoint) : Prop where
  read : checkpointAt records i = .ok checkpoint
  reached : ¬target < checkpoint.position
  last : ∀ j later, i < j → checkpointAt records j = .ok later → target < later.position

/-- The search gives the last checkpoint that is not above the target, if there is one. -/
theorem Represents.findCheckpoint_cases (h : Represents store logs) (target : Position) :
    findCheckpoint store.records target = .ok none ∧
        (∀ i checkpoint, checkpointAt store.records i = .ok checkpoint →
          target < checkpoint.position) ∨
      ∃ i checkpoint, findCheckpoint store.records target = .ok (some i) ∧
        LastUpTo store.records target i checkpoint := by
  obtain ⟨groups, layout, hrecords, hlogs⟩ := h.laid
  rcases (indexed layout (h.ascending hlogs) hrecords).findCheckpoint_cases target with
    ⟨hfind, habove⟩ | ⟨index, checkpoint, hfind, hgreatest⟩
  · refine .inl ⟨hfind, fun i checkpoint hread => ?_⟩
    obtain ⟨k, -, rfl, -⟩ := (layout.checkpointAt_eq_ok hrecords).mp hread
    exact habove k checkpoint hread
  · refine .inr ⟨index, checkpoint, hfind, hgreatest.read, hgreatest.reached, ?_⟩
    intro j later hlt hread
    obtain ⟨l, -, rfl, -⟩ := (layout.checkpointAt_eq_ok hrecords).mp hread
    exact Decidable.byContradiction fun hreached =>
      hgreatest.greatest l later hread hreached (h.checkpoint_ascending hlt hgreatest.read hread)

/-- A checkpoint at the target itself is the one that the search gives. -/
theorem Represents.findCheckpoint_exact (h : Represents store logs) {i : Nat}
    {checkpoint : Checkpoint} (hread : checkpointAt store.records i = .ok checkpoint) :
    findCheckpoint store.records checkpoint.position = .ok (some i) := by
  rcases h.findCheckpoint_cases checkpoint.position with ⟨-, habove⟩ | ⟨j, found, hfind, hlast⟩
  · exact absurd (habove i checkpoint hread) (Position.lt_irrefl _)
  · rcases Nat.lt_trichotomy i j with hlt | rfl | hlt
    · exact absurd (h.checkpoint_ascending hlt hread hlast.read) hlast.reached
    · exact hfind
    · exact absurd (hlast.last i checkpoint hlt hread) (Position.lt_irrefl _)

end Checkpoints

end CrossSafety.LogStore
