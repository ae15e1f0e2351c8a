import CrossSafety.Proofs.LogStore.Format

/-!
# The search for a checkpoint

The search for a checkpoint bisects the places of checkpoints. If the positions there go up, the loop
ends and the search gives the greatest checkpoint that is not above its target. Nothing is assumed
about the records between the checkpoints.
-/
namespace CrossSafety.LogStore

/-- The number of places for checkpoints in records, the last of them for a group that may not be
full. -/
def checkpointCount (records : Array Record) : Nat := (records.size + 255) / checkpointSpacing

/-- The records at the multiples of 256 are checkpoints, and their positions go up. -/
structure Checkpointed (records : Array Record) : Prop where
  decoded : ∀ i, i * checkpointSpacing < records.size →
    ∃ checkpoint, checkpointAt records (i * checkpointSpacing) = .ok checkpoint
  sorted : ∀ i j first second, i < j →
    checkpointAt records (i * checkpointSpacing) = .ok first →
    checkpointAt records (j * checkpointSpacing) = .ok second → first.position < second.position

/-- A checkpoint is at an index and not above a target, and no other such checkpoint is greater. -/
structure GreatestUpTo (records : Array Record) (target : Position) (index : Nat)
    (checkpoint : Checkpoint) : Prop where
  slot : index % checkpointSpacing = 0
  read : checkpointAt records index = .ok checkpoint
  reached : ¬target < checkpoint.position
  greatest : ∀ i other, checkpointAt records (i * checkpointSpacing) = .ok other →
    ¬target < other.position → ¬checkpoint.position < other.position

section Bisection

variable {records : Array Record} {target : Position} {checkpoints : List Checkpoint}

theorem lt_checkpointCount {i : Nat} :
    i < checkpointCount records ↔ i * checkpointSpacing < records.size := by
  rw [checkpointCount, checkpointSpacing]
  omega

theorem Checkpointed.exists_indexed (h : Checkpointed records) :
    ∃ checkpoints, Indexed records checkpoints := by
  let read (i : Nat) : Checkpoint :=
    (checkpointAt records (i * checkpointSpacing)).toOption.getD default
  have hread : ∀ i, i * checkpointSpacing < records.size →
      checkpointAt records (i * checkpointSpacing) = .ok (read i) := by
    intro i hi
    obtain ⟨checkpoint, hcheckpoint⟩ := h.decoded i hi
    simp only [read, hcheckpoint, Except.toOption, Option.getD_some]
  refine ⟨(List.range (checkpointCount records)).map read, ?_, ?_, ?_⟩
  · rw [List.length_map, List.length_range]
    rfl
  · intro i hi
    rw [List.length_map, List.length_range] at hi
    rw [List.getElem_map, List.getElem_range]
    exact hread i (lt_checkpointCount.mp hi)
  · refine List.pairwise_map.mpr (List.pairwise_lt_range.imp_of_mem fun hi hj hlt => ?_)
    rw [List.mem_range, lt_checkpointCount] at hi hj
    exact h.sorted _ _ _ _ hlt (hread _ hi) (hread _ hj)

theorem Indexed.eq_of_read (h : Indexed records checkpoints) {i : Nat} {checkpoint : Checkpoint}
    (hread : checkpointAt records (i * checkpointSpacing) = .ok checkpoint) :
    ∃ hi : i < checkpoints.length, checkpoints[i] = checkpoint := by
  have hi : i < checkpoints.length :=
    h.length_eq ▸ lt_checkpointCount.mpr (lt_of_checkpointAt hread)
  exact ⟨hi, Except.ok.inj ((h.decoded i hi).symm.trans hread)⟩

/-- The search gives the greatest checkpoint that is not above the target, if there is one. -/
theorem Indexed.findCheckpoint_cases (h : Indexed records checkpoints) (target : Position) :
    findCheckpoint records target = .ok none ∧
        (∀ i checkpoint, checkpointAt records (i * checkpointSpacing) = .ok checkpoint →
          target < checkpoint.position) ∨
      ∃ index checkpoint, findCheckpoint records target = .ok (some index) ∧
        GreatestUpTo records target index checkpoint := by
  obtain ⟨count, hcount, hfind, hupTo, habove⟩ := h.findCheckpoint_eq target
  cases count with
  | zero =>
    refine .inl ⟨hfind, fun i checkpoint hread => ?_⟩
    obtain ⟨hi, rfl⟩ := h.eq_of_read hread
    exact habove i hi (Nat.zero_le i)
  | succ last =>
    refine .inr ⟨last * checkpointSpacing, checkpoints[last], hfind, Nat.mul_mod_left _ _,
      h.decoded last hcount, hupTo last hcount (Nat.lt_succ_self last),
      fun i other hread hreached => ?_⟩
    obtain ⟨hi, rfl⟩ := h.eq_of_read hread
    -- a checkpoint that is not above the target does not come after the one that was found
    rcases Nat.lt_trichotomy i last with hlt | rfl | hlt
    · exact Position.lt_asymm (h.position_lt hlt hi hcount)
    · exact Position.lt_irrefl _
    · exact absurd (habove i hi hlt) hreached

end Bisection

/-- On checkpoints whose positions go up the bisection ends, after at most as many turns as their
number has binary digits, and the limit on it does not show. The search gives no checkpoint exactly if
there are no records or all checkpoints are above the target, and otherwise the greatest checkpoint
that is not. -/
theorem findCheckpoint_greatest {records : Array Record} (h : Checkpointed records)
    (target : Position) :
    (∃ turns below, Bisects records target turns 0 (checkpointCount records) below ∧
      turns ≤ Nat.size (checkpointCount records) ∧
      ∀ limit, checkpointCount records ≤ limit →
        bisect records target limit 0 (checkpointCount records) = .ok below) ∧
    ∃ found, findCheckpoint records target = .ok found ∧
      (found = none ↔ records.size = 0 ∨ ∀ i checkpoint,
        checkpointAt records (i * checkpointSpacing) = .ok checkpoint →
          target < checkpoint.position) ∧
      ∀ index, found = some index → ∃ checkpoint, GreatestUpTo records target index checkpoint := by
  obtain ⟨checkpoints, hindexed⟩ := h.exists_indexed
  have hcount : checkpoints.length = checkpointCount records := hindexed.length_eq
  refine ⟨hcount ▸ hindexed.bisects target, ?_⟩
  rcases hindexed.findCheckpoint_cases target with
    ⟨hfind, habove⟩ | ⟨index, checkpoint, hfind, hgreatest⟩
  · exact ⟨none, hfind, iff_of_true rfl (.inr habove), nofun⟩
  · refine ⟨some index, hfind, iff_of_false nofun ?_, ?_⟩
    · rintro (hempty | habove)
      · exact absurd (lt_of_checkpointAt hgreatest.read) (by omega)
      · obtain ⟨i, rfl⟩ := Nat.dvd_of_mod_eq_zero hgreatest.slot
        exact hgreatest.reached (habove i checkpoint (Nat.mul_comm _ i ▸ hgreatest.read))
    · rintro _ ⟨⟩
      exact ⟨checkpoint, hgreatest⟩

/-- Padding separates two checkpoints, and of the second group only the checkpoint is there. -/
theorem findCheckpoint_greatest_between :
    let records : Array Record := (#[(Checkpoint.mk 1 0 2).encode] ++
      Array.replicate 255 Record.padding).push (Checkpoint.mk 300 0 600).encode
    Checkpointed records ∧ findCheckpoint records ⟨299, 7⟩ = .ok (some 0) ∧
      ∃ checkpoint, GreatestUpTo records ⟨299, 7⟩ 0 checkpoint := by
  intro records
  have hsize : records.size = 257 := by simp [records]
  have hfirst : checkpointAt records 0 = .ok ⟨1, 0, 2⟩ := by
    simp [records, checkpointAt, recordAt]
  have hlast : records[256]? = some (Checkpoint.mk 300 0 600).encode := by
    rw [Array.getElem?_push, if_pos (by simp)]
  have hsecond : checkpointAt records 256 = .ok ⟨300, 0, 600⟩ := by
    rw [checkpointAt, recordAt_eq_ok.mpr hlast, Outcome.ok_bind, Checkpoint.decode_encode]
  have hslot : ∀ i, i * checkpointSpacing < records.size → i = 0 ∨ i = 1 := by
    intro i hi
    rw [hsize, checkpointSpacing] at hi
    omega
  have hcheckpointed : Checkpointed records := by
    constructor
    · intro i hi
      rcases hslot i hi with rfl | rfl
      · exact ⟨_, hfirst⟩
      · exact ⟨_, hsecond⟩
    · intro i j first second hlt hi hj
      obtain ⟨rfl, rfl⟩ : i = 0 ∧ j = 1 := by
        have hi := hslot i (lt_of_checkpointAt hi)
        have hj := hslot j (lt_of_checkpointAt hj)
        omega
      cases hfirst.symm.trans hi
      cases hsecond.symm.trans hj
      decide
  have hfound : findCheckpoint records ⟨299, 7⟩ = .ok (some 0) := by
    have habove : ¬(⟨300, 0⟩ : Position) < ⟨299, 7⟩ := by decide
    have hbelow : (⟨1, 0⟩ : Position) < ⟨299, 7⟩ := by decide
    simp [findCheckpoint, bisect, hsize, checkpointSpacing, hfirst, hsecond, Checkpoint.position,
      habove, hbelow]
  obtain ⟨-, found, hfind, -, hgreatest⟩ := findCheckpoint_greatest hcheckpointed ⟨299, 7⟩
  cases hfound.symm.trans hfind
  exact ⟨hcheckpointed, hfound, hgreatest 0 rfl⟩

end CrossSafety.LogStore
