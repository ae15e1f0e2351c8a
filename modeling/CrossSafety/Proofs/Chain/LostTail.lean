import CrossSafety.Proofs.Chain.Recovery
import CrossSafety.Proofs.LogStore.Cut

/-!
# Opening a chain after its log file lost its end

The journal reaches the disk before the log file does, so an end of the log file can be missing while
the blocks of those logs are sealed. These blocks are given up, and the others keep all their logs.

One kind of cut is left out. If the records end with a checkpoint or the hash behind it, the position
in the checkpoint counts as that of a stored log, and a block with this log as its last one stays
sealed without it.
-/
namespace CrossSafety.ChainStore

variable {store : ChainStore}

/-- The files of a chain whose log file lost everything behind some bytes. -/
def cutDirectory (store : ChainStore) (length : Nat) : Directory :=
  store.directory.set (some (store.logs.bytes.take length)) .logs

theorem Sound.load_cut (h : store.Sound) {length : Nat}
    (hcheckpoint : length / 24 % checkpointSpacing ≠ 1)
    (hhash : length / 24 % checkpointSpacing ≠ 2) :
    (∃ opened height, load (store.cutDirectory length) = .ok opened ∧
      opened.state.blocks.toList <+: store.state.blocks.toList ∧
      store.Recovered opened height) ∨
    ∃ number head rest, store.state.finalized = some head ∧ number ≤ head.number ∧
      load (store.cutDirectory length) = .error (.dataCorruption
        ("logs of finalized block " ++ toString number ++ " are missing"), rest) := by
  obtain ⟨logs, haligned⟩ := h.aligned
  obtain ⟨survivor, kept, lost, hopen, hsurvivor, rfl⟩ :=
    LogStore.openFile_take haligned.represents hcheckpoint hhash
  have hopened : LogStore.openFile ((store.cutDirectory length).logs.getD []) = .ok survivor :=
    hopen
  rcases haligned.load_lost h.journaled hopened rfl rfl hsurvivor with
    ⟨opened, height, hload, hrecovered, hblocks, -⟩ | ⟨first, head, rest, -, hhead, hle, hload⟩
  · exact .inl ⟨opened, height, hload, hblocks, hrecovered⟩
  · exact .inr ⟨first.position.block, head, rest, hhead, hle, hload⟩

/-- Whatever was done to a chain that started in an empty directory, its files open after the log file
lost its end at any byte that does not part a checkpoint from its log, or a finalized block lost logs.
The blocks that are still sealed are the first ones of those before, with all their logs. -/
theorem lost_tail_reopens (steps : List Step) (hrange : ∀ step ∈ steps, step.InRange) :
    ∃ store, (load .empty >>= fun new => new.run steps) = .ok store ∧
      ∀ length, length / 24 % checkpointSpacing ≠ 1 → length / 24 % checkpointSpacing ≠ 2 →
        (∃ opened height, load (store.cutDirectory length) = .ok opened ∧
          opened.state.blocks.toList <+: store.state.blocks.toList ∧
          store.Recovered opened height) ∨
        ∃ number head rest, store.state.finalized = some head ∧ number ≤ head.number ∧
          load (store.cutDirectory length) = .error (.dataCorruption
            ("logs of finalized block " ++ toString number ++ " are missing"), rest) := by
  obtain ⟨store, hrun, hsound⟩ := sound_empty.run hrange
  exact ⟨store, hrun, fun _ => hsound.load_cut⟩

/-- Two blocks with a log each are sealed, and the file is cut in the record of the second log. -/
theorem lost_tail_reopens_torn :
    let block (number : UInt64) (hash parent : UInt8) : BlockRef :=
      ⟨.ofBytes [hash], number, .ofBytes [parent], number⟩
    let anchor : DerivedPair := ⟨block 0 9 0, block 1 1 0⟩
    let steps : List Step := [.write (.initialise anchor),
      .write (.seal (block 2 2 1) [⟨0, .ofBytes [7], none⟩]),
      .write (.seal (block 3 3 2) [⟨0, .ofBytes [8], none⟩])]
    ∃ store, (load .empty >>= fun new => new.run steps) = .ok store ∧
      ∃ opened height, load (store.cutDirectory 80) = .ok opened ∧
        opened.state.blocks.toList <+: store.state.blocks.toList ∧
        store.Recovered opened height := by
  intro block anchor steps
  obtain ⟨store, hrun, hstore⟩ := lost_tail_reopens steps (by
    simp only [steps, List.forall_mem_cons, List.not_mem_nil, Step.InRange, Operation.InRange]
    exact ⟨by decide, ⟨by decide, by decide⟩, ⟨by decide, by decide⟩, fun _ hmem => hmem.elim⟩)
  have hfinalized : store.state.finalized = none := by
    have hnone : (load .empty >>= fun new => new.run steps).toOption.map
        (fun store => store.state.finalized) = some none := by decide +kernel
    rw [hrun] at hnone
    exact Option.some.inj hnone
  refine ⟨store, hrun, ?_⟩
  rcases hstore 80 (by decide) (by decide) with hopened | ⟨number, head, rest, hhead, -⟩
  · exact hopened
  · rw [hfinalized] at hhead
    cases hhead

end CrossSafety.ChainStore
