import CrossSafety.Proofs.Chain.SealedLogs

/-!
# A failed write changes nothing

A write that fails leaves indexes and journal as they are, and every question to its log store is
answered as before. A seal may fail after some logs of its block were added: these are taken back,
and the rewind that takes them back stops at the latest sealed block, so no other log goes with them.
The records of the log store need not be the same, only what they stand for.
-/
namespace CrossSafety.ChainStore

variable {store last : ChainStore} {told : UInt64 → List Log} {logs : LogList} {steps : List Step}
  {operation : Operation} {error : StorageError}

/-- A write fails only where it leaves indexes, journal and list. -/
theorem Listed.leaves_of_failed (h : store.Listed logs)
    (hfailed : (store.perform operation).result = .error error) : store.Leaves logs operation := by
  rcases perform_cases h operation with hleaves | ⟨change, -, kept, observed, -, hperform⟩
  · exact hleaves
  · rw [hperform] at hfailed
    cases hfailed

/-- Stores that stand for the same list answer alike. -/
theorem answers_same {kept : LogStore} (h : store.logs.Represents logs)
    (hkept : kept.Represents logs) : kept.latest = store.logs.latest ∧
      ∀ position hash, kept.contains position hash = store.logs.contains position hash :=
  ⟨by rw [h.latest_eq, hkept.latest_eq], fun position hash => by
    rw [h.contains_eq, hkept.contains_eq]⟩

/-- Whatever was done to a chain that started in an empty directory, a write that fails then leaves
its indexes and its journal, and what its log store answers. -/
theorem failed_write_keeps (hblocks : ∀ step ∈ steps, step.BlocksBounded)
    (hrun : (load .empty >>= fun new => new.run steps) = .ok last)
    (hfailed : (last.perform operation).result = .error error) :
    ∃ kept, (last.perform operation).store = { last with logs := kept } ∧
      kept.latest = last.logs.latest ∧
      ∀ position hash, kept.contains position hash = last.logs.contains position hash := by
  obtain ⟨logs, hlisted, -⟩ := (run_traced hblocks hrun).exists_listed
  obtain ⟨kept, observed, result, hkept, hperform⟩ := hlisted.leaves_of_failed hfailed
  exact ⟨kept, by rw [hperform], answers_same hlisted.represents hkept⟩

/-- The second log of a block is refused behind an anchor and a block with logs. -/
theorem failed_write_keeps_after_refused_log :
    let block (number : UInt64) (hash parent : UInt8) : BlockRef :=
      ⟨.ofBytes [hash], number, .ofBytes [parent], number⟩
    let log (index : UInt32) (hash : UInt8) : Log := ⟨index, .ofBytes [hash], none⟩
    let steps : List Step := [.write (.initialise ⟨block 0 9 0, block 1 1 0⟩),
      .write (.seal (block 2 2 1) [log 0 7, log 1 8])]
    let refused : Operation := .seal (block 3 3 2) [log 0 5, log 2 6]
    ∃ last, (load .empty >>= fun new => new.run steps) = .ok last ∧
      (last.perform refused).result =
        .error (.logOutOfOrder "expected log 1 of block 3, got log 2") ∧
      ∃ kept, (last.perform refused).store = { last with logs := kept } ∧
        kept.latest = last.logs.latest ∧
        ∀ position hash, kept.contains position hash = last.logs.contains position hash := by
  intro block log steps refused
  have hrefused : ∀ last, (load .empty >>= fun new => new.run steps) = .ok last →
      (last.perform refused).result =
        .error (.logOutOfOrder "expected log 1 of block 3, got log 2") := by
    rintro _ ⟨⟩
    decide +kernel
  exact ⟨_, rfl, hrefused _ rfl, @failed_write_keeps _ steps refused _ (by decide) rfl
    (hrefused _ rfl)⟩

end CrossSafety.ChainStore
