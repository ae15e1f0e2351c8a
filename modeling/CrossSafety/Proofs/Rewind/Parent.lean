import CrossSafety.Proofs.Chain.Repeated
import CrossSafety.Proofs.Chain.Sealing
import CrossSafety.Proofs.Rewind.Run

/-!
# Going back to the parent of a derived block

A derived block that differs from the sealed one of its number takes its place: the chain goes back to
the parent, and then the derived block can be sealed with its logs. `BackAt` says what is left. In all
other cases the chain stays as it is.
-/
namespace CrossSafety

namespace ChainStore

/-- A chain that went back to the parent of a block which it had in another form. -/
structure BackAt (before after : ChainStore) (block : BlockRef) (parent : BlockSeal) : Prop where
  number : parent.number = block.number - 1
  hash : parent.hash = block.parentHash
  latest : after.state.latestSealed = .ok parent
  found : after.state.findSealed parent.number = .ok parent
  crossUnsafe : ∀ head, after.state.heads.crossUnsafe = some head → head.number ≤ parent.number
  /-- Nothing is left above the parent, neither blocks nor logs. -/
  blocks_gone : ∀ number, parent.number < number → after.state.blocks.get? number = none
  logs_gone : ∀ position hash, parent.number < position.block →
    after.logs.contains position hash = .ok false
  /-- The parent and what lies below stays, with all logs. -/
  blocks_kept : ∀ number, number ≤ parent.number →
    after.state.blocks.get? number = before.state.blocks.get? number
  logs_kept : ∀ position hash, position.block ≤ parent.number →
    after.logs.contains position hash = before.logs.contains position hash
  heads_kept : ∀ level ∈ [SafetyLevel.localSafe, .crossSafe, .finalized],
    after.state.heads.get level = before.state.heads.get level
  /-- The block can be sealed now. -/
  sealable : ∀ logs : List Log, (∀ i (hi : i < logs.length), logs[i].index.toNat = i) →
    (after.perform (.seal block logs)).result = .ok ()

end ChainStore

namespace ChainStore

variable {store left : ChainStore} {told : UInt64 → List Log} {block : BlockRef}

/-- A chain that was rewound to the sealed parent of a block is back at it. -/
theorem Traced.backAt (h : store.Traced told) (hzero : block.number ≠ 0) {sealed : SealedBlock}
    {logs : LogList} (hlisted : store.Listed logs) {kept : LogStore}
    (known : store.state.sealedBlock block.parentId = .ok sealed)
    (hkept : kept.Represents (logs.rewind block.parentId.number)) :
    store.BackAt ({ store with logs := kept }.commit (.rewindLocalUnsafe block.parentId.number))
      block sealed.block.toSeal := by
  have hmax : block.parentId.number < maxNumber := Ledger.numberBefore_lt block.number
  have hparent : block.parentId.number = block.number - 1 := if_neg hzero
  obtain ⟨hget, hid⟩ := Ledger.sealed_of_sealedBlock h.consistent.toSealedConsistent known
  have hnumber : sealed.block.toSeal.number = block.parentId.number := congrArg BlockId.number hid
  have hhash : sealed.block.hash = block.parentHash := congrArg BlockId.hash hid
  have hcut : ∀ number, (store.state.dropBlocksAbove block.parentId.number).blocks.get? number =
      if number ≤ sealed.block.toSeal.number then store.state.blocks.get? number else none := by
    rw [hnumber]
    exact fun number => Ledger.get?_below_succ hmax number
  have hnone : ∀ number, sealed.block.toSeal.number < number →
      (store.state.dropBlocksAbove block.parentId.number).blocks.get? number = none :=
    fun number hlt => (hcut number).trans (if_neg (UInt64.not_le.mpr hlt))
  have hlatest := Ledger.latest?_dropBlocksAbove hmax (sealedBlock_get? known).1
  have hconsistent := h.consistent.dropBlocksAbove hmax
  exact {
    number := hnumber.trans hparent
    hash := hhash
    latest := by
      change Ledger.latestSealed (store.state.dropBlocksAbove _) = _
      rw [Ledger.latestSealed, hlatest]
    found := Ledger.findSealed_eq_ok.mpr
      ⟨sealed, ((hcut _).trans (if_pos (UInt64.le_refl _))).trans hget, rfl⟩
    crossUnsafe := fun head hhead => by
      obtain ⟨other, hother, -⟩ := hconsistent.crossUnsafe head hhead
      rw [hnumber]
      exact Ledger.le_of_below_succ hmax hother
    blocks_gone := hnone
    logs_gone := fun position hash hlt => by
      change kept.contains position hash = _
      rw [hkept.contains_eq, decide_eq_false]
      rw [hnumber] at hlt
      exact fun hmem => UInt64.not_le.mpr hlt (LogList.mem_rewind.mp hmem).2
    blocks_kept := fun number hle => (hcut number).trans (if_pos hle)
    logs_kept := fun position hash hle => by
      change kept.contains position hash = _
      rw [hkept.contains_eq, hlisted.represents.contains_eq]
      rw [hnumber] at hle
      exact congrArg Except.ok (decide_eq_decide.mpr (LogList.mem_rewind.trans (and_iff_left hle)))
    heads_kept := by
      intro level hmem
      simp only [List.mem_cons, List.not_mem_nil, or_false] at hmem
      rcases hmem with rfl | rfl | rfl <;> rfl
    sealable := fun fresh hindex => by
      have hafter : ({ store with logs := kept }.commit
          (.rewindLocalUnsafe block.parentId.number)).Listed
            (logs.rewind block.parentId.number) := by
        refine ⟨hkept, hconsistent.blocks.keyed, fun entry hmem => ?_⟩
        refine UInt64.le_trans (LogList.mem_rewind.mp hmem).2 ?_
        change _ ≤ Ledger.latestNumber (store.state.dropBlocksAbove _)
        rw [Ledger.latestNumber, hlatest]
        exact UInt64.le_of_eq hnumber.symm
      refine hafter.perform_seal (.seal block fresh fun latest hsome => ?_) hzero hindex
      cases hlatest.symm.trans hsome
      have hsucc : block.number = sealed.block.toSeal.number + 1 := by
        rw [hnumber, hparent, UInt64.sub_add_cancel]
      refine ⟨hnone block.number ?_, hsucc, hhash.symm⟩
      rw [UInt64.lt_iff_toNat_lt, hnumber, hparent, toNat_pred hzero]
      have hpos := toNat_pos_of_ne_zero hzero
      omega }

/-- A rewind to the parent of a block takes the chain back there, or is refused by its checks. -/
theorem Traced.perform_parent (h : store.Traced told) (hzero : block.number ≠ 0) :
    (∃ error, store.state.requireKept block.parentId = .error error ∧
        store.perform (.rewindLocalUnsafe block.parentId) = ⟨.error error, store, []⟩) ∨
      ∃ left observed parent,
        store.perform (.rewindLocalUnsafe block.parentId) = ⟨.ok (), left, observed⟩ ∧
          store.BackAt left block parent := by
  obtain ⟨logs, hlisted, -⟩ := h.exists_listed
  rcases hlisted.perform_rewindLocalUnsafe block.parentId with
    hrefused | ⟨sealed, kept, observed, known, hkept, hperform⟩
  · exact .inl hrefused
  · exact .inr ⟨_, observed, _, hperform, h.backAt hzero hlisted known hkept⟩

end ChainStore

namespace Recovery

open Rewind

variable {σ : Type} {holds : σ → ChainStore → Prop} {recovery : Recovery σ}

/-- What is answered to a derived block, and the chain that is left. A failure is that of a check: no
block is sealed at the number, or the blocks above the parent cannot be given up. -/
def AnswersDerived (store : ChainStore) (block : BlockRef) :
    Except RewindError (Option BlockSeal) → ChainStore → Prop
  | .ok (some parent), left => store.BackAt left block parent
  | .ok none, left => left = store ∧ ∀ stored, store.state.findSealed block.number = .ok stored →
      stored.hash = block.hash
  | .error error, left => left = store ∧ ∃ cause, error = .storage cause ∧
      (store.state.findSealed block.number = .error cause ∨
        store.state.requireKept block.parentId = .error cause)

theorem leads_afterDerived (h : recovery.store.Serves holds) {store : ChainStore}
    {told : UInt64 → List Log} (htraced : store.Traced told) {block : BlockRef}
    (hzero : block.number ≠ 0) :
    ∃ answer left, Leads holds (recovery.afterDerived block) store answer left ∧
      AnswersDerived store block answer left := by
  have hread := leads_latestSealed h store
  rcases htop : store.state.latest?.map fun sealed => sealed.block.toSeal with _ | top
  · rw [htop] at hread
    refine ⟨_, _, hread.bind (leads_pure _), rfl, fun stored hstored => ?_⟩
    obtain ⟨sealed, hget, -⟩ := Ledger.findSealed_eq_ok.mp hstored
    obtain ⟨latest, hlatest⟩ := Table.Linked.exists_last hget
    rw [Ledger.latest?, hlatest] at htop
    cases htop
  rw [htop] at hread
  obtain ⟨latest, hlatest, htop⟩ := Option.map_eq_some_iff.mp htop
  by_cases hlt : top.number < block.number
  · refine ⟨_, _, hread.bind (.of_pos hlt (leads_pure _)), rfl, fun stored hstored => ?_⟩
    obtain ⟨sealed, hget, -⟩ := Ledger.findSealed_eq_ok.mp hstored
    have hle := htraced.consistent.blocks.le_last hlatest hget
    rw [← htop] at hlt
    exact absurd hlt (UInt64.not_lt.mpr hle)
  have hfound := leads_findSealed h store block.number
  rcases hstored : store.state.findSealed block.number with error | stored
  · rw [hstored] at hfound
    exact ⟨_, _, hread.bind (.of_neg hlt hfound.bind_error), rfl, error, rfl, .inl hstored⟩
  rw [hstored] at hfound
  by_cases hsame : stored.hash = block.hash
  · refine ⟨_, _, hread.bind (.of_neg hlt (hfound.bind (.of_pos hsame (leads_pure _)))), rfl,
      fun other hother => ?_⟩
    cases hstored.symm.trans hother
    exact hsame
  have hwrite := leads_write h store (.rewindLocalUnsafe block.parentId)
  rcases htraced.perform_parent hzero with
    ⟨error, hkept, hperform⟩ | ⟨left, observed, parent, hperform, hback⟩
  · rw [hperform] at hwrite
    exact ⟨_, _, hread.bind (.of_neg hlt (hfound.bind (.of_neg hsame hwrite.bind_error))), rfl,
      error, rfl, .inr hkept⟩
  rw [hperform] at hwrite
  have hparent := leads_findSealed h left block.parentId.number
  have hnumber : block.parentId.number = parent.number := (if_neg hzero).trans hback.number.symm
  rw [hnumber, hback.found, ← hnumber] at hparent
  exact ⟨_, _, hread.bind (.of_neg hlt (hfound.bind (.of_neg hsame (hwrite.bind
    (hparent.bind ((leads_tell h _ _).bind (leads_pure _))))))), hback⟩

end Recovery

namespace Supervisor

open ChainStore

/-- A chain that started in an empty directory is given a derived block above block zero. If the
answer is a block, the chain went back to this block, and the derived block can be sealed. Otherwise
the chain is as before: no other block is sealed at that number, or a check failed. -/
theorem followDerived_answers {supervisor : Supervisor} {chain : ChainId} {last : ChainStore}
    {steps : List Step} {pair : DerivedPair} (hblocks : ∀ step ∈ steps, step.BlocksBounded)
    (hrun : (load .empty >>= fun new => new.run steps) = .ok last)
    (hopen : supervisor.cluster.chains.get? chain = some last) (hzero : pair.derived.number ≠ 0)
    (asker : Asker) :
    let done := (supervisor.recovery asker chain).followDerived pair supervisor
    ∃ left, done.2.cluster.chains.get? chain = some left ∧
      Recovery.AnswersDerived last pair.derived done.1 left := by
  intro done
  have hserves : (supervisor.recovery asker chain).store.Serves _ := rewindStore_serves asker chain
  obtain ⟨answer, left, hleads, hanswers⟩ :=
    Recovery.leads_afterDerived hserves (ChainStore.run_traced hblocks hrun) hzero
  obtain ⟨hanswer, hleft⟩ := Recovery.run_eq hserves hleads hopen
  exact ⟨left, hleft, hanswer.symm ▸ hanswers⟩

/-- Block one is sealed with a log, and then another block one is derived. The chain goes back to
block zero. -/
theorem followDerived_answers_conflict :
    let block (number : UInt64) (hash parent : UInt8) : BlockRef :=
      ⟨.ofBytes [hash], number, .ofBytes [parent], number⟩
    let steps : List Step := [.write (.initialise ⟨block 1 10 9, block 0 1 0⟩),
      .write (.seal (block 1 2 1) [⟨0, .ofBytes [7], none⟩])]
    let pair : DerivedPair := ⟨block 1 10 9, block 1 3 1⟩
    let idle := fresh ⟨"", ⟨.empty⟩, 1, 1, 1, false⟩
    ∃ last, (load .empty >>= fun new => new.run steps) = .ok last ∧
      let supervisor : Supervisor :=
        { idle with cluster := { idle.cluster with chains := Table.empty.insert 5 last } }
      let done := (supervisor.recovery .visitor 5).followDerived pair supervisor
      done.1 = .ok (some (block 0 1 0).toSeal) ∧
        ∃ left, done.2.cluster.chains.get? 5 = some left ∧
          last.BackAt left pair.derived (block 0 1 0).toSeal := by
  intro block steps pair idle
  refine ⟨_, rfl, ?_⟩
  intro supervisor done
  obtain ⟨left, hleft, hback⟩ := @followDerived_answers supervisor 5 _ steps pair (by decide) rfl rfl
    (by decide) .visitor
  have hanswer : done.1 = .ok (some (block 0 1 0).toSeal) := by decide +kernel
  exact ⟨hanswer, left, hleft, by rw [show _ = _ from hanswer] at hback; exact hback⟩

end Supervisor

end CrossSafety
