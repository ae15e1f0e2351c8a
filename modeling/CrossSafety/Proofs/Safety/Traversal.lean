import CrossSafety.Proofs.Safety.Search

/-!
# What a hazard search finds

A search that ends has checked the block it started from and every hazard it found, and each
message of theirs that carries the timestamp of its block leads to a hazard. So the hazards are
all blocks that can be reached by such messages. This holds in whatever order the search takes the
blocks that it finds and the messages of a block.
-/
namespace CrossSafety

/-- In which order a search takes its pending blocks and the messages of a block. -/
structure Traversal where
  pending : HazardSearch → List PendingBlock
  messages : HazardSearch → BlockContents → List (UInt32 × ExecutingMessage)
  pending_perm : ∀ search, (pending search).Perm search.pending
  messages_perm : ∀ search opened, (messages search opened).Perm opened.messages.toList

namespace Traversal

/-- The block that was found last comes first, and messages come in the order of their logs. -/
def newestFirst : Traversal where
  pending := HazardSearch.pending
  messages _ opened := opened.messages.toList
  pending_perm _ := .refl _
  messages_perm _ _ := .refl _

section Definitions

variable (order : Traversal) (view : SafetyView) (set : DependencySet) (valid : OlderBlockCheck)

def visit (next : PendingBlock) (search : HazardSearch) : Check HazardSearch := do
  let opened ← view.openExactly next.chain next.block
  if opened.messages.isEmpty then return search
  else if ← .lookup (set.mayExecuteAt next.chain next.block.timestamp) then
    let ownIndex ← .lookup (set.indexOfId next.chain)
    HazardSearch.checkMessages view set valid ownIndex next.block (order.messages search opened)
      search
  else .reject (.executionNotPermitted next.chain next.block.timestamp)

/-- Checks pending blocks, at most `left` of the `limit`, until none is left. -/
def run (limit : Nat) : Nat → HazardSearch → Check Hazards
  | 0, search =>
    match order.pending search with
    | [] => pure search.found
    | _ :: _ => .fail (.hazardLimitExceeded limit)
  | left + 1, search =>
    match order.pending search with
    | [] => pure search.found
    | next :: rest => do
      run limit left (← order.visit view set valid next ⟨rest, search.found⟩)

def build (limit : Nat) (chain : ChainId) (block : BlockSeal) : Check Hazards :=
  order.run view set valid limit limit ⟨[⟨chain, block⟩], .empty⟩

end Definitions

variable {order : Traversal} {view : SafetyView} {set : DependencySet} {check : OlderBlockCheck}
  {search next : HazardSearch}

theorem run_newestFirst {limit left : Nat} : newestFirst.run view set check limit left search =
    HazardSearch.run view set check limit left search := by
  induction left generalizing search with
  | zero =>
    obtain ⟨pending, found⟩ := search
    cases pending <;> rfl
  | succ left ih =>
    obtain ⟨pending, found⟩ := search
    cases pending with
    | nil => rfl
    | cons next rest =>
      change (_ >>= fun search => newestFirst.run view set check limit left search) = _
      simp only [ih]
      rfl

theorem build_newestFirst {limit : Nat} {chain : ChainId} {block : BlockSeal} :
    newestFirst.build view set check limit chain block =
      Hazards.build view set check limit chain block :=
  run_newestFirst

theorem mem_messages (order : Traversal) {opened : BlockContents}
    (entry : UInt32 × ExecutingMessage) : entry ∈ order.messages search opened ↔
      opened.messages.get? entry.1 = some entry.2 :=
  (order.messages_perm search opened).mem_iff.trans Table.mem_toList

/-- A block that was visited has no messages, or may execute them and they were checked. -/
theorem visit_eq_ok {executor : PendingBlock}
    (h : (order.visit view set check executor search).result = .ok next) :
    ∃ opened, view.blockAt executor.chain executor.block.number = .ok opened ∧
      opened.block.id = executor.block.id ∧
      ((∀ logIndex, opened.messages.get? logIndex = none) ∧ next = search ∨
        ∃ ownIndex, set.mayExecuteAt executor.chain executor.block.timestamp = .ok true ∧
          set.indexOfId executor.chain = .ok ownIndex ∧
          (HazardSearch.checkMessages view set check ownIndex executor.block
            (order.messages search opened) search).result = .ok next) := by
  simp only [visit, Check.result_bind, Outcome.bind_eq_ok] at h
  obtain ⟨opened, hopened, h⟩ := h
  obtain ⟨hblock, hsame⟩ := SafetyView.openExactly_eq_ok.mp hopened
  refine ⟨opened, hblock, hsame, ?_⟩
  split at h
  · rename_i hempty
    cases h
    exact .inl ⟨Table.isEmpty_iff.mp hempty, rfl⟩
  · simp only [Check.result_bind, Check.lookup, Check.result_ofResult, Outcome.bind_eq_ok,
      Outcome.mapError_eq_ok] at h
    obtain ⟨executes, hexecutes, h⟩ := h
    split at h
    · rename_i htrue
      subst htrue
      simp only [Check.result_bind, Check.result_ofResult, Outcome.bind_eq_ok,
        Outcome.mapError_eq_ok] at h
      obtain ⟨ownIndex, hown, h⟩ := h
      exact .inr ⟨ownIndex, hexecutes, hown, h⟩
    · cases h

/-- A block that was visited passes, and the search grew by what it depends on. -/
theorem visit_sound {executor : PendingBlock}
    (h : (order.visit view set check executor search).result = .ok next) :
    HazardSearch.Grows set (view.Refers set executor) search next ∧
      ∃ opened, BlockPasses view set (HazardSearch.Accepts check) next.found executor opened := by
  obtain ⟨opened, hblock, hsame, ⟨hempty, rfl⟩ | ⟨ownIndex, hexecutes, hown, hchecked⟩⟩ :=
    visit_eq_ok h
  · refine ⟨.refl next, opened, hblock, hsame, fun logIndex message hmessage => ?_⟩
    rw [hempty] at hmessage
    cases hmessage
  · obtain ⟨hgrows, hpasses⟩ := HazardSearch.checkMessages_sound hblock hexecutes hown
      (fun entry hentry => (order.mem_messages entry).mp hentry) hchecked
    refine ⟨hgrows, opened, hblock, hsame, fun logIndex message hmessage => ?_⟩
    exact ⟨ownIndex, hpasses (logIndex, message) ((order.mem_messages _).mpr hmessage)⟩

/-- What holds of a search still holds after a visit, if it does whenever a block is added that the
visited one refers to. -/
theorem visit_induct {motive : HazardSearch → Prop} {executor : PendingBlock}
    (hadd : ∀ search index chain block, motive search → set.idOfIndex index = .ok chain →
      view.Refers set executor ⟨chain, block⟩ → search.found.get? index = none →
      motive ⟨⟨chain, block⟩ :: search.pending, search.found.insert index block⟩)
    (hsearch : motive search)
    (h : (order.visit view set check executor search).result = .ok next) : motive next := by
  obtain ⟨opened, hblock, -, ⟨-, rfl⟩ | ⟨ownIndex, hexecutes, hown, hchecked⟩⟩ := visit_eq_ok h
  · exact hsearch
  · exact HazardSearch.checkMessages_induct hadd hblock hexecutes hown
      (fun entry hentry => (order.mem_messages entry).mp hentry) hsearch hchecked

/-- A search that ends is finished, or goes on after a visit to one of the pending blocks. -/
theorem run_eq_ok {limit left : Nat} {hazards : Hazards}
    (h : (order.run view set check limit left search).result = .ok hazards) :
    (search.pending = [] ∧ hazards = search.found) ∨
      ∃ fewer executor rest next, left = fewer + 1 ∧ search.pending.Perm (executor :: rest) ∧
        (order.visit view set check executor ⟨rest, search.found⟩).result = .ok next ∧
        (order.run view set check limit fewer next).result = .ok hazards := by
  have hperm := order.pending_perm search
  cases left with
  | zero =>
    rw [run] at h
    cases hpending : order.pending search with
    | nil =>
      rw [hpending] at h hperm
      cases h
      exact .inl ⟨hperm.symm.eq_nil, rfl⟩
    | cons executor rest =>
      rw [hpending] at h
      cases h
  | succ left =>
    rw [run] at h
    cases hpending : order.pending search with
    | nil =>
      rw [hpending] at h hperm
      cases h
      exact .inl ⟨hperm.symm.eq_nil, rfl⟩
    | cons executor rest =>
      rw [hpending] at h hperm
      obtain ⟨next, hvisit, hrun⟩ := Outcome.bind_eq_ok.mp ((Check.result_bind _ _).symm.trans h)
      exact .inr ⟨left, executor, rest, next, rfl, hperm.symm, hvisit, hrun⟩

/-- What holds of a finished search: the hazards found so far are kept, what was pending passes, and
every new hazard passes and lies behind a block that was pending. -/
theorem run_sound {limit left : Nat} {start : PendingBlock} {hazards : Hazards}
    (hreach : ∀ block ∈ search.pending,
      block = start ∨ Relation.TransGen (view.Refers set) start block)
    (h : (order.run view set check limit left search).result = .ok hazards) :
    search.found.Within hazards ∧
      (∀ block ∈ search.pending,
        ∃ opened, BlockPasses view set (HazardSearch.Accepts check) hazards block opened) ∧
      ∀ index block, hazards.get? index = some block →
        search.found.get? index = some block ∨ ∃ chain, set.idOfIndex index = .ok chain ∧
          Relation.TransGen (view.Refers set) start ⟨chain, block⟩ ∧
          ∃ opened, BlockPasses view set (HazardSearch.Accepts check) hazards ⟨chain, block⟩
            opened := by
  induction left generalizing search with
  | zero =>
    rcases run_eq_ok h with ⟨hnil, rfl⟩ | ⟨_, _, _, _, hleft, -⟩
    · rw [hnil]
      exact ⟨fun _ _ h => h, fun _ hmem => absurd hmem List.not_mem_nil, fun _ _ h => .inl h⟩
    · cases hleft
  | succ left ih =>
    rcases run_eq_ok h with ⟨hnil, rfl⟩ | ⟨_, executor, rest, next, hleft, hperm, hvisit, hrun⟩
    · rw [hnil]
      exact ⟨fun _ _ h => h, fun _ hmem => absurd hmem List.not_mem_nil, fun _ _ h => .inl h⟩
    · cases hleft
      obtain ⟨hgrows, opened, hpasses⟩ := visit_sound hvisit
      have hexecutor := hreach executor (hperm.mem_iff.mpr List.mem_cons_self)
      have hbehind : ∀ block, view.Refers set executor block →
          Relation.TransGen (view.Refers set) start block := by
        intro block hrefers
        rcases hexecutor with rfl | hexecutor
        · exact .single hrefers
        · exact hexecutor.tail hrefers
      obtain ⟨hkept, hpending, hfresh⟩ := ih (fun block hmem => by
        rcases hgrows.all block hmem with hmem | hrefers
        · exact hreach block (hperm.mem_iff.mpr (List.mem_cons_of_mem _ hmem))
        · exact .inr (hbehind block hrefers)) hrun
      refine ⟨fun index block hfound => hkept _ _ (hgrows.found _ _ hfound), ?_, ?_⟩
      · intro block hmem
        rcases List.mem_cons.mp (hperm.mem_iff.mp hmem) with rfl | hmem
        · exact ⟨opened, hpasses.within hkept⟩
        · exact hpending block (hgrows.pending block hmem)
      · intro index block hhazard
        rcases hfresh index block hhazard with hfound | hnew
        · rcases hgrows.fresh index block hfound with hold | ⟨chain, hchain, hmem, hrefers⟩
          · exact .inl hold
          · exact .inr ⟨chain, hchain, hbehind _ hrefers, hpending _ hmem⟩
        · exact .inr hnew

/-- A hazard set that was built holds the blocks that can be reached from a block by messages of
their own timestamp. All of them pass their checks. -/
theorem build_sound {limit : Nat} {chain : ChainId} {block : BlockSeal} {hazards : Hazards}
    (h : (order.build view set check limit chain block).result = .ok hazards) :
    (∃ opened, BlockPasses view set (HazardSearch.Accepts check) hazards ⟨chain, block⟩ opened) ∧
      ∀ index hazard, hazards.get? index = some hazard →
        ∃ other, set.idOfIndex index = .ok other ∧
          Relation.TransGen (view.Refers set) ⟨chain, block⟩ ⟨other, hazard⟩ ∧
          ∃ opened, BlockPasses view set (HazardSearch.Accepts check) hazards ⟨other, hazard⟩
            opened := by
  obtain ⟨-, hpending, hfresh⟩ := run_sound
    (fun pending hmem => .inl (List.mem_singleton.mp hmem)) h
  refine ⟨hpending _ (List.mem_singleton.mpr rfl), fun index hazard hhazard => ?_⟩
  rcases hfresh index hazard hhazard with hnone | hnew
  · cases hnone
  · exact hnew

end Traversal

theorem Hazards.build_sound {view : SafetyView} {set : DependencySet} {check : OlderBlockCheck}
    {limit : Nat} {chain : ChainId} {block : BlockSeal} {hazards : Hazards}
    (h : (Hazards.build view set check limit chain block).result = .ok hazards) :
    (∃ opened, BlockPasses view set (HazardSearch.Accepts check) hazards ⟨chain, block⟩ opened) ∧
      ∀ index hazard, hazards.get? index = some hazard →
        ∃ other, set.idOfIndex index = .ok other ∧
          Relation.TransGen (view.Refers set) ⟨chain, block⟩ ⟨other, hazard⟩ ∧
          ∃ opened, BlockPasses view set (HazardSearch.Accepts check) hazards ⟨other, hazard⟩
            opened := by
  rw [← Traversal.build_newestFirst] at h
  exact Traversal.build_sound h

end CrossSafety
