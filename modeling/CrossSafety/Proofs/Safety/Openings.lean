import CrossSafety.Proofs.Safety.Traversal
import Mathlib.Data.List.Nodup

/-!
# The blocks that a search opens

A search opens the block it starts from, and after it at most one block of each chain that has an
index, however the chains answer. What the check of older blocks opens is counted apart.
-/
namespace CrossSafety

/-- The block that a read opens. -/
def Read.opened? : Read → Option (ChainId × UInt64)
  | .blockAt chain number => some (chain, number)
  | _ => none

/-- The blocks that a check opens, first one first. -/
def Check.openings {α : Type} (check : Check α) : List (ChainId × UInt64) :=
  check.reads.filterMap Read.opened?

namespace Check

variable {α β : Type} {first : Check α} {next : α → Check β}

theorem openings_bind_ok {value : α} (h : first.result = .ok value) :
    (first >>= next).openings = first.openings ++ (next value).openings := by
  obtain ⟨result, reads⟩ := first
  cases h
  exact List.filterMap_append

theorem openings_bind_error {error : CrossSafetyError} (h : first.result = .error error) :
    (first >>= next).openings = first.openings := by
  obtain ⟨result, reads⟩ := first
  cases h
  rfl

end Check

/-- The openings are some of its own and those of calls of the check of older blocks. -/
def OpensOwn (valid : OlderBlockCheck) (openings own : List (ChainId × UInt64)) : Prop :=
  ∃ asked : List (ChainId × BlockSeal),
    openings.Perm (own ++ asked.flatMap fun call => (valid call.1 call.2).openings)

theorem OpensOwn.refl (valid : OlderBlockCheck) (own : List (ChainId × UInt64)) :
    OpensOwn valid own own :=
  ⟨[], by simp⟩

theorem OpensOwn.append {valid : OlderBlockCheck} {openings more own others : List (ChainId × UInt64)}
    (h : OpensOwn valid openings own) (h' : OpensOwn valid more others) :
    OpensOwn valid (openings ++ more) (own ++ others) := by
  obtain ⟨asked, hasked⟩ := h
  obtain ⟨asked', hasked'⟩ := h'
  refine ⟨asked ++ asked', ?_⟩
  rw [List.flatMap_append]
  refine (hasked.append hasked').trans ?_
  rw [List.append_assoc, List.append_assoc]
  refine List.Perm.append_left own ?_
  rw [← List.append_assoc, ← List.append_assoc]
  exact List.perm_append_comm.append_right _

/-- Two checks in a row open what each of them opens. -/
theorem OpensOwn.bind {α β : Type} {valid : OlderBlockCheck} {first : Check α}
    {next : α → Check β} {own : List (ChainId × UInt64)} (h : OpensOwn valid first.openings own)
    (hnext : ∀ value, first.result = .ok value → OpensOwn valid (next value).openings []) :
    OpensOwn valid (first >>= next).openings own := by
  cases hfirst : first.result with
  | error error => rwa [Check.openings_bind_error hfirst]
  | ok value =>
    rw [Check.openings_bind_ok hfirst, ← List.append_nil own]
    exact h.append (hnext value hfirst)

section Search

variable {view : SafetyView} {set : DependencySet} {valid : OlderBlockCheck}
  {search next : HazardSearch}

/-! ## What a visit opens -/

theorem HazardSearch.checkMessage_opens (ownIndex : MemberIndex) (block : BlockSeal)
    (logIndex : UInt32) (message : ExecutingMessage) (search : HazardSearch) :
    OpensOwn valid (HazardSearch.checkMessage view set valid ownIndex block logIndex message
      search).openings [] := by
  unfold HazardSearch.checkMessage
  split
  · exact .refl valid []
  · refine OpensOwn.bind (.refl valid []) fun chain _ => ?_
    refine OpensOwn.bind (.refl valid []) fun initiates _ => ?_
    split
    · split
      · exact .refl valid []
      · refine OpensOwn.bind (.refl valid []) fun holder _ => ?_
        split
        · refine OpensOwn.bind ⟨[(chain, holder)], ?_⟩ fun _ _ => .refl valid []
          rw [List.flatMap_singleton, List.nil_append]
        · unfold HazardSearch.add
          split
          · split <;> exact .refl valid []
          · exact .refl valid []
    · exact .refl valid []

theorem HazardSearch.checkMessages_opens (ownIndex : MemberIndex) (block : BlockSeal)
    (messages : List (UInt32 × ExecutingMessage)) (search : HazardSearch) :
    OpensOwn valid (HazardSearch.checkMessages view set valid ownIndex block messages
      search).openings [] := by
  induction messages generalizing search with
  | nil => exact .refl valid []
  | cons entry rest ih =>
    exact OpensOwn.bind (HazardSearch.checkMessage_opens ownIndex block entry.1 entry.2 search)
      fun next _ => ih next

def PendingBlock.place (block : PendingBlock) : ChainId × UInt64 := (block.chain, block.block.number)

/-- A visit opens the block that is visited. -/
theorem Traversal.visit_opens (order : Traversal) (executor : PendingBlock) (search : HazardSearch) :
    OpensOwn valid (order.visit view set valid executor search).openings [executor.place] := by
  unfold Traversal.visit
  refine OpensOwn.bind ?_ fun opened _ => ?_
  · unfold SafetyView.openExactly
    refine OpensOwn.bind (.refl valid _) fun opened _ => ?_
    split <;> exact .refl valid []
  · split
    · exact .refl valid []
    · refine OpensOwn.bind (.refl valid []) fun executes _ => ?_
      split
      · refine OpensOwn.bind (.refl valid []) fun ownIndex _ => ?_
        exact HazardSearch.checkMessages_opens ownIndex executor.block _ search
      · exact .refl valid []

/-! ## What a search opens -/

/-- Blocks that were taken and those that are pending are of different chains. Each of these chains
has a hazard. -/
structure HazardSearch.Tracked (set : DependencySet) (taken : List PendingBlock)
    (search : HazardSearch) : Prop where
  nodup : ((taken ++ search.pending).map PendingBlock.chain).Nodup
  known : ∀ block ∈ taken ++ search.pending, ∃ index hazard,
    set.idOfIndex index = .ok block.chain ∧ search.found.get? index = some hazard

namespace HazardSearch.Tracked

variable {taken : List PendingBlock}

theorem add (h : search.Tracked set taken)
    (hids : ∀ index chain, set.idOfIndex index = .ok chain → set.indexOfId chain = .ok index)
    {index : MemberIndex} {chain : ChainId} {block : BlockSeal}
    (hchain : set.idOfIndex index = .ok chain) (hnone : search.found.get? index = none) :
    HazardSearch.Tracked set taken
      ⟨⟨chain, block⟩ :: search.pending, search.found.insert index block⟩ := by
  have hperm : (taken ++ ⟨chain, block⟩ :: search.pending).Perm
      (⟨chain, block⟩ :: (taken ++ search.pending)) := List.perm_middle
  constructor
  · refine (hperm.map PendingBlock.chain).nodup_iff.mpr (List.nodup_cons.mpr ⟨fun hmem => ?_,
      h.nodup⟩)
    obtain ⟨other, hother, hsame⟩ := List.mem_map.mp hmem
    obtain ⟨found, hazard, hfound, hget⟩ := h.known other hother
    rw [hsame] at hfound
    cases (hids _ _ hfound).symm.trans (hids _ _ hchain)
    rw [hnone] at hget
    cases hget
  · intro other hmem
    rcases List.mem_cons.mp (hperm.mem_iff.mp hmem) with rfl | hmem
    · exact ⟨index, block, hchain, Table.get?_insert_self⟩
    · obtain ⟨found, hazard, hfound, hget⟩ := h.known other hmem
      have hne : found ≠ index := by
        rintro rfl
        rw [hnone] at hget
        cases hget
      exact ⟨found, hazard, hfound, (Table.get?_insert_of_ne hne).trans hget⟩

theorem take (h : search.Tracked set taken) {executor : PendingBlock} {rest : List PendingBlock}
    (hperm : search.pending.Perm (executor :: rest)) :
    HazardSearch.Tracked set (taken ++ [executor]) ⟨rest, search.found⟩ := by
  have hall : (taken ++ search.pending).Perm (taken ++ [executor] ++ rest) := by
    rw [List.append_assoc, List.singleton_append]
    exact hperm.append_left taken
  exact ⟨(hall.map PendingBlock.chain).nodup_iff.mp h.nodup,
    fun block hmem => h.known block (hall.mem_iff.mpr hmem)⟩

end HazardSearch.Tracked

variable (hids : ∀ index chain, set.idOfIndex index = .ok chain → set.indexOfId chain = .ok index)

include hids in
/-- From here on a search opens blocks of different chains that were not taken before. -/
theorem Traversal.run_opens (order : Traversal) {limit left : Nat} {taken : List PendingBlock}
    (h : search.Tracked set taken) :
    ∃ visited : List PendingBlock,
      OpensOwn valid (order.run view set valid limit left search).openings
        (visited.map PendingBlock.place) ∧
      ((taken ++ visited).map PendingBlock.chain).Nodup ∧
      ∀ block ∈ taken ++ visited, ∃ index, set.idOfIndex index = .ok block.chain := by
  have hstop {taken : List PendingBlock} {search : HazardSearch} (h : search.Tracked set taken) :
      (taken.map PendingBlock.chain).Nodup ∧
        ∀ block ∈ taken, ∃ index, set.idOfIndex index = .ok block.chain := by
    refine ⟨h.nodup.sublist ((List.sublist_append_left _ _).map _), fun block hmem => ?_⟩
    obtain ⟨index, _, hindex, -⟩ := h.known block (List.mem_append_left _ hmem)
    exact ⟨index, hindex⟩
  have hperm := order.pending_perm search
  induction left generalizing search taken with
  | zero =>
    rw [Traversal.run]
    refine ⟨[], ?_, by rw [List.append_nil]; exact hstop h⟩
    cases order.pending search <;> exact .refl valid []
  | succ left ih =>
    rw [Traversal.run]
    cases hpending : order.pending search with
    | nil => exact ⟨[], .refl valid [], by rw [List.append_nil]; exact hstop h⟩
    | cons executor rest =>
      rw [hpending] at hperm
      have htaken := h.take hperm.symm
      have hvisit : OpensOwn valid
          (order.visit view set valid executor ⟨rest, search.found⟩).openings [executor.place] :=
        order.visit_opens executor _
      dsimp only
      cases hresult : (order.visit view set valid executor ⟨rest, search.found⟩).result with
      | error error =>
        rw [Check.openings_bind_error hresult]
        exact ⟨[executor], hvisit, hstop htaken⟩
      | ok next =>
        have hnext : next.Tracked set (taken ++ [executor]) :=
          Traversal.visit_induct (fun _ _ _ _ hsearch hchain _ hnone =>
            hsearch.add hids hchain hnone) htaken hresult
        obtain ⟨visited, hopens, hvisited⟩ := ih hnext (order.pending_perm next)
        rw [Check.openings_bind_ok hresult]
        refine ⟨executor :: visited, hvisit.append hopens, ?_⟩
        rwa [List.append_assoc, List.singleton_append] at hvisited

include hids in
/-- A search opens the block it starts from, if any, and then at most one block of each chain that
has an index. -/
theorem Traversal.build_opens (order : Traversal) {limit : Nat} {chain : ChainId}
    {block : BlockSeal} :
    ∃ own, OpensOwn valid (order.build view set valid limit chain block).openings own ∧
      (own = [] ∨ ∃ others, own = (chain, block.number) :: others ∧
        (others.map Prod.fst).Nodup ∧
        ∀ other ∈ others.map Prod.fst, ∃ index, set.idOfIndex index = .ok other) := by
  have hperm := order.pending_perm ⟨[⟨chain, block⟩], .empty⟩
  have hpending := List.perm_singleton.mp hperm
  unfold Traversal.build
  cases limit with
  | zero =>
    rw [Traversal.run, hpending]
    exact ⟨[], .refl valid [], .inl rfl⟩
  | succ left =>
    rw [Traversal.run, hpending]
    have hvisit : OpensOwn valid
        (order.visit view set valid ⟨chain, block⟩ ⟨[], .empty⟩).openings [(chain, block.number)] :=
      order.visit_opens _ _
    dsimp only
    cases hresult : (order.visit view set valid ⟨chain, block⟩ ⟨[], .empty⟩).result with
    | error error =>
      rw [Check.openings_bind_error hresult]
      exact ⟨_, hvisit, .inr ⟨[], rfl, .nil, fun _ hmem => absurd hmem List.not_mem_nil⟩⟩
    | ok next =>
      have hnone : HazardSearch.Tracked set [] ⟨[], .empty⟩ :=
        ⟨.nil, fun _ hmem => absurd hmem List.not_mem_nil⟩
      have hnext : next.Tracked set [] :=
        Traversal.visit_induct (fun _ _ _ _ hsearch hchain _ hnone =>
          hsearch.add hids hchain hnone) hnone hresult
      obtain ⟨visited, hopens, hnodup, hmember⟩ :=
        @Traversal.run_opens view set valid next hids order (left + 1) left [] hnext
      rw [Check.openings_bind_ok hresult]
      have hchains : (visited.map PendingBlock.place).map Prod.fst =
          visited.map PendingBlock.chain := List.map_map
      refine ⟨_, hvisit.append hopens, .inr ⟨visited.map PendingBlock.place, rfl, ?_, ?_⟩⟩
      · rw [hchains]
        exact hnodup
      · rw [hchains]
        intro other hmem
        obtain ⟨found, hfound, rfl⟩ := List.mem_map.mp hmem
        exact hmember found hfound

end Search

end CrossSafety
