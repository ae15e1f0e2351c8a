import CrossSafety.Proofs.Chain.Ahead
import CrossSafety.Proofs.Cluster.Effect
import Mathlib.Algebra.Order.BigOperators.Group.List
import Mathlib.Data.Prod.Lex
import Mathlib.Data.Set.Card
import Mathlib.Order.Interval.Finset.Nat

/-!
# Promotions come to an end

Each successful update leaves less ahead of the chains: fewer local-safe blocks above the cross-safe
heads, or as many and fewer sources to widen to. Nothing but new blocks and sources adds to that, so
only finitely many updates succeed without any. A cascade drops a block that was ahead with every
block that it does not pass over, which bounds its steps too, whatever the messages of the blocks
refer to.
-/
namespace CrossSafety

theorem Table.values_map_sum {κ α : Type} [Numbered κ] (t : Table κ α) (measure : α → Nat) :
    (t.values.map measure).sum = (t.keys.map fun key => ((t.get? key).map measure).getD 0).sum := by
  rw [values, keys, List.map_map, List.map_map]
  refine congrArg List.sum (List.map_congr_left fun entry hmem => ?_)
  rw [Function.comp_apply, Function.comp_apply, mem_toList.mp hmem]
  rfl

namespace Cluster

variable {cluster after state : Cluster} {chain : ChainId} {limit : Nat}

/-! ## What is ahead -/

/-- A measure of the indexes of the open chains, added up. -/
def total (cluster : Cluster) (measure : Ledger → Nat) : Nat :=
  (cluster.chains.values.map fun store => measure store.state).sum

/-- The number of local-safe blocks above the cross-safe heads. -/
def blocksAhead (cluster : Cluster) : Nat := cluster.total Ledger.blocksAhead

/-- The number of recorded sources above those of the cross-safe heads. -/
def sourcesAhead (cluster : Cluster) : Nat := cluster.total Ledger.sourcesAhead

def remaining (cluster : Cluster) : Nat := cluster.blocksAhead + cluster.sourcesAhead

/-- Both numbers, of which that of the blocks counts first. -/
def ahead (cluster : Cluster) : Nat ×ₗ Nat := toLex (cluster.blocksAhead, cluster.sourcesAhead)

/-- The same chains are open, and nothing is ahead of one that was not ahead before. -/
structure Nears (cluster after : Cluster) : Prop where
  stores : ∀ chain store, cluster.chains.get? chain = some store →
    ∃ next, after.chains.get? chain = some next ∧ store.state.Nears next.state
  closed : ∀ chain, cluster.chains.get? chain = none → after.chains.get? chain = none

theorem Shrinks.nears (h : cluster.Shrinks after) : cluster.Nears after where
  stores chain store hstore := by
    obtain ⟨next, hnext, hshrinks⟩ := h.stores chain store hstore
    exact ⟨next, hnext, hshrinks.nears⟩
  closed := h.closed

theorem OnlyChanges.nears {store next : ChainStore} (h : cluster.OnlyChanges chain store next after)
    (hnears : store.state.Nears next.state) : cluster.Nears after where
  stores other found hfound := by
    rcases Decidable.em (other = chain) with rfl | hne
    · rw [h.before] at hfound
      cases hfound
      exact ⟨next, h.later, hnears⟩
    · exact ⟨found, (h.others other hne).trans hfound, .refl found.state⟩
  closed other hclosed := by
    have hne : other ≠ chain := by
      rintro rfl
      rw [h.before] at hclosed
      cases hclosed
    exact (h.others other hne).trans hclosed

theorem Nears.keys_eq (h : cluster.Nears after) : cluster.chains.keys = after.chains.keys := by
  refine Table.keys_eq fun chain => ⟨h.closed chain, fun hclosed => ?_⟩
  cases hstore : cluster.chains.get? chain with
  | none => rfl
  | some store =>
    obtain ⟨next, hnext, -⟩ := h.stores chain store hstore
    rw [hclosed] at hnext
    cases hnext

theorem Nears.size_eq (h : cluster.Nears after) : cluster.chains.size = after.chains.size := by
  rw [← Table.length_keys, ← Table.length_keys, h.keys_eq]

section Total

variable {measure : Ledger → Nat}
  (hmeasure : ∀ state after, Ledger.Nears state after → measure after ≤ measure state)

include hmeasure

theorem Nears.measure_le (h : cluster.Nears after) (chain : ChainId) :
    ((after.chains.get? chain).map fun store => measure store.state).getD 0 ≤
      ((cluster.chains.get? chain).map fun store => measure store.state).getD 0 := by
  cases hstore : cluster.chains.get? chain with
  | none => rw [h.closed chain hstore]
  | some store =>
    obtain ⟨next, hnext, hnears⟩ := h.stores chain store hstore
    rw [hnext]
    exact hmeasure _ _ hnears

theorem Nears.total_le (h : cluster.Nears after) : after.total measure ≤ cluster.total measure := by
  rw [total, total, Table.values_map_sum, Table.values_map_sum, h.keys_eq]
  exact List.sum_le_sum fun chain _ => h.measure_le hmeasure chain

/-- The total is less if one chain has less. -/
theorem Nears.total_lt (h : cluster.Nears after) {store next : ChainStore}
    (hstore : cluster.chains.get? chain = some store) (hnext : after.chains.get? chain = some next)
    (hlt : measure next.state < measure store.state) :
    after.total measure < cluster.total measure := by
  rw [total, total, Table.values_map_sum, Table.values_map_sum, h.keys_eq]
  refine List.sum_lt_sum _ _ (fun other _ => h.measure_le hmeasure other)
    ⟨chain, Table.mem_keys.mpr ⟨next, hnext⟩, ?_⟩
  rw [hstore, hnext]
  exact hlt

end Total

theorem Nears.blocksAhead_le (h : cluster.Nears after) : after.blocksAhead ≤ cluster.blocksAhead :=
  h.total_le fun _ _ hnears => hnears.blocksAhead_le

theorem Nears.sourcesAhead_le (h : cluster.Nears after) :
    after.sourcesAhead ≤ cluster.sourcesAhead :=
  h.total_le fun _ _ hnears => hnears.sourcesAhead_le

/-- Blocks that are gone, one of which was ahead, leave fewer blocks ahead. -/
theorem Shrinks.blocksAhead_lt (h : cluster.Shrinks after) {store : ChainStore} {number : UInt64}
    (hstore : cluster.chains.get? chain = some store)
    (hahead : number ∈ store.state.blockNumbersAhead) (hgone : after.EndsBelow chain number) :
    after.blocksAhead < cluster.blocksAhead := by
  obtain ⟨next, hnext, hshrinks⟩ := h.stores chain store hstore
  refine h.nears.total_lt (fun _ _ hnears => hnears.blocksAhead_le) hstore hnext
    (hshrinks.nears.blocksAhead_lt hahead fun hmem => ?_)
  obtain ⟨⟨pair, hget⟩, -⟩ := Ledger.mem_blockNumbersAhead.mp hmem
  exact UInt64.lt_irrefl _ (hgone next number pair hnext hget)

theorem length_dependents_le {block : BlockId} {dependents : List Dependent}
    (h : cluster.view.dependents chain block = .ok dependents) :
    dependents.length ≤ cluster.chains.size := by
  change cluster.dependents chain block = _ at h
  unfold Cluster.dependents at h
  cases hindex : cluster.members.indexOfId chain with
  | error error =>
    rw [hindex] at h
    cases h
  | ok index =>
    rw [hindex] at h
    cases h
    refine (List.length_filterMap_le _ _).trans (Nat.le_of_eq ?_)
    rw [Table.toList, List.length_reverse, Table.size]

end Cluster

/-! ## The steps of a cascade -/

namespace SafetyStore.Cascades

open Cluster

variable {state : Cluster} {floors : Floors} {pending : List Dependent} {run : CascadeRun Cluster}

/-- Every block that a cascade drops was ahead. -/
theorem blocks_le (hrun : safetyStore.Cascades floors pending state run)
    (hready : state.Ready pending) :
    run.blocks.length + run.after.blocksAhead ≤ state.blocksAhead := by
  induction hrun with
  | done floors state => exact Nat.le_of_eq (Nat.zero_add _)
  | covered _ _ ih => exact ih hready.tail
  | unread _ notes _ =>
    exact (Nat.zero_add _).trans_le (shrinks_noted notes).nears.blocksAhead_le
  | refused _ notes _ write =>
    exact (Nat.zero_add _).trans_le
      ((shrinks_noted notes).trans (shrinks_of_refused write)).nears.blocksAhead_le
  | @dropped floors next rest dependents state noted written run _ notes read write _ ih =>
    obtain ⟨hdrops, hshrinks, hnext⟩ := hready.dropped notes read write
    obtain ⟨-, hgone, -⟩ := hdrops.awaits
    have hlt : written.blocksAhead < state.blocksAhead := by
      obtain ⟨store, -, -, hstore, hallows, -⟩ := hdrops
      have habove := hready.above next List.mem_cons_self store hstore
      cases hallows with
      | invalidate candidate known recorded =>
        exact hshrinks.blocksAhead_lt hstore
          (Ledger.mem_blockNumbersAhead.mpr ⟨⟨known, recorded⟩, habove⟩) hgone
    calc (next :: run.blocks).length + run.after.blocksAhead
        = (run.blocks.length + run.after.blocksAhead) + 1 := by rw [List.length_cons]; omega
      _ ≤ written.blocksAhead + 1 := Nat.succ_le_succ (ih hnext)
      _ ≤ state.blocksAhead := hlt

/-- A cascade takes up no more blocks than were waiting at first and depend on one that it drops. -/
theorem taken_le (hrun : safetyStore.Cascades floors pending state run)
    (hready : state.Ready pending) :
    run.taken ≤ pending.length + run.blocks.length * state.chains.size := by
  induction hrun with
  | done floors state => exact Nat.zero_le _
  | covered _ _ ih =>
    rw [List.length_cons, Nat.add_right_comm]
    exact Nat.succ_le_succ (ih hready.tail)
  | unread | refused => exact Nat.le_add_right_of_le (Nat.succ_le_succ (Nat.zero_le _))
  | @dropped floors next rest dependents state noted written run _ notes read write _ ih =>
    obtain ⟨-, hshrinks, hnext⟩ := hready.dropped notes read write
    have htaken := ih hnext
    rw [← hshrinks.nears.size_eq, List.length_append] at htaken
    have hfew := length_dependents_le read
    calc run.taken + 1
        ≤ dependents.length + rest.length + run.blocks.length * state.chains.size + 1 :=
          Nat.succ_le_succ htaken
      _ ≤ rest.length + 1 + (run.blocks.length + 1) * state.chains.size := by
          rw [Nat.succ_mul]
          omega

end SafetyStore.Cascades

namespace Cluster

variable {cluster : Cluster} {chain : ChainId} {limit : Nat} {allowed : Operation → Prop}

/-! ## Updates in a row -/

/-- The steps in which a cascade from a candidate ends. -/
def cascadeSteps (cluster : Cluster) : Nat := 1 + cluster.blocksAhead * cluster.chains.size

theorem cascade_ends (h : cluster.Holds Ledger.Consistent) {noted : Cluster}
    (hnoted : safetyStore.Noted cluster noted) {candidate : DerivedPair}
    (hcandidate : cluster.view.candidate chain = .ok candidate) :
    (safetyStore.cascadeWithin cluster.cascadeSteps .empty [⟨chain, candidate⟩]).from noted =
      (((safetyStore.cascade .empty [⟨chain, candidate⟩]).from noted).1.map some,
        ((safetyStore.cascade .empty [⟨chain, candidate⟩]).from noted).2) := by
  obtain ⟨run, hrun, hresult, hlimited⟩ :=
    safetyStore.exists_cascades .empty [⟨chain, candidate⟩] noted
  have hready := ready_candidate h hnoted hcandidate
  have hsize : noted.chains.size = cluster.chains.size :=
    (shrinks_noted hnoted).nears.size_eq.symm
  have hblocks : run.blocks.length ≤ cluster.blocksAhead :=
    (Nat.le_of_add_right_le (hrun.blocks_le hready)).trans
      (shrinks_noted hnoted).nears.blocksAhead_le
  have htaken : run.taken ≤ cluster.cascadeSteps := by
    refine (hrun.taken_le hready).trans (Nat.add_le_add_left ?_ 1)
    exact hsize ▸ Nat.mul_le_mul_right _ hblocks
  rw [hresult, (hlimited cluster.cascadeSteps).enough htaken]

/-- An update leaves nothing ahead that was not ahead before. -/
theorem nears_promote (h : cluster.Holds fun state => state.Consistent ∧ state.SourcesLinked)
    (limit : Nat) (chain : ChainId) : cluster.Nears (cluster.promote limit chain).2 := by
  cases hresult : (cluster.promote limit chain).1 with
  | error error => exact (shrinks_of_failed (h.imp fun _ hstate => hstate.1) hresult).nears
  | ok outcome =>
    cases effect_of_done h hresult with
    | promoted changes advances moved => exact changes.nears (moved ▸ advances.nears _)
    | widened changes checked verdict scope advances recorded behind higher moved =>
      exact changes.nears (moved ▸ Ledger.nears_source advances.current
        (UInt64.lt_of_le_of_lt advances.source higher))
    | invalidated shrinks => exact shrinks.nears

/-- A successful update leaves fewer blocks ahead, or as many and fewer sources. -/
theorem ahead_lt (h : cluster.Holds fun state => state.Consistent ∧ state.SourcesLinked)
    {outcome : PromotionOutcome} (hdone : (cluster.promote limit chain).1 = .ok outcome) :
    (cluster.promote limit chain).2.ahead < cluster.ahead := by
  have hnears := nears_promote h limit chain
  refine Prod.Lex.toLex_lt_toLex'.mpr ⟨hnears.blocksAhead_le, fun hsame => ?_⟩
  have hno : ¬(cluster.promote limit chain).2.blocksAhead < cluster.blocksAhead :=
    Nat.not_lt.mpr (Nat.le_of_eq hsame.symm)
  cases effect_of_done h hdone with
  | promoted changes advances moved =>
    exact absurd (hnears.total_lt (fun _ _ hnears => hnears.blocksAhead_le) changes.before
      changes.later (moved ▸ advances.blocksAhead_lt _)) hno
  | widened changes checked verdict scope advances recorded behind higher moved =>
    exact hnears.total_lt (fun _ _ hnears => hnears.sourcesAhead_le) changes.before changes.later
      (moved ▸ Ledger.sourcesAhead_lt advances.current recorded
        (UInt64.lt_of_le_of_lt advances.source higher))
  | invalidated shrinks checked gone =>
    obtain ⟨store, hstore, hstate⟩ := ask_eq_ok.mp checked
    obtain ⟨head, hadvances⟩ := (h.state hstore).1.headed.advances hstate
    exact absurd (shrinks.blocksAhead_lt hstore hadvances.mem_blockNumbersAhead gone) hno

theorem remaining_le (h : cluster.Holds fun state => state.Consistent ∧ state.SourcesLinked)
    (limit : Nat) (chain : ChainId) :
    (cluster.promote limit chain).2.remaining ≤ cluster.remaining :=
  have hnears := nears_promote h limit chain
  Nat.add_le_add hnears.blocksAhead_le hnears.sourcesAhead_le

theorem remaining_lt (h : cluster.Holds fun state => state.Consistent ∧ state.SourcesLinked)
    {outcome : PromotionOutcome} (hdone : (cluster.promote limit chain).1 = .ok outcome) :
    (cluster.promote limit chain).2.remaining < cluster.remaining := by
  have hsources := (nears_promote h limit chain).sourcesAhead_le
  have hless : (cluster.promote limit chain).2.ahead < cluster.ahead := ahead_lt h hdone
  rcases Prod.Lex.toLex_lt_toLex.mp hless with hblocks | ⟨hblocks, hfewer⟩
  · exact Nat.add_lt_add_of_lt_of_le hblocks hsources
  · exact Nat.add_lt_add_of_le_of_lt (Nat.le_of_eq hblocks) hfewer

/-- The cluster after some updates in a row, each with its limit and chain. -/
def promotions (cluster : Cluster) (calls : Nat → Nat × ChainId) : Nat → Cluster
  | 0 => cluster
  | count + 1 => ((cluster.promotions calls count).promote (calls count).1 (calls count).2).2

/-- The updates in a row that succeed, by how many there were before. -/
def successes (cluster : Cluster) (calls : Nat → Nat × ChainId) : Set Nat :=
  { count | ∃ outcome,
    ((cluster.promotions calls count).promote (calls count).1 (calls count).2).1 = .ok outcome }

/-- A number that never grows falls only as often as it is high. -/
theorem finite_falls {value : Nat → Nat} (hanti : Antitone value) :
    { count | value (count + 1) < value count }.Finite ∧
      { count | value (count + 1) < value count }.ncard ≤ value 0 := by
  have hmaps : Set.MapsTo value { count | value (count + 1) < value count }
      (Set.Ioc 0 (value 0)) :=
    fun count hfalls => ⟨Nat.zero_lt_of_lt hfalls, hanti (Nat.zero_le count)⟩
  have hinj : Set.InjOn value { count | value (count + 1) < value count } :=
    StrictAntiOn.injOn fun _ hfalls _ _ hlt =>
      Nat.lt_of_le_of_lt (hanti (Nat.succ_le_of_lt hlt)) hfalls
  refine ⟨Set.Finite.of_injOn hmaps hinj (Set.finite_Ioc _ _), ?_⟩
  calc { count | value (count + 1) < value count }.ncard
      ≤ (Set.Ioc 0 (value 0)).ncard :=
        Set.ncard_le_ncard_of_injOn value hmaps hinj (Set.finite_Ioc _ _)
    _ = value 0 := by rw [Set.ncard_eq_toFinset_card', Set.toFinset_Ioc, Nat.card_Ioc, Nat.sub_zero]

theorem Reachable.promotions (h : Reachable allowed cluster) (calls : Nat → Nat × ChainId)
    (count : Nat) : Reachable allowed (cluster.promotions calls count) := by
  induction count with
  | zero => exact h
  | succ count ih => exact ih.promote (calls count).1 (calls count).2

/-- Updates of a cluster end, and only so many of them in a row can succeed. -/
structure Settles (cluster : Cluster) : Prop where
  /-- A cascade that gives up after some steps is the same as one that does not. -/
  cascades : ∀ chain candidate noted, cluster.view.candidate chain = .ok candidate →
    safetyStore.Noted cluster noted →
    (safetyStore.cascadeWithin cluster.cascadeSteps .empty [⟨chain, candidate⟩]).from noted =
      (((safetyStore.cascade .empty [⟨chain, candidate⟩]).from noted).1.map some,
        ((safetyStore.cascade .empty [⟨chain, candidate⟩]).from noted).2)
  progress : ∀ limit chain outcome, (cluster.promote limit chain).1 = .ok outcome →
    (cluster.promote limit chain).2.ahead < cluster.ahead
  finite : ∀ calls, (cluster.successes calls).Finite
  few : ∀ calls, (cluster.successes calls).ncard ≤ cluster.remaining

/-- Whatever the blocks of a cluster depend on, its updates end, and without new blocks and sources
they come to a point where none of them succeeds any more. -/
theorem promote_settles (h : Reachable Operation.Bounded cluster) : cluster.Settles := by
  have hreached (calls : Nat → Nat × ChainId) (count : Nat) := (h.promotions calls count).linked
  have hanti (calls : Nat → Nat × ChainId) :
      Antitone fun count => (cluster.promotions calls count).remaining :=
    antitone_nat_of_succ_le fun count => remaining_le (hreached calls count) _ _
  have hfalls (calls : Nat → Nat × ChainId) : cluster.successes calls ⊆ { count |
      (cluster.promotions calls (count + 1)).remaining <
        (cluster.promotions calls count).remaining } :=
    fun count ⟨_, hdone⟩ => remaining_lt (hreached calls count) hdone
  have hfinite (calls : Nat → Nat × ChainId) := finite_falls (hanti calls)
  exact {
    cascades := fun _ _ _ hcandidate hnoted =>
      cascade_ends (h.linked.imp fun _ hstate => hstate.1) hnoted hcandidate
    progress := fun _ _ _ hdone => ahead_lt h.linked hdone
    finite := fun calls => (hfinite calls).1.subset (hfalls calls)
    few := fun calls => (Set.ncard_le_ncard (hfalls calls) (hfinite calls).1).trans
      (hfinite calls).2 }

/-- Two blocks that execute messages of each other, and a source to which one chain may move. -/
theorem promote_settles_cyclic :
    let members : Membership := ⟨.ofList [(900, ⟨0, 0, 0⟩), (901, ⟨1, 0, 0⟩)]⟩
    let source (number : UInt64) (hash parent : UInt8) : BlockRef :=
      ⟨.ofBytes [hash], number, .ofBytes [parent], number⟩
    let block (number : UInt64) (hash parent : UInt8) : DerivedPair :=
      ⟨source 0 8 0, ⟨.ofBytes [hash], number, .ofBytes [parent], number⟩⟩
    let extend (chain : ChainId) (pair : DerivedPair) (hash : UInt8)
        (message : ExecutingMessage) : List Step :=
      [.write chain (.seal pair.derived [⟨0, .ofBytes [hash], some message⟩]),
        .write chain (.addDerived pair)]
    let steps : List Step := [.create 900, .create 901, .write 900 (.initialise (block 1 1 0)),
      .write 901 (.initialise (block 1 2 0)), .write 900 (.addSource (source 1 9 8))] ++
      extend 900 (block 2 11 1) 40 ⟨1, 2, 0, 2, .ofBytes [41]⟩ ++
      extend 901 (block 2 12 2) 41 ⟨0, 2, 0, 2, .ofBytes [40]⟩
    let cluster := (empty members false).run steps
    cluster.blocksAhead = 2 ∧ cluster.sourcesAhead = 1 ∧ cluster.Settles := by
  intro members source block extend steps cluster
  have hbounded : ∀ operation ∈ steps.filterMap Step.operation?, operation.Bounded := by
    decide +kernel
  have hreachable : Reachable Operation.Bounded cluster :=
    (Reachable.empty members false).run hbounded
  exact ⟨by decide +kernel, by decide +kernel, promote_settles hreachable⟩

end Cluster

end CrossSafety
