import CrossSafety.Proofs.Chain.Advance
import Mathlib.Data.List.Perm.Subperm

/-!
# How much is ahead of a chain

What is still to be promoted on a chain are its local-safe blocks above the cross-safe head, and the
scope can still widen to the recorded sources above the source of the head. A new head, a later source
and an invalidation each leave less of one of the two, and never more of the other.
-/
namespace CrossSafety

namespace Table

variable {α : Type} {t : Table UInt64 α} {bound : Option UInt64} {key : UInt64}

/-- The keys above a bound, all of them if there is none. -/
def keysAbove (t : Table UInt64 α) (bound : Option UInt64) : List UInt64 :=
  t.keys.filter fun key => bound.all (· < key)

theorem mem_keysAbove : key ∈ t.keysAbove bound ↔
    (∃ value, t.get? key = some value) ∧ ∀ limit, bound = some limit → limit < key := by
  rw [keysAbove, List.mem_filter, mem_keys, Option.all_eq_true]
  simp only [decide_eq_true_eq]

theorem keysAbove_nodup (t : Table UInt64 α) (bound : Option UInt64) :
    (t.keysAbove bound).Nodup := t.keys_nodup.filter _

end Table

namespace Ledger

variable {state after : Ledger} {pair head : DerivedPair} {source : BlockRef} {number : UInt64}

/-- The local-safe blocks above the cross-safe head. -/
def blockNumbersAhead (state : Ledger) : List UInt64 :=
  state.localDerived.keysAbove (state.crossSafe.map fun head => head.derived.number)

/-- The recorded sources above the source of the cross-safe head. -/
def sourceNumbersAhead (state : Ledger) : List UInt64 :=
  state.sources.keysAbove (state.crossSafe.map fun head => head.source.number)

def blocksAhead (state : Ledger) : Nat := state.blockNumbersAhead.length

def sourcesAhead (state : Ledger) : Nat := state.sourceNumbersAhead.length

theorem mem_blockNumbersAhead : number ∈ state.blockNumbersAhead ↔
    (∃ pair, state.localDerived.get? number = some pair) ∧ state.AboveHead number := by
  simp [blockNumbersAhead, Table.mem_keysAbove, AboveHead]

theorem mem_sourceNumbersAhead : number ∈ state.sourceNumbersAhead ↔
    (∃ source, state.sources.get? number = some source) ∧
      ∀ head, state.crossSafe = some head → head.source.number < number := by
  simp [sourceNumbersAhead, Table.mem_keysAbove]

theorem blockNumbersAhead_nodup (state : Ledger) : state.blockNumbersAhead.Nodup :=
  Table.keysAbove_nodup _ _

theorem sourceNumbersAhead_nodup (state : Ledger) : state.sourceNumbersAhead.Nodup :=
  Table.keysAbove_nodup _ _

/-- Nothing is ahead that was not ahead before. -/
structure Nears (state after : Ledger) : Prop where
  blocks : after.blockNumbersAhead ⊆ state.blockNumbersAhead
  sources : after.sourceNumbersAhead ⊆ state.sourceNumbersAhead

theorem Nears.blocksAhead_le (h : state.Nears after) : after.blocksAhead ≤ state.blocksAhead :=
  (List.subperm_of_subset after.blockNumbersAhead_nodup h.blocks).length_le

theorem Nears.sourcesAhead_le (h : state.Nears after) : after.sourcesAhead ≤ state.sourcesAhead :=
  (List.subperm_of_subset after.sourceNumbersAhead_nodup h.sources).length_le

theorem Nears.blocksAhead_lt (h : state.Nears after) (hbefore : number ∈ state.blockNumbersAhead)
    (hafter : number ∉ after.blockNumbersAhead) : after.blocksAhead < state.blocksAhead :=
  (List.subperm_of_subset (List.nodup_cons.mpr ⟨hafter, after.blockNumbersAhead_nodup⟩)
    (List.cons_subset.mpr ⟨hbefore, h.blocks⟩)).length_le

theorem Nears.sourcesAhead_lt (h : state.Nears after) (hbefore : number ∈ state.sourceNumbersAhead)
    (hafter : number ∉ after.sourceNumbersAhead) : after.sourcesAhead < state.sourcesAhead :=
  (List.subperm_of_subset (List.nodup_cons.mpr ⟨hafter, after.sourceNumbersAhead_nodup⟩)
    (List.cons_subset.mpr ⟨hbefore, h.sources⟩)).length_le

theorem Nears.refl (state : Ledger) : state.Nears state := ⟨List.Subset.refl _, List.Subset.refl _⟩

theorem Shrinks.nears (h : state.Shrinks after) : state.Nears after where
  blocks number hmem := by
    obtain ⟨⟨pair, hget⟩, habove⟩ := mem_blockNumbersAhead.mp hmem
    exact mem_blockNumbersAhead.mpr
      ⟨⟨pair, h.localDerived number pair hget⟩, h.aboveHead.mp habove⟩
  sources number hmem := by
    rwa [sourceNumbersAhead, h.sources, h.crossSafe] at hmem

/-- A head that does not go back, in a source that does not go back, leaves nothing more ahead. -/
theorem nears_head (pair : DerivedPair) (hcurrent : state.crossSafe = some head)
    (hblock : head.derived.number ≤ pair.derived.number)
    (hsource : head.source.number ≤ pair.source.number)
    (crossDerived : Table UInt64 DerivedPair) :
    state.Nears { state with crossDerived, crossSafe := some pair } where
  blocks number hmem := by
    obtain ⟨hget, habove⟩ := mem_blockNumbersAhead.mp hmem
    refine mem_blockNumbersAhead.mpr ⟨hget, fun other hother => ?_⟩
    rw [hcurrent] at hother
    cases hother
    exact UInt64.lt_of_le_of_lt hblock (habove pair rfl)
  sources number hmem := by
    obtain ⟨hget, habove⟩ := mem_sourceNumbersAhead.mp hmem
    refine mem_sourceNumbersAhead.mpr ⟨hget, fun other hother => ?_⟩
    rw [hcurrent] at hother
    cases hother
    exact UInt64.lt_of_le_of_lt hsource (habove pair rfl)

theorem Advances.nears (h : state.Advances head pair) (crossDerived : Table UInt64 DerivedPair) :
    state.Nears { state with crossDerived, crossSafe := some pair } :=
  nears_head pair h.current (UInt64.le_of_lt h.above) h.source crossDerived

theorem Advances.mem_blockNumbersAhead (h : state.Advances head pair) :
    pair.derived.number ∈ state.blockNumbersAhead := by
  obtain ⟨known, hknown, -, -⟩ := h.recorded
  exact Ledger.mem_blockNumbersAhead.mpr ⟨⟨known, hknown⟩, h.aboveHead⟩

/-- A block that becomes the head is not ahead any more. -/
theorem Advances.blocksAhead_lt (h : state.Advances head pair)
    (crossDerived : Table UInt64 DerivedPair) :
    ({ state with crossDerived, crossSafe := some pair } : Ledger).blocksAhead <
      state.blocksAhead := by
  refine (h.nears crossDerived).blocksAhead_lt h.mem_blockNumbersAhead fun hmem => ?_
  exact UInt64.lt_irrefl _ ((Ledger.mem_blockNumbersAhead.mp hmem).2 pair rfl)

theorem nears_source (hcurrent : state.crossSafe = some head)
    (hhigher : head.source.number < source.number) :
    state.Nears { state with crossSafe := some ⟨source, head.derived⟩ } :=
  nears_head ⟨source, head.derived⟩ hcurrent (UInt64.le_refl _) (UInt64.le_of_lt hhigher) _

/-- A source that becomes that of the head is not ahead any more. -/
theorem sourcesAhead_lt (hcurrent : state.crossSafe = some head)
    (hrecorded : state.sources.get? source.number = some source)
    (hhigher : head.source.number < source.number) :
    ({ state with crossSafe := some ⟨source, head.derived⟩ } : Ledger).sourcesAhead <
      state.sourcesAhead := by
  have hahead : source.number ∈ state.sourceNumbersAhead := by
    refine mem_sourceNumbersAhead.mpr ⟨⟨source, hrecorded⟩, fun other hother => ?_⟩
    rw [hcurrent] at hother
    cases hother
    exact hhigher
  refine (nears_source hcurrent hhigher).sourcesAhead_lt hahead fun hmem => ?_
  exact UInt64.lt_irrefl _ ((mem_sourceNumbersAhead.mp hmem).2 ⟨source, head.derived⟩ rfl)

end Ledger

end CrossSafety
