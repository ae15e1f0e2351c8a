import CrossSafety.Safety.Store
import CrossSafety.Table

/-!
# Cascading invalidation

Invalidating a local-safe block drops it with all later blocks of its chain, so the blocks of
other chains that execute one of its messages have to go as well, and so on. Each block that is
dropped lies below all blocks of its chain that were dropped before, which is why the cascade
ends: `Floors.room` counts the blocks that may still be dropped.
-/
namespace CrossSafety

/-- The number of the lowest block that was dropped, by chain. -/
abbrev Floors := Table ChainId UInt64

namespace Floors

/-- Whether a block was dropped. -/
def cover (floors : Floors) (chain : ChainId) (number : UInt64) : Bool :=
  (floors.get? chain).any fun floor => floor ≤ number

/-- How many block numbers the floors in a list leave dropped. -/
def dropped : List (ChainId × UInt64) → Nat
  | [] => 0
  | entry :: rest => UInt64.size - entry.2.toNat + dropped rest

/-- How many pairs of a chain and a block number are not dropped. -/
def room (floors : Floors) : Nat := UInt64.size * UInt64.size - dropped floors.entries

theorem length_le_of_descending {entries : List (ChainId × UInt64)} {n : Nat}
    (sorted : entries.Pairwise Table.Above) (below : ∀ e ∈ entries, Numbered.number e.1 < n) :
    entries.length ≤ n := by
  induction entries generalizing n with
  | nil => exact Nat.zero_le n
  | cons head rest ih =>
    have fewer : rest.length ≤ Numbered.number head.1 :=
      ih sorted.of_cons (List.pairwise_cons.mp sorted).1
    have := below head List.mem_cons_self
    simp only [List.length_cons]
    omega

theorem dropped_le (entries : List (ChainId × UInt64)) :
    dropped entries ≤ entries.length * UInt64.size := by
  induction entries with
  | nil => simp [dropped]
  | cons head rest ih =>
    simp only [dropped, List.length_cons, Nat.add_mul] at ih ⊢
    omega

theorem dropped_le_size (floors : Floors) :
    dropped floors.entries ≤ UInt64.size * UInt64.size :=
  Nat.le_trans (dropped_le _) (Nat.mul_le_mul_right _
    (length_le_of_descending floors.descending fun e _ => UInt64.toNat_lt e.1))

theorem dropped_place {chain : ChainId} {number : UInt64} {entries : List (ChainId × UInt64)}
    (lower : ∀ floor, Table.lookup chain entries = some floor → number < floor) :
    dropped entries < dropped (Table.place chain number entries) := by
  have small : number.toNat < UInt64.size := UInt64.toNat_lt number
  induction entries with
  | nil =>
    simp only [Table.place, dropped]
    omega
  | cons head rest ih =>
    obtain ⟨k, v⟩ := head
    unfold Table.place
    simp only [Table.lookup] at lower
    split
    · rename_i above
      simp only [above, if_true] at lower
      have := ih lower
      simp only [dropped] at this ⊢
      omega
    · rename_i notAbove
      split
      · rename_i same
        have less : number.toNat < v.toNat :=
          UInt64.lt_iff_toNat_lt.mp (lower v (by simp [same]))
        have := UInt64.toNat_lt v
        simp only [dropped]
        simp only [UInt64.size] at *
        omega
      · simp only [dropped]
        omega

/-- Dropping a block that was not dropped before leaves less room. -/
theorem room_insert_lt {floors : Floors} {chain : ChainId} {number : UInt64}
    (fresh : ¬floors.cover chain number = true) :
    room (floors.insert chain number) < room floors := by
  have more : dropped floors.entries < dropped (floors.insert chain number).entries := by
    refine dropped_place fun floor at_ => ?_
    simp only [cover, Table.get?, at_, Option.any_some, decide_eq_true_eq] at fresh
    exact UInt64.not_le.mp fresh
  have := dropped_le_size (floors.insert chain number)
  unfold room
  omega

end Floors

namespace SafetyStore

variable {σ : Type}

/-- Invalidates blocks, each followed by the blocks that depend on it, unless they were dropped
already. Gives the blocks that were invalidated, in order. -/
def cascade (store : SafetyStore σ) (floors : Floors) :
    List Dependent → Promotion σ (List Dependent)
  | [] => pure []
  | next :: rest =>
    if _fresh : floors.cover next.chain next.block.derived.number then cascade store floors rest
    else do
      let block := next.block.derived.id
      let dependents ← store.check fun view =>
        .require (.dependents next.chain block) (view.dependents next.chain block)
      write (store.invalidate next.chain next.block)
      let later ← cascade store (floors.insert next.chain next.block.derived.number)
        (dependents ++ rest)
      return next :: later
termination_by blocks => (floors.room, blocks.length)
decreasing_by
  · exact Prod.Lex.right _ (Nat.lt_succ_self _)
  · exact Prod.Lex.left _ _ (Floors.room_insert_lt _fresh)

end SafetyStore

end CrossSafety
