import Mathlib.Data.List.Chain
import CrossSafety.Proofs.Chain.Perform

/-!
# Tables of linked blocks

An index keeps blocks by their numbers, each one next to the block below it. It only ever grows at
the top and is only ever cut from there, so the relation between neighbours is kept by checking the
last value alone.
-/
namespace CrossSafety

namespace Table

variable {α : Type} {table : Table UInt64 α} {block : α → BlockRef} {next : α → α → Prop}

/-- Values are kept by the numbers of their blocks, which have successors, and every value is `next`
to the one below it. -/
structure Linked (table : Table UInt64 α) (block : α → BlockRef) (next : α → α → Prop) : Prop where
  keyed : ∀ number value, table.get? number = some value →
    (block value).number = number ∧ number < maxNumber
  chained : table.values.IsChain next

theorem Linked.empty : Linked (Table.empty : Table UInt64 α) block next :=
  ⟨fun _ _ hget => (nomatch hget), .nil⟩

/-- The last value is the one with the highest number. -/
theorem Linked.le_last (h : table.Linked block next) {last : α} (hlast : table.last? = some last)
    {number : UInt64} {value : α} (hget : table.get? number = some value) :
    number ≤ (block last).number := by
  obtain ⟨key, hkey, hmax⟩ := last?_eq_some.mp hlast
  rw [(h.keyed key last hkey).1]
  exact hmax number value hget

theorem Linked.get?_last (h : table.Linked block next) {last : α} (hlast : table.last? = some last) :
    table.get? (block last).number = some last := by
  obtain ⟨key, hkey, -⟩ := last?_eq_some.mp hlast
  rwa [(h.keyed key last hkey).1]

theorem Linked.exists_last {number : UInt64} {value : α} (hget : table.get? number = some value) :
    ∃ last, table.last? = some last := by
  cases hlast : table.last? with
  | none =>
    rw [last?_eq_none.mp hlast] at hget
    cases hget
  | some last => exact ⟨last, rfl⟩

/-- The number behind that of the last value is free and above all others. -/
theorem Linked.lt_of_follows (h : table.Linked block next) (value : α)
    (hfollows : ∀ last, table.last? = some last → Ledger.follows (block value) (block last))
    {number : UInt64} {other : α} (hget : table.get? number = some other) :
    number < (block value).number := by
  obtain ⟨last, hlast⟩ := exists_last hget
  have hle := UInt64.le_iff_toNat_le.mp (h.le_last hlast hget)
  have hmax := (h.keyed _ _ (h.get?_last hlast)).2
  rw [(hfollows last hlast).1, UInt64.lt_iff_toNat_lt, toNat_succ_of_lt_max hmax]
  exact Nat.lt_succ_of_le hle

theorem Linked.get?_of_follows (h : table.Linked block next) (value : α)
    (hfollows : ∀ last, table.last? = some last → Ledger.follows (block value) (block last)) :
    table.get? (block value).number = none := by
  cases hget : table.get? (block value).number with
  | none => rfl
  | some other => exact absurd (h.lt_of_follows value hfollows hget) (UInt64.lt_irrefl _)

/-- A value whose block follows the last one goes on top. -/
theorem Linked.push (h : table.Linked block next) (value : α)
    (hmax : (block value).number < maxNumber)
    (hfollows : ∀ last, table.last? = some last → Ledger.follows (block value) (block last))
    (hnext : ∀ last, table.last? = some last → next last value) :
    (table.insert (block value).number value).Linked block next where
  keyed number other hget := by
    by_cases heq : number = (block value).number
    · subst heq
      rw [get?_insert_self] at hget
      cases hget
      exact ⟨rfl, hmax⟩
    · rw [get?_insert_of_ne heq] at hget
      exact h.keyed number other hget
  chained := by
    rw [values_insert_top fun number other hget =>
      UInt64.lt_iff_toNat_lt.mp (h.lt_of_follows value hfollows hget)]
    refine h.chained.append (.singleton value) fun last hlast top htop => ?_
    cases htop
    exact hnext last (last?_eq_getLast?.trans hlast)

theorem Linked.last?_push (h : table.Linked block next) (value : α)
    (hfollows : ∀ last, table.last? = some last → Ledger.follows (block value) (block last)) :
    (table.insert (block value).number value).last? = some value := by
  rw [last?_eq_getLast?, values_insert_top fun number other hget =>
    UInt64.lt_iff_toNat_lt.mp (h.lt_of_follows value hfollows hget), List.getLast?_concat]

/-- An empty index takes any first value, and one that is there already stays. -/
theorem Linked.insertNew (h : table.Linked block next) (value : α)
    (hmax : (block value).number < maxNumber)
    (hempty : table.get? (block value).number = none → table.isEmpty = true) :
    (table.insertNew (block value).number value).Linked block next := by
  cases hget : table.get? (block value).number with
  | some found => rwa [insertNew_of_some hget]
  | none =>
    have hlast : table.last? = none := last?_eq_none.mpr (isEmpty_iff.mp (hempty hget))
    rw [insertNew_of_none hget]
    refine h.push value hmax (fun last hsome => ?_) fun last hsome => ?_ <;> rw [hlast] at hsome <;>
      cases hsome

/-- Values at neighbouring numbers are next to each other. -/
theorem Linked.neighbours (h : table.Linked block next) {number : UInt64} {below above : α}
    (hbelow : table.get? number = some below) (habove : table.get? (number + 1) = some above) :
    next below above := by
  have hsucc := toNat_succ_of_lt_max (h.keyed number below hbelow).2
  obtain ⟨lower, higher, hsplit⟩ := List.append_of_mem (mem_toList.mpr hbelow)
  have hascending := table.toList_ascending
  have hmem := mem_toList.mpr habove
  have hchained := h.chained
  rw [values, hsplit, List.map_append, List.map_cons] at hchained
  rw [hsplit] at hascending hmem
  obtain ⟨-, hhigher, hlower⟩ := List.pairwise_append.mp hascending
  obtain ⟨hrest, hsorted⟩ := List.pairwise_cons.mp hhigher
  have hinside : (number + 1, above) ∈ higher := by
    rcases List.mem_append.mp hmem with hmem | hmem
    · have hlt : (number + 1).toNat < number.toNat := hlower _ hmem _ List.mem_cons_self
      omega
    · rcases List.mem_cons.mp hmem with heq | hmem
      · have hsame : (number + 1).toNat = number.toNat := congrArg (·.1.toNat) heq
        omega
      · exact hmem
  cases higher with
  | nil => exact absurd hinside List.not_mem_nil
  | cons first rest =>
    -- nothing lies between the two numbers
    have hfirst : first = (number + 1, above) := by
      rcases List.mem_cons.mp hinside with heq | hmem
      · exact heq.symm
      · have hlow : number.toNat < first.1.toNat := hrest first List.mem_cons_self
        have hhigh : first.1.toNat < (number + 1).toNat := (List.pairwise_cons.mp hsorted).1 _ hmem
        omega
    subst hfirst
    have htail := (List.isChain_append.mp hchained).2.1
    exact (List.isChain_cons_cons.mp htail).1

/-- Below the last value every number is followed by another one. -/
theorem Linked.exists_next (h : table.Linked block next)
    (hnext : ∀ below above, next below above → Ledger.follows (block above) (block below))
    {number : UInt64} {value last : α} (hget : table.get? number = some value)
    (hlast : table.last? = some last) (hlt : number < (block last).number) :
    ∃ above, table.get? (number + 1) = some above := by
  obtain ⟨lower, higher, hsplit⟩ := List.append_of_mem (mem_toList.mpr hget)
  have hchained := h.chained
  rw [values, hsplit, List.map_append, List.map_cons] at hchained
  cases higher with
  | nil =>
    rw [last?_eq_getLast?, values, hsplit, List.map_append, List.map_cons, List.map_nil,
      List.getLast?_concat] at hlast
    cases hlast
    rw [(h.keyed number value hget).1] at hlt
    exact absurd hlt (UInt64.lt_irrefl _)
  | cons first rest =>
    obtain ⟨key, above⟩ := first
    have habove : table.get? key = some above := mem_toList.mp (by rw [hsplit]; simp)
    have hfollows := hnext _ _ (List.isChain_cons_cons.mp (List.isChain_append.mp hchained).2.1).1
    have hkey : key = number + 1 := by
      rw [← (h.keyed key above habove).1, ← (h.keyed number value hget).1]
      exact hfollows.1
    exact ⟨above, hkey ▸ habove⟩

/-- No number is left out between two values. -/
theorem Linked.exists_between (h : table.Linked block next)
    (hnext : ∀ below above, next below above → Ledger.follows (block above) (block below))
    {low number : UInt64} {value last : α} (hget : table.get? low = some value)
    (hlast : table.last? = some last) (hlow : low ≤ number) (hhigh : number ≤ (block last).number) :
    ∃ found, table.get? number = some found := by
  obtain ⟨distance, hdistance⟩ := Nat.exists_eq_add_of_le (UInt64.le_iff_toNat_le.mp hlow)
  induction distance generalizing number with
  | zero =>
    obtain rfl : number = low := UInt64.toNat_inj.mp hdistance
    exact ⟨value, hget⟩
  | succ distance ih =>
    have hne : number ≠ 0 := by
      rintro rfl
      rw [UInt64.toNat_zero] at hdistance
      omega
    have hpred := toNat_pred hne
    have hlt : number - 1 < (block last).number := by
      rw [UInt64.lt_iff_toNat_lt]
      rw [UInt64.le_iff_toNat_le] at hhigh
      omega
    obtain ⟨below, hbelow⟩ := @ih (number - 1) (UInt64.le_iff_toNat_le.mpr (by omega))
      (UInt64.le_of_lt hlt) (by omega)
    have hsucc := h.exists_next hnext hbelow hlast hlt
    rwa [UInt64.sub_add_cancel] at hsucc

theorem Linked.below (h : table.Linked block next) (number : UInt64) :
    (table.below number).Linked block next where
  keyed key value hget := h.keyed key value (get?_of_below hget)
  chained := h.chained.prefix values_below_prefix

end Table

end CrossSafety
