import CrossSafety.Proofs.Chain.Lookup
import CrossSafety.Proofs.Chain.Reopen

/-!
# What a write keeps

Sealed blocks, their logs and cross-safe records stay when a chain grows, when its cross-safe head
moves up, and below a block that is invalidated above the head. So does the block that comes next
to the cross-safe head, until it is cross-safe itself.
-/
namespace CrossSafety

namespace Ledger

variable {state after : Ledger}

def IsCrossSafe (state : Ledger) (block : BlockId) : Prop :=
  ∃ record, state.crossDerived.get? block.number = some record ∧ record.derived.hash = block.hash

/-- Whether a block is the local-safe child of the cross-safe head. -/
def IsNext (state : Ledger) (block : BlockId) : Prop :=
  ∃ head next, state.crossSafe = some head ∧
    state.localDerived.get? (head.derived.number + 1) = some next ∧ next.derived.id = block ∧
    next.derived.parentHash = head.derived.hash

/-- Whether a block is cross-safe or next. -/
def Settled (state : Ledger) (block : BlockId) : Prop := state.IsCrossSafe block ∨ state.IsNext block

/-- Local-safe records have their own numbers, and the cross-safe head is set with the first
cross-safe record and stays the highest one. -/
structure Headed (state : Ledger) : Prop where
  localKeyed : ∀ number pair, state.localDerived.get? number = some pair →
    pair.derived.number = number
  unset : state.crossSafe = none → ∀ number, state.crossDerived.get? number = none
  head : ∀ head, state.crossSafe = some head → head.derived.number < maxNumber ∧
    ∃ record, state.crossDerived.get? head.derived.number = some record
  top : ∀ head number record, state.crossSafe = some head →
    state.crossDerived.get? number = some record → number ≤ head.derived.number

/-- Everything up to some numbers is kept. -/
structure Keeps (state after : Ledger) (kept : UInt64 → Prop) : Prop where
  blocks : ∀ number sealed, kept number → state.blocks.get? number = some sealed →
    after.blocks.get? number = some sealed
  cross : ∀ number record, state.crossDerived.get? number = some record →
    after.crossDerived.get? number = some record
  settled : ∀ block, kept block.number → state.Settled block → after.Settled block

theorem Headed.lt_next (h : state.Headed) {head : DerivedPair} (hhead : state.crossSafe = some head) :
    head.derived.number < head.derived.number + 1 := by
  rw [UInt64.lt_iff_toNat_lt, toNat_succ_of_lt_max (h.head head hhead).1]
  exact Nat.lt_succ_self _

theorem Headed.get?_next (h : state.Headed) {head : DerivedPair}
    (hhead : state.crossSafe = some head) :
    state.crossDerived.get? (head.derived.number + 1) = none := by
  cases hget : state.crossDerived.get? (head.derived.number + 1) with
  | none => rfl
  | some record =>
    exact absurd (h.lt_next hhead) (UInt64.not_lt.mpr (h.top head _ record hhead hget))

theorem empty_headed : empty.Headed where
  localKeyed _ _ hget := nomatch hget
  unset _ _ := rfl
  head _ hhead := nomatch hhead
  top _ _ _ hhead := nomatch hhead

theorem Headed.exists_head (h : state.Headed) {number : UInt64} {record : DerivedPair}
    (hget : state.crossDerived.get? number = some record) : ∃ head, state.crossSafe = some head := by
  cases hhead : state.crossSafe with
  | none =>
    rw [h.unset hhead] at hget
    cases hget
  | some head => exact ⟨head, rfl⟩

theorem IsNext.number_eq (h : state.Headed) {block : BlockId} (hnext : state.IsNext block)
    {head : DerivedPair} (hhead : state.crossSafe = some head) :
    block.number = head.derived.number + 1 := by
  obtain ⟨head', next, hhead', hget, rfl, -⟩ := hnext
  rw [hhead] at hhead'
  cases hhead'
  exact h.localKeyed _ _ hget

theorem IsNext.sourceOf (h : state.Headed) {block : BlockId} (hnext : state.IsNext block) :
    state.sourceOf block = .error .futureData := by
  obtain ⟨head, _, hhead, -⟩ := id hnext
  have hnumber := hnext.number_eq h hhead
  rw [Ledger.sourceOf, hnumber, h.get?_next hhead, hhead]
  exact if_neg (UInt64.not_le.mpr (h.lt_next hhead))

theorem IsNext.candidate {block : BlockId} (hnext : state.IsNext block) :
    (∀ pair, state.candidate = .ok pair → pair.derived.id = block) ∧
      state.candidate ≠ .error .conflict := by
  obtain ⟨head, next, hhead, hget, rfl, hparent⟩ := hnext
  unfold Ledger.candidate
  cases state.invalidated with
  | some invalidated => exact ⟨fun _ hpair => (nomatch hpair), fun herror => (nomatch herror)⟩
  | none =>
    simp only [hhead, hget, hparent, if_true]
    refine ⟨?_, fun herror => (nomatch herror)⟩
    rintro _ ⟨⟩
    rfl

/-- The candidate of a chain may become its cross-safe head. -/
theorem allows_candidate (h : state.Headed) {pair : DerivedPair}
    (hcandidate : state.candidate = .ok pair) :
    state.Allows (.setCrossSafe pair) (.setCrossSafe pair) := by
  obtain ⟨-, head, next, hhead, hget, hparent, rfl⟩ := candidate_eq_ok.mp hcandidate
  have hnumber := h.localKeyed _ _ hget
  have hne : next.derived.number ≠ head.derived.number := by
    rw [hnumber]
    exact Ne.symm (UInt64.ne_of_lt (h.lt_next hhead))
  have hsource : head.source.number ≤
      (if next.source.number ≤ head.source.number then head.source else next.source).number := by
    split
    · exact UInt64.le_refl _
    · rename_i hlt
      exact UInt64.le_of_lt (UInt64.not_le.mp hlt)
  have hget' : state.localDerived.get? next.derived.number = some next := by rwa [hnumber]
  exact .setCrossSafe _ next head hget' rfl hhead (.inr ⟨hne, hnumber, hparent⟩) hsource

theorem get?_setCrossSafe (h : state.Headed) {pair : DerivedPair}
    (hcandidate : state.candidate = .ok pair) :
    (state.apply (.setCrossSafe pair)).crossDerived.get? pair.derived.number = some pair := by
  obtain ⟨-, head, next, hhead, hget, -, rfl⟩ := candidate_eq_ok.mp hcandidate
  change (state.crossDerived.insertNew _ _).get? next.derived.number = _
  rw [Table.get?_insertNew_self, h.localKeyed _ _ hget, h.get?_next hhead]
  rfl

/-! ## Changes that leave the cross-safe head where it is -/

theorem Settled.mono {block : BlockId} (h : state.Settled block)
    (hcross : ∀ number record, state.crossDerived.get? number = some record →
      after.crossDerived.get? number = some record)
    (hhead : after.crossSafe = state.crossSafe)
    (hlocal : ∀ number pair, state.localDerived.get? number = some pair →
      after.localDerived.get? number = some pair) : after.Settled block := by
  rcases h with ⟨record, hget, hhash⟩ | ⟨head, next, hcrossSafe, hget, hid, hparent⟩
  · exact .inl ⟨record, hcross _ _ hget, hhash⟩
  · exact .inr ⟨head, next, hhead.trans hcrossSafe, hlocal _ _ hget, hid, hparent⟩

/-- A change that only adds sealed blocks and local-safe records keeps everything. -/
theorem Keeps.of_grown {kept : UInt64 → Prop}
    (hblocks : ∀ number sealed, state.blocks.get? number = some sealed →
      after.blocks.get? number = some sealed)
    (hcross : after.crossDerived = state.crossDerived) (hhead : after.crossSafe = state.crossSafe)
    (hlocal : ∀ number pair, state.localDerived.get? number = some pair →
      after.localDerived.get? number = some pair) : state.Keeps after kept where
  blocks number sealed _ hget := hblocks number sealed hget
  cross number record hget := by rwa [hcross]
  settled block _ hsettled :=
    hsettled.mono (fun number record hget => by rwa [hcross]) hhead hlocal

theorem get?_insert_of_none {α : Type} {table : Table UInt64 α} {key number : UInt64}
    {value other : α} (hnone : table.get? key = none) (hget : table.get? number = some other) :
    (table.insert key value).get? number = some other := by
  have hne : number ≠ key := by
    rintro rfl
    rw [hnone] at hget
    cases hget
  rwa [Table.get?_insert_of_ne hne]

theorem get?_insertNew_of_some {α : Type} {table : Table UInt64 α} {key number : UInt64}
    {value other : α} (hget : table.get? number = some other) :
    (table.insertNew key value).get? number = some other := by
  by_cases heq : number = key
  · subst heq
    rw [Table.get?_insertNew_self, hget, Option.getD_some]
  · rwa [Table.get?_insertNew_of_ne heq]

theorem get?_below_of_lt {α : Type} {table : Table UInt64 α} {key number : UInt64} {value : α}
    (hlt : key < number) (hget : table.get? key = some value) :
    (table.below number).get? key = some value :=
  (Table.get?_below.trans (if_pos (UInt64.lt_iff_toNat_lt.mp hlt))).trans hget

/-! ## A new cross-safe head -/

section CrossSafe

variable {pair known head : DerivedPair}

/-- A new cross-safe head is the old one, or was next. -/
theorem keeps_setCrossSafe (h : state.Headed) {kept : UInt64 → Prop}
    (hrecorded : state.localDerived.get? pair.derived.number = some known)
    (hhash : known.derived.hash = pair.derived.hash) (hcross : state.crossSafe = some head)
    (hnext : pair.derived.number = head.derived.number ∧
        pair.derived.hash = head.derived.hash ∨
      pair.derived.number ≠ head.derived.number ∧ follows pair.derived head.derived) :
    state.Keeps (state.apply (.setCrossSafe pair)) kept where
  blocks _ _ _ hget := hget
  cross _ _ hget := get?_insertNew_of_some hget
  settled := by
    rintro block - (⟨record, hget, hrecord⟩ | ⟨old, next, hold, hget, rfl, hparent⟩)
    · exact .inl ⟨record, get?_insertNew_of_some hget, hrecord⟩
    · rw [hcross] at hold
      cases hold
      rcases hnext with ⟨hnumber, hsame⟩ | ⟨-, hnumber, -⟩
      · exact .inr ⟨pair, next, rfl, hnumber ▸ hget, rfl, hsame ▸ hparent⟩
      · rw [hnumber, hget] at hrecorded
        cases hrecorded
        have hlocal := h.localKeyed _ _ hget
        refine .inl ⟨pair, ?_, hhash.symm⟩
        change (state.crossDerived.insertNew _ _).get? known.derived.number = _
        rw [hlocal, hnumber, Table.get?_insertNew_self, h.get?_next hcross, Option.getD_none]

theorem headed_setCrossSafe (h : state.Headed) (hmax : pair.derived.number < maxNumber)
    (hcross : state.crossSafe = some head)
    (hnext : pair.derived.number = head.derived.number ∧
        pair.derived.hash = head.derived.hash ∨
      pair.derived.number ≠ head.derived.number ∧ follows pair.derived head.derived) :
    (state.apply (.setCrossSafe pair)).Headed where
  localKeyed := h.localKeyed
  unset hnone := nomatch hnone
  head := by
    rintro _ ⟨⟩
    exact ⟨hmax, _, Table.get?_insertNew_self⟩
  top := by
    rintro _ number record ⟨⟩ hget
    change (state.crossDerived.insertNew _ _).get? number = _ at hget
    by_cases heq : number = pair.derived.number
    · exact heq ▸ UInt64.le_refl _
    · rw [Table.get?_insertNew_of_ne heq] at hget
      have hle := h.top head number record hcross hget
      rcases hnext with ⟨hnumber, -⟩ | ⟨-, hnumber, -⟩
      · exact hnumber ▸ hle
      · exact hnumber ▸ UInt64.le_of_lt (UInt64.lt_of_le_of_lt hle (h.lt_next hcross))

end CrossSafe

/-! ## Blocks that become invalid -/

section Invalidate

variable {derived : BlockRef}

theorem dropLocalSafeFrom_localDerived (number : UInt64) :
    (state.dropLocalSafeFrom number).localDerived = state.localDerived.below number := by
  unfold dropLocalSafeFrom
  dsimp only
  split <;> rfl

theorem apply_invalidate_localDerived :
    (state.apply (.invalidate derived)).localDerived = state.localDerived.below derived.number := by
  rw [apply_invalidate]
  dsimp only
  rw [dropLocalSafeFrom_localDerived]
  split <;> rfl

theorem Headed.lt_of_above (h : state.Headed)
    (habove : ∀ head, state.crossSafe = some head → head.derived.number < derived.number)
    {number : UInt64} {record : DerivedPair}
    (hget : state.crossDerived.get? number = some record) : number < derived.number := by
  obtain ⟨head, hhead⟩ := h.exists_head hget
  exact UInt64.lt_of_le_of_lt (h.top head number record hhead hget) (habove head hhead)

/-- Local-safe records above the cross-safe head take no cross-safe record with them. -/
theorem dropLocalSafeFrom_cross {number : UInt64}
    (hrecords : ∀ key record, state.crossDerived.get? key = some record → key < number)
    (habove : ∀ head, state.crossSafe = some head → head.derived.number < number) :
    (state.dropLocalSafeFrom number).crossSafe = state.crossSafe ∧
      ∀ key, (state.dropLocalSafeFrom number).crossDerived.get? key =
        state.crossDerived.get? key := by
  unfold dropLocalSafeFrom
  dsimp only
  split
  · rename_i hzero
    subst hzero
    refine ⟨?_, fun key => ?_⟩
    · cases hhead : state.crossSafe with
      | none => rfl
      | some head => exact absurd (habove head hhead) UInt64.not_lt_zero
    · cases hget : state.crossDerived.get? key with
      | none => rfl
      | some record => exact absurd (hrecords key record hget) UInt64.not_lt_zero
  · rename_i hne
    have hbefore : numberBefore number = number - 1 := if_neg hne
    have hsucc : number - 1 + 1 = number := UInt64.sub_add_cancel _ _
    unfold dropCrossSafeAbove
    rw [hbefore, hsucc]
    refine ⟨?_, fun key => ?_⟩
    · cases hhead : state.crossSafe with
      | none => rfl
      | some head =>
        refine if_neg (UInt64.not_lt.mpr ?_)
        have hlt := UInt64.lt_iff_toNat_lt.mp (habove head hhead)
        rw [UInt64.le_iff_toNat_le, toNat_pred hne]
        omega
    · refine Table.get?_below.trans ?_
      split
      · rfl
      · rename_i hnot
        cases hget : state.crossDerived.get? key with
        | none => rfl
        | some record =>
          exact absurd (UInt64.lt_iff_toNat_lt.mp (hrecords key record hget)) hnot

/-- A block above the cross-safe head takes no cross-safe block with it. -/
theorem apply_invalidate_cross (h : state.Headed)
    (habove : ∀ head, state.crossSafe = some head → head.derived.number < derived.number) :
    (state.apply (.invalidate derived)).crossSafe = state.crossSafe ∧
      ∀ number, (state.apply (.invalidate derived)).crossDerived.get? number =
        state.crossDerived.get? number := by
  rw [apply_invalidate]
  dsimp only
  split
  · refine dropLocalSafeFrom_cross (fun key record hget => ?_) habove
    exact h.lt_of_above habove hget
  · exact dropLocalSafeFrom_cross (fun _ _ hget => h.lt_of_above habove hget) habove

theorem headed_invalidate (h : state.Headed)
    (habove : ∀ head, state.crossSafe = some head → head.derived.number < derived.number) :
    (state.apply (.invalidate derived)).Headed := by
  obtain ⟨hcrossSafe, hcross⟩ := apply_invalidate_cross h habove
  refine ⟨fun number pair hget => ?_, fun hnone number => ?_, fun head hhead => ?_,
    fun head number record hhead hget => ?_⟩
  · rw [apply_invalidate_localDerived, Table.get?_below] at hget
    split at hget
    · exact h.localKeyed number pair hget
    · cases hget
  · rw [hcross]
    exact h.unset (hcrossSafe ▸ hnone) number
  · rw [hcross]
    exact h.head head (hcrossSafe ▸ hhead)
  · rw [hcross] at hget
    exact h.top head number record (hcrossSafe ▸ hhead) hget

/-- A block that is invalidated above the cross-safe head leaves what lies below it. -/
theorem keeps_invalidate (h : state.Headed)
    (habove : ∀ head, state.crossSafe = some head → head.derived.number < derived.number)
    {kept : UInt64 → Prop} (hkept : ∀ number, kept number → number < derived.number) :
    state.Keeps (state.apply (.invalidate derived)) kept := by
  obtain ⟨hcrossSafe, hcross⟩ := apply_invalidate_cross h habove
  refine ⟨fun number sealed hnumber hget => ?_, fun number record hget => by rwa [hcross],
    fun block hblock hsettled => ?_⟩
  · rw [apply_invalidate_blocks]
    split
    · exact get?_below_of_lt (hkept number hnumber) hget
    · exact hget
  · rcases hsettled with ⟨record, hget, hhash⟩ | ⟨head, next, hhead, hget, rfl, hparent⟩
    · exact .inl ⟨record, by rwa [hcross], hhash⟩
    · refine .inr ⟨head, next, hcrossSafe.trans hhead, ?_, rfl, hparent⟩
      have hlt : next.derived.number < derived.number := hkept _ hblock
      rw [h.localKeyed _ _ hget] at hlt
      rw [apply_invalidate_localDerived]
      exact get?_below_of_lt hlt hget

end Invalidate

end Ledger

/-! ## Writes -/

/-- Whether a write leaves some block numbers alone: a block that is invalidated lies above the
cross-safe head and above these numbers, and nothing is rewound. -/
def Operation.Spares (state : Ledger) (kept : UInt64 → Prop) : Operation → Prop
  | .setCrossSafe pair => pair.derived.number < maxNumber
  | .invalidate candidate =>
    (∀ head, state.crossSafe = some head →
      head.derived.number < candidate.derived.number) ∧
    ∀ number, kept number → number < candidate.derived.number
  | .rewindLocalUnsafe _ | .rewindCrossUnsafe _ | .rewindLocalSafe _ | .rewindCrossSafe _ => False
  | _ => True

def Operation.block? : Operation → Option BlockRef
  | .initialise anchor => some anchor.derived
  | .seal block _ => some block
  | .addDerived pair => some pair.derived
  | _ => none

namespace Ledger

variable {state : Ledger} {kept : UInt64 → Prop} {operation : Operation} {change : Change}

/-- All sealed and local-safe blocks of a chain are known. -/
structure Knows (state : Ledger) (known : BlockRef → Prop) : Prop where
  sealed : ∀ number sealed, state.blocks.get? number = some sealed → known sealed.block
  derived : ∀ number pair, state.localDerived.get? number = some pair → known pair.derived

theorem keeps_apply (h : state.Headed) (hspares : operation.Spares state kept)
    (hallows : state.Allows operation change) : state.Keeps (state.apply change) kept := by
  cases hallows with
  | initialise anchor fresh sealed unsealed source derived underived =>
    have hnone := Table.isEmpty_iff.mp fresh
    refine ⟨fun number known _ hget => get?_insertNew_of_some hget, fun number record hget => ?_,
      fun block _ hsettled => ?_⟩
    · rw [hnone] at hget
      cases hget
    · rcases hsettled with ⟨record, hget, -⟩ | ⟨head, next, hhead, -⟩
      · rw [hnone] at hget
        cases hget
      · obtain ⟨record, hget⟩ := (h.head head hhead).2
        rw [hnone] at hget
        cases hget
  | «seal» block fresh next =>
    refine .of_grown (fun number sealed hget => ?_) rfl rfl fun _ _ hget => hget
    cases hlast : state.latest? with
    | none =>
      rw [Table.last?_eq_none.mp hlast] at hget
      cases hget
    | some latest => exact get?_insert_of_none (next latest hlast).1 hget
  | addSource source new => exact .of_grown (fun _ _ hget => hget) rfl rfl fun _ _ hget => hget
  | addDerived pair fresh valid next source =>
    exact .of_grown (fun _ _ hget => hget) rfl rfl fun _ _ hget => get?_insert_of_none fresh hget
  | setCrossSafe pair known head recorded hash cross next source =>
    exact keeps_setCrossSafe h recorded hash cross next
  | invalidate candidate known recorded hash above parent =>
    exact keeps_invalidate h hspares.1 hspares.2
  | setCrossUnsafe block sealed known =>
    exact .of_grown (fun _ _ hget => hget) rfl rfl fun _ _ hget => hget
  | setFinalized block pair cross hash above =>
    exact .of_grown (fun _ _ hget => hget) rfl rfl fun _ _ hget => hget
  | rewindLocalUnsafe | rewindCrossUnsafe | rewindLocalSafe | rewindCrossSafe => exact hspares.elim

theorem headed_apply (h : state.Headed) (hrange : operation.InRange)
    (hspares : operation.Spares state kept) (hallows : state.Allows operation change) :
    (state.apply change).Headed := by
  cases hallows with
  | initialise anchor fresh sealed unsealed source derived underived =>
    have hnone := Table.isEmpty_iff.mp fresh
    refine ⟨fun number pair hget => ?_, fun hunset => (nomatch hunset), ?_, ?_⟩
    · change (state.localDerived.insertNew _ _).get? number = _ at hget
      by_cases heq : number = anchor.derived.number
      · subst heq
        rw [Table.get?_insertNew_self] at hget
        cases hold : state.localDerived.get? anchor.derived.number with
        | none =>
          rw [hold] at hget
          cases hget
          rfl
        | some old =>
          rw [hold] at hget
          cases hget
          exact h.localKeyed _ _ hold
      · rw [Table.get?_insertNew_of_ne heq] at hget
        exact h.localKeyed number pair hget
    · rintro _ ⟨⟩
      exact ⟨hrange, anchor, Table.get?_insert_self⟩
    · rintro _ number record ⟨⟩ hget
      change (state.crossDerived.insert _ _).get? number = _ at hget
      by_cases heq : number = anchor.derived.number
      · exact heq ▸ UInt64.le_refl _
      · rw [Table.get?_insert_of_ne heq, hnone] at hget
        cases hget
  | addDerived pair fresh valid next source =>
    refine ⟨fun number other hget => ?_, h.unset, h.head, h.top⟩
    change (state.localDerived.insert _ _).get? number = _ at hget
    by_cases heq : number = pair.derived.number
    · subst heq
      rw [Table.get?_insert_self] at hget
      cases hget
      rfl
    · rw [Table.get?_insert_of_ne heq] at hget
      exact h.localKeyed number other hget
  | setCrossSafe pair known head recorded hash cross next source =>
    exact headed_setCrossSafe h hspares cross next
  | invalidate candidate known recorded hash above parent =>
    exact headed_invalidate h hspares.1
  | «seal» | addSource | setCrossUnsafe | setFinalized =>
    exact ⟨h.localKeyed, h.unset, h.head, h.top⟩
  | rewindLocalUnsafe | rewindCrossUnsafe | rewindLocalSafe | rewindCrossSafe => exact hspares.elim

/-- Indexes that have no other blocks than known ones have known ones only. -/
theorem Knows.mono {known : BlockRef → Prop} (h : state.Knows known) {after : Ledger}
    (hblocks : ∀ number sealed, after.blocks.get? number = some sealed →
      state.blocks.get? number = some sealed)
    (hlocal : ∀ number pair, after.localDerived.get? number = some pair →
      state.localDerived.get? number = some pair) : after.Knows known :=
  ⟨fun number sealed hget => h.sealed number sealed (hblocks number sealed hget),
    fun number pair hget => h.derived number pair (hlocal number pair hget)⟩

theorem Knows.dropBlocksAbove {known : BlockRef → Prop} (h : state.Knows known) (number : UInt64) :
    (state.dropBlocksAbove number).Knows known :=
  h.mono (fun _ _ hget => Table.get?_of_below hget) fun _ _ hget => hget

theorem knows_apply {known : BlockRef → Prop} (h : state.Knows known)
    (hblock : ∀ block, operation.block? = some block → known block)
    (hallows : state.Allows operation change) : (state.apply change).Knows known := by
  cases hallows with
  | initialise anchor fresh sealed unsealed source derived underived =>
    have hanchor : known anchor.derived := hblock _ rfl
    refine ⟨fun number block hget => ?_, fun number pair hget => ?_⟩
    · rcases Table.eq_or_get?_of_insertNew hget with rfl | hget
      · exact hanchor
      · exact h.sealed number block hget
    · rcases Table.eq_or_get?_of_insertNew hget with rfl | hget
      · exact hanchor
      · exact h.derived number pair hget
  | «seal» block fresh next =>
    refine ⟨fun number sealed hget => ?_, h.derived⟩
    rcases Table.eq_or_get?_of_insert hget with rfl | hget
    · exact hblock block rfl
    · exact h.sealed number sealed hget
  | addDerived pair fresh valid next source =>
    refine ⟨h.sealed, fun number other hget => ?_⟩
    rcases Table.eq_or_get?_of_insert hget with rfl | hget
    · exact hblock _ rfl
    · exact h.derived number other hget
  | invalidate candidate recorded hash above parent =>
    refine h.mono (fun number sealed hget => ?_) fun number pair hget => ?_
    · rw [apply_invalidate_blocks] at hget
      split at hget
      · exact Table.get?_of_below hget
      · exact hget
    · rw [apply_invalidate_localDerived] at hget
      exact Table.get?_of_below hget
  | rewindLocalUnsafe target sealed above recorded => exact h.dropBlocksAbove target.number
  | rewindLocalSafe target checked =>
    refine h.mono (fun number sealed hget => ?_) fun number pair hget => ?_
    · have hblocks : (state.apply (.rewindLocalSafe target.number)).blocks = state.blocks :=
        dropLocalSafeFrom_blocks (target.number + 1)
      exact hblocks ▸ hget
    · have hlocal : (state.apply (.rewindLocalSafe target.number)).localDerived =
          state.localDerived.below (target.number + 1) :=
        dropLocalSafeFrom_localDerived (target.number + 1)
      exact Table.get?_of_below (hlocal ▸ hget)
  | addSource | setCrossSafe | setCrossUnsafe | setFinalized | rewindCrossUnsafe
  | rewindCrossSafe => exact ⟨h.sealed, h.derived⟩

/-- Whether no cross-safe record lies below a number. The first record is that of the anchor. -/
def IsFirst (state : Ledger) (number : UInt64) : Prop :=
  ∀ lower record, state.crossDerived.get? lower = some record → number ≤ lower

/-- Setting the cross-safe head leaves the records and the first one, or adds one at the head. -/
theorem Headed.insertNew_recorded (h : state.Headed) {head pair : DerivedPair}
    (hhead : state.crossSafe = some head) (hle : head.derived.number ≤ pair.derived.number)
    {number : UInt64} {record : DerivedPair}
    (hget : (state.apply (.setCrossSafe pair)).crossDerived.get? number = some record) :
    (state.crossDerived.get? number = some record ∧
        (state.IsFirst number → (state.apply (.setCrossSafe pair)).IsFirst number)) ∨
      (pair = record ∧ number = pair.derived.number ∧ state.crossDerived.get? number = none) := by
  change (state.crossDerived.insertNew _ _).get? number = _ at hget
  have hfirst (hold : state.crossDerived.get? number = some record)
      (hfirst : state.IsFirst number) :
      (state.apply (.setCrossSafe pair)).IsFirst number := by
    intro lower found hfound
    rcases Decidable.em (lower = pair.derived.number) with rfl | hne
    · exact UInt64.le_trans (h.top head number record hhead hold) hle
    · exact hfirst lower found ((Table.get?_insertNew_of_ne hne).symm.trans hfound)
  by_cases heq : number = pair.derived.number
  · subst heq
    rw [Table.get?_insertNew_self] at hget
    cases hbefore : state.crossDerived.get? pair.derived.number with
    | none =>
      rw [hbefore] at hget
      cases hget
      exact .inr ⟨rfl, rfl, rfl⟩
    | some before =>
      rw [hbefore] at hget
      cases hget
      exact .inl ⟨rfl, hfirst hbefore⟩
  · rw [Table.get?_insertNew_of_ne heq] at hget
    exact .inl ⟨hget, hfirst hget⟩

/-- A cross-safe record after a write was there before, is that of the anchor, or is new above the
old head. -/
theorem apply_recorded (h : state.Headed) (hspares : operation.Spares state kept)
    (hallows : state.Allows operation change) {number : UInt64} {record : DerivedPair}
    (hget : (state.apply change).crossDerived.get? number = some record) :
    (state.crossDerived.get? number = some record ∧
        (state.IsFirst number → (state.apply change).IsFirst number)) ∨
      (state.apply change).IsFirst number ∨
      (operation = .setCrossSafe record ∧ number = record.derived.number ∧
        state.crossDerived.get? number = none) := by
  cases hallows with
  | initialise anchor fresh sealed unsealed source derived underived =>
    have hnone := Table.isEmpty_iff.mp fresh
    have hanchor {other : UInt64} {found : DerivedPair}
        (hfound : (state.crossDerived.insert anchor.derived.number anchor).get? other = some found) :
        other = anchor.derived.number := by
      by_cases heq : other = anchor.derived.number
      · exact heq
      · rw [Table.get?_insert_of_ne heq, hnone] at hfound
        cases hfound
    refine .inr (.inl fun lower found hfound => ?_)
    exact hanchor hget ▸ hanchor hfound ▸ UInt64.le_refl _
  | setCrossSafe pair known head recorded hash cross next source =>
    have hhead : head.derived.number ≤ pair.derived.number := by
      rcases next with ⟨hnumber, -⟩ | ⟨-, hnumber, -⟩
      · exact hnumber ▸ UInt64.le_refl _
      · exact hnumber ▸ UInt64.le_of_lt (h.lt_next cross)
    rcases h.insertNew_recorded cross hhead hget with hold | ⟨rfl, rfl, hnone⟩
    · exact .inl hold
    · exact .inr (.inr ⟨rfl, rfl, hnone⟩)
  | invalidate candidate known recorded hash above parent =>
    have hcross := (apply_invalidate_cross h hspares.1).2
    refine .inl ⟨(hcross number).symm.trans hget, fun hfirst lower found hfound => ?_⟩
    exact hfirst lower found ((hcross lower).symm.trans hfound)
  | «seal» | addSource | addDerived | setCrossUnsafe | setFinalized => exact .inl ⟨hget, id⟩
  | rewindLocalUnsafe | rewindCrossUnsafe | rewindLocalSafe | rewindCrossSafe => exact hspares.elim

end Ledger

namespace ChainStore

variable {store : ChainStore} {logs : LogList} {kept : UInt64 → Prop} {operation : Operation}

/-- A chain keeps everything up to some numbers: what the indexes say and the logs that are
found. -/
structure Keeps (store after : ChainStore) (kept : UInt64 → Prop) : Prop where
  ledger : store.state.Keeps after.state kept
  contains : ∀ query block, kept query.blockNumber → store.contains query = .ok block →
    after.contains query = .ok block

/-- A log is found if it is on the list and its block is sealed with the time that is asked for. -/
theorem Aligned.contains_eq_ok (h : store.Aligned logs) {query : LogQuery} {block : BlockSeal} :
    store.contains query = .ok block ↔
      ∃ sealed, store.state.blocks.get? query.blockNumber = some sealed ∧
        sealed.block.timestamp = query.timestamp ∧ query.logIndex < sealed.logCount ∧
        ⟨⟨query.blockNumber, query.logIndex⟩, query.hash.short⟩ ∈ logs ∧
        sealed.block.toSeal = block := by
  rw [ChainStore.contains_eq_ok]
  refine exists_congr fun sealed => ?_
  rw [Ledger.blockOfQuery_eq_ok, h.represents.contains_eq, Except.ok.injEq, decide_eq_true_iff]
  constructor
  · rintro ⟨⟨-, hget, htime⟩, hinside, hmem, hblock⟩
    exact ⟨hget, htime, hinside, hmem, hblock⟩
  · rintro ⟨hget, htime, hinside, hmem, hblock⟩
    refine ⟨⟨?_, hget, htime⟩, hinside, hmem, hblock⟩
    cases hlast : store.state.latest? with
    | none =>
      rw [Table.last?_eq_none.mp hlast] at hget
      cases hget
    | some latest =>
      have hle := Ledger.latestNumber_le h.keyed hget
      rw [Ledger.latestNumber, hlast] at hle
      exact ⟨latest, rfl, hle⟩

theorem mem_logsAfter (hspares : operation.Spares store.state kept) {entry : LogEntry}
    (hmem : entry ∈ logs) (hkept : kept entry.position.block) :
    entry ∈ store.state.logsAfter logs operation := by
  cases operation with
  | «seal» block fresh => exact List.mem_append_left _ hmem
  | invalidate candidate =>
    unfold Ledger.logsAfter
    dsimp only
    split
    · rename_i hdrops
      refine LogList.mem_rewind.mpr ⟨hmem, ?_⟩
      have hparent : candidate.derived.parentId.number = candidate.derived.number - 1 :=
        if_neg hdrops.1
      have hlt := UInt64.lt_iff_toNat_lt.mp (hspares.2 _ hkept)
      rw [hparent, UInt64.le_iff_toNat_le, toNat_pred hdrops.1]
      omega
    · exact hmem
  | rewindLocalUnsafe => exact hspares.elim
  | _ => exact hmem

/-- A store that is sound, has its head on top and holds known blocks only. -/
structure Steady (store : ChainStore) (known : BlockRef → Prop) : Prop where
  aligned : ∃ logs, store.Aligned logs
  headed : store.state.Headed
  knows : store.state.Knows known

theorem empty_steady (known : BlockRef → Prop) : empty.Steady known where
  aligned := sound_empty.aligned
  headed := Ledger.empty_headed
  knows := ⟨fun _ _ hget => (nomatch hget), fun _ _ hget => (nomatch hget)⟩

theorem Keeps.refl (store : ChainStore) (kept : UInt64 → Prop) : store.Keeps store kept where
  ledger := ⟨fun _ _ _ hget => hget, fun _ _ hget => hget, fun _ _ hsettled => hsettled⟩
  contains _ _ _ hfound := hfound

/-- The indexes after a write are the old ones or those after the one change that was allowed. -/
theorem Steady.perform_state {known : BlockRef → Prop} (h : store.Steady known)
    (operation : Operation) : (store.perform operation).store.state = store.state ∨
      ∃ change, store.state.Allows operation change ∧
        (store.perform operation).store.state = store.state.apply change := by
  obtain ⟨logs, haligned⟩ := h.aligned
  rcases perform_cases haligned.listed operation with ⟨kept, observed, result, -, hperform⟩ |
    ⟨change, hallows, kept, observed, -, hperform⟩
  · exact .inl (by rw [hperform])
  · exact .inr ⟨change, hallows, by rw [hperform]; rfl⟩

/-- A write that spares some numbers keeps everything there. -/
theorem Steady.keeps {known : BlockRef → Prop} (h : store.Steady known)
    (hrange : operation.InRange) (hspares : operation.Spares store.state kept) :
    store.Keeps (store.perform operation).store kept := by
  obtain ⟨logs, haligned⟩ := h.aligned
  have hcontains {after : LogList} (halign : (store.perform operation).store.Aligned after)
      (hledger : store.state.Keeps (store.perform operation).store.state kept)
      (hlogs : ∀ entry ∈ logs, kept entry.position.block → entry ∈ after) :
      store.Keeps (store.perform operation).store kept := by
    refine ⟨hledger, fun query block hkept hfound => ?_⟩
    obtain ⟨sealed, hget, htime, hinside, hmem, hblock⟩ := haligned.contains_eq_ok.mp hfound
    exact halign.contains_eq_ok.mpr ⟨sealed, hledger.blocks _ _ hkept hget, htime, hinside,
      hlogs _ hmem hkept, hblock⟩
  rcases perform_cases haligned.listed operation with hleaves | ⟨change, hmakes⟩
  · refine hcontains (haligned.of_leaves hleaves) ?_ fun _ hmem _ => hmem
    obtain ⟨_, _, _, -, hperform⟩ := hleaves
    rw [hperform]
    exact (Keeps.refl store kept).ledger
  · refine hcontains (haligned.of_makes hrange hmakes) ?_ fun _ => mem_logsAfter hspares
    obtain ⟨hallows, _, _, -, hperform⟩ := hmakes
    rw [hperform]
    exact Ledger.keeps_apply h.headed hspares hallows

theorem Steady.perform {known : BlockRef → Prop} (h : store.Steady known)
    (hrange : operation.InRange) (hspares : operation.Spares store.state kept)
    (hblock : ∀ block, operation.block? = some block → known block) :
    (store.perform operation).store.Steady known := by
  have haligned : ∃ after, (store.perform operation).store.Aligned after :=
    h.aligned.elim fun _ haligned => haligned.perform hrange
  rcases h.perform_state operation with hstate | ⟨change, hallows, hstate⟩
  · exact ⟨haligned, hstate ▸ h.headed, hstate ▸ h.knows⟩
  · exact ⟨haligned, hstate ▸ Ledger.headed_apply h.headed hrange hspares hallows,
      hstate ▸ Ledger.knows_apply h.knows hblock hallows⟩

/-- A block that is invalidated above the cross-safe head leaves the head. -/
theorem Steady.invalidate_crossSafe {known : BlockRef → Prop} (h : store.Steady known)
    {candidate : DerivedPair} (hspares : (Operation.invalidate candidate).Spares store.state kept) :
    (store.perform (.invalidate candidate)).store.state.crossSafe = store.state.crossSafe := by
  rcases h.perform_state (.invalidate candidate) with hstate | ⟨change, hallows, hstate⟩
  · rw [hstate]
  · cases hallows
    rw [hstate]
    exact (Ledger.apply_invalidate_cross h.headed hspares.1).1

/-- The candidate of a chain is taken as its cross-safe head. -/
theorem perform_candidate (h : store.state.Headed) {pair : DerivedPair}
    (hcandidate : store.state.candidate = .ok pair) :
    store.perform (.setCrossSafe pair) = ⟨.ok (), store.commit (.setCrossSafe pair), []⟩ :=
  perform_of_allows (Ledger.allows_candidate h hcandidate) rfl

/-- The candidate of a chain becomes its cross-safe head. -/
theorem Steady.perform_candidate {known : BlockRef → Prop} (h : store.Steady known)
    {pair : DerivedPair} (hcandidate : store.state.candidate = .ok pair) :
    (store.perform (.setCrossSafe pair)).result = .ok () ∧
      (store.perform (.setCrossSafe pair)).store.state.crossDerived.get? pair.derived.number =
        some pair := by
  rw [ChainStore.perform_candidate h.headed hcandidate]
  exact ⟨rfl, Ledger.get?_setCrossSafe h.headed hcandidate⟩

end ChainStore

end CrossSafety
