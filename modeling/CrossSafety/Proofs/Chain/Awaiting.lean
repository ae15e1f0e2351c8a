import CrossSafety.Proofs.Chain.Invariant
import CrossSafety.Proofs.Chain.Rewound

/-!
# Waiting for a replacement

A block that is made invalid above the cross-safe head leaves a marker and the block below it as the
local-safe head. Whatever else is written, and however often the chain is opened again, both stay
until another block is derived at the number of the invalid one, an invalidation names another block,
or a rewind takes the local-safe head further down. Until then the chain has no candidate, and the
only local-safe block it takes is the one that it waits for.
-/
namespace CrossSafety

/-- Whether a write ends the wait for a block at a number, if it succeeds. -/
def Operation.EndsWait (number : UInt64) : Operation → Prop
  | .addDerived pair => pair.derived.number = number
  | .invalidate _ => True
  | .rewindLocalSafe target => target.number < number
  | _ => False

namespace Ledger

variable {state after : Ledger} {lost : BlockRef} {top pair : DerivedPair} {operation : Operation}
  {change : Change}

/-- A marker is set, and the local-safe head is the block below the marked one. -/
structure AwaitsOn (state : Ledger) (lost : BlockRef) (top : DerivedPair) : Prop where
  marked : state.invalidated = some lost.toSeal
  head : state.localDerived.last? = some top
  below : top.derived.number + 1 = lost.number

theorem AwaitsOn.lt_lost (h : state.AwaitsOn lost top) (hconsistent : state.Consistent)
    {number : UInt64} (hget : state.localDerived.get? number = some pair) : number < lost.number := by
  have hmax := (hconsistent.localDerived.keyed _ _ (hconsistent.localDerived.get?_last h.head)).2
  have hle := UInt64.le_iff_toNat_le.mp (hconsistent.localDerived.le_last h.head hget)
  rw [← h.below, UInt64.lt_iff_toNat_lt, toNat_succ_of_lt_max hmax]
  exact Nat.lt_succ_of_le hle

/-- An allowed write that does not end the wait leaves marker and local-safe head. -/
theorem AwaitsOn.apply (h : state.AwaitsOn lost top) (hconsistent : state.Consistent)
    (hmax : operation.BlocksBounded) (hwaits : ¬operation.EndsWait lost.number)
    (hallows : state.Allows operation change) : (state.apply change).AwaitsOn lost top := by
  cases hallows with
  | initialise anchor fresh sealed unsealed source derived underived =>
    -- the local-safe index is not empty, so the anchor is in it already
    cases hanchor : state.localDerived.get? anchor.derived.number with
    | none =>
      have hlast := Table.last?_eq_none.mpr (Table.isEmpty_iff.mp (underived hanchor))
      rw [h.head] at hlast
      cases hlast
    | some known =>
      have hsame : (state.apply (.initialise anchor)).localDerived = state.localDerived :=
        Table.insertNew_of_some hanchor
      exact ⟨h.marked, hsame ▸ h.head, h.below⟩
  | addDerived pair fresh valid next source =>
    exact absurd ((next top h.head).1.1.trans h.below) hwaits
  | invalidate => exact absurd trivial hwaits
  | rewindLocalSafe target checked =>
    have hle : lost.number ≤ target.number := UInt64.not_lt.mp hwaits
    have hsame : state.dropLocalSafeFrom (target.number + 1) = state :=
      hconsistent.dropLocalSafeFrom_eq (hmax _ List.mem_cons_self) fun _ _ hget =>
        UInt64.le_of_lt (UInt64.lt_of_lt_of_le (h.lt_lost hconsistent hget) hle)
    rw [Ledger.apply, hsame]
    refine ⟨?_, h.head, h.below⟩
    dsimp only
    rw [h.marked]
    exact Option.filter_some_pos (decide_eq_true hle)
  | _ => exact ⟨h.marked, h.head, h.below⟩

/-- A block that is made invalid above the cross-safe head has a local-safe block below it, which
becomes the local-safe head. -/
theorem Consistent.awaitsOn_invalidate (h : state.Consistent) {head known : DerivedPair}
    (hhead : state.crossSafe = some head) (habove : head.derived.number < lost.number)
    (hlost : state.localDerived.get? lost.number = some known) :
    ∃ top, state.localDerived.get? top.derived.number = some top ∧
      (state.apply (.invalidate lost)).AwaitsOn lost top := by
  have hne : lost.number ≠ 0 := fun hzero => UInt64.not_lt_zero (hzero ▸ habove)
  have hpred := toNat_pred hne
  have hpos := toNat_pos_of_ne_zero hne
  have hlt : lost.number - 1 < lost.number := by
    rw [UInt64.lt_iff_toNat_lt]
    omega
  obtain ⟨base, hbase, -⟩ := h.exists_localHead hhead
  obtain ⟨last, hlast⟩ := Table.Linked.exists_last hlost
  have hlow : head.derived.number ≤ lost.number - 1 := by
    have habove := UInt64.lt_iff_toNat_lt.mp habove
    rw [UInt64.le_iff_toNat_le]
    omega
  obtain ⟨top, htop⟩ := h.localDerived.exists_between (fun _ _ hderives => hderives.1) hbase hlast
    hlow (UInt64.le_trans (UInt64.le_of_lt hlt) (h.localDerived.le_last hlast hlost))
  have hnumber := (h.localDerived.keyed _ _ htop).1
  refine ⟨top, hnumber.symm ▸ htop, rfl, ?_, by rw [hnumber, UInt64.sub_add_cancel]⟩
  rw [apply_invalidate_localDerived]
  refine Table.last?_eq_some.mpr ⟨_, get?_below_of_lt hlt htop, fun key value hget => ?_⟩
  rw [Table.get?_below] at hget
  split at hget
  · rename_i hbelow
    have hkey : key.toNat < lost.number.toNat := hbelow
    show key.toNat ≤ (lost.number - 1).toNat
    omega
  · cases hget

theorem AwaitsOn.moves (h : state.AwaitsOn lost top) (hconsistent : state.Consistent)
    {step : ChainStore.Step} (hmax : step.BlocksBounded)
    (hwaits : ∀ operation, step = .write operation → ¬operation.EndsWait lost.number)
    (hmoves : state.Moves step after) : after.AwaitsOn lost top := by
  cases hmoves with
  | stay => exact h
  | change allowed => exact h.apply hconsistent hmax (hwaits _ rfl) allowed
  | drop known above => exact ⟨h.marked, h.head, h.below⟩

/-- The block that may be derived during the wait. -/
theorem AwaitsOn.allows_addDerived (h : state.AwaitsOn lost top) (hconsistent : state.Consistent) :
    state.Allows (.addDerived pair) (.addDerived pair) ↔
      follows pair.derived top.derived ∧ pair.derived.number = lost.number ∧
        pair.derived.hash ≠ lost.hash ∧ top.source.number ≤ pair.source.number ∧
        ∃ new, state.isNewSource pair.source = .ok new := by
  have hmarked : state.invalidated.map BlockSeal.id = some lost.id := by
    rw [h.marked]
    rfl
  constructor
  · intro hallows
    cases hallows with
    | addDerived _ fresh valid next source =>
      obtain ⟨hfollows, hsource⟩ := next top h.head
      have hnumber := hfollows.1.trans h.below
      refine ⟨hfollows, hnumber, fun hhash => valid ?_, hsource, source⟩
      rw [hmarked, BlockRef.id, BlockRef.id, hnumber, hhash]
  · intro hpair
    obtain ⟨hfollows, -, hhash, hsource, hnew⟩ := hpair
    have hnext : ∀ last, state.localDerived.last? = some last →
        follows pair.derived last.derived ∧ last.source.number ≤ pair.source.number := by
      intro last hlast
      rw [h.head] at hlast
      cases hlast
      exact ⟨hfollows, hsource⟩
    refine .addDerived pair (hconsistent.localDerived.get?_of_follows pair
      fun last hlast => (hnext last hlast).1) (fun hsame => hhash ?_) hnext hnew
    rw [hmarked] at hsame
    exact (congrArg BlockId.hash (Option.some.inj hsame)).symm

end Ledger

namespace ChainStore

variable {store next last : ChainStore} {lost top pair head : DerivedPair}

/-- Whether a step ends the wait for a block at a number. A write that fails does not. -/
def EndsWait (store : ChainStore) (number : UInt64) : Step → Prop
  | .write operation => operation.EndsWait number ∧ (store.perform operation).result = .ok ()
  | .reopen => False

/-- A run in which the wait for a block at a number goes on. -/
inductive Waits (number : UInt64) (store : ChainStore) : ChainStore → Prop
  | refl : Waits number store store
  | step {last next : ChainStore} (step : Step) (run : Waits number store last)
      (bounded : step.BlocksBounded) (waits : ¬last.EndsWait number step)
      (taken : last.after step = .ok next) : Waits number store next

/-- What a chain says while it waits for another block than `lost`. -/
structure Awaiting (store : ChainStore) (lost : BlockRef) (top : DerivedPair) : Prop where
  candidate : store.state.candidate = .error (.awaitingReplacement lost.id)
  localSafe : store.state.localSafeHead = .ok top
  below : top.derived.number + 1 = lost.number
  /-- The only block that becomes local-safe is a child of the head that is not the lost one. -/
  replaces : ∀ pair, ((store.perform (.addDerived pair)).result = .ok () ∧
      (store.perform (.addDerived pair)).store.state ≠ store.state) ↔
    Ledger.follows pair.derived top.derived ∧ pair.derived.number = lost.number ∧
      pair.derived.hash ≠ lost.hash ∧ top.source.number ≤ pair.source.number ∧
      ∃ new, store.state.isNewSource pair.source = .ok new
  /-- The block at the number of the lost one ends the wait. -/
  clears : ∀ pair, pair.derived.number = lost.number →
    (store.perform (.addDerived pair)).result = .ok () →
    (store.perform (.addDerived pair)).store.state.invalidated = none

/-- A derived block that is accepted is recorded already or makes its change. -/
theorem perform_addDerived (h : (store.perform (.addDerived pair)).result = .ok ()) :
    store.state.localDerived.get? pair.derived.number = some pair ∧
        (store.perform (.addDerived pair)).store = store ∨
      store.state.Allows (.addDerived pair) (.addDerived pair) ∧
        store.perform (.addDerived pair) = ⟨.ok (), store.commit (.addDerived pair), []⟩ := by
  rcases perform_ok h with ⟨hidle, hsame⟩ | ⟨change, -, hallows, -⟩
  · exact .inl ⟨Ledger.planDerived_nil hidle, hsame⟩
  · obtain rfl : change = .addDerived pair := by
      cases hallows
      rfl
    exact .inr ⟨hallows, perform_of_allows hallows rfl⟩

theorem awaiting_of_awaitsOn {lost : BlockRef} (hconsistent : store.state.Consistent)
    (h : store.state.AwaitsOn lost top) : store.Awaiting lost top where
  candidate := Ledger.candidate_of_marked h.marked
  localSafe := by rw [Ledger.localSafeHead, h.head]
  below := h.below
  replaces pair := by
    rw [← h.allows_addDerived hconsistent]
    constructor
    · intro hwritten
      obtain ⟨hok, hchanged⟩ := hwritten
      rcases perform_addDerived hok with ⟨-, hsame⟩ | ⟨hallows, -⟩
      · exact absurd (congrArg ChainStore.state hsame) hchanged
      · exact hallows
    · intro hallows
      have hperform := perform_of_allows hallows rfl
      refine ⟨by rw [hperform], fun hsame => ?_⟩
      have hget : (store.state.apply (.addDerived pair)).localDerived.get? pair.derived.number =
          some pair := Table.get?_insert_self
      rw [hperform] at hsame
      cases hallows with
      | addDerived _ fresh =>
        rw [show store.state.apply (.addDerived pair) = store.state from hsame, fresh] at hget
        cases hget
  clears pair hnumber hok := by
    rcases perform_addDerived hok with ⟨hget, -⟩ | ⟨-, hperform⟩
    · exact absurd (hnumber ▸ h.lt_lost hconsistent hget) (UInt64.lt_irrefl _)
    rw [hperform]
    change store.state.invalidated.filter _ = none
    rw [h.marked]
    exact Option.filter_some_neg (by simp [hnumber, BlockRef.toSeal])

/-- The wait goes on until a step ends it. -/
theorem Waits.awaitsOn {lost : BlockRef} (h : Waits lost.number store last)
    (hjournaled : store.Journaled) (hconsistent : store.state.Consistent)
    (hawaits : store.state.AwaitsOn lost top) :
    last.Journaled ∧ last.state.Consistent ∧ last.state.AwaitsOn lost top := by
  induction h with
  | refl => exact ⟨hjournaled, hconsistent, hawaits⟩
  | @step last next step run bounded waits taken ih =>
    obtain ⟨hjournaled, hconsistent, hawaits⟩ := ih
    obtain ⟨hnext, hmoves⟩ := hjournaled.after taken
    refine ⟨hnext, hconsistent.moves bounded hmoves, ?_⟩
    by_cases hnone : ∀ operation, step = .write operation → ¬operation.EndsWait lost.number
    · exact hawaits.moves hconsistent bounded hnone hmoves
    · -- a write that would end the wait has failed
      simp only [not_forall, not_not] at hnone
      obtain ⟨operation, rfl, hends⟩ := hnone
      cases hresult : (last.perform operation).result with
      | ok done => exact absurd ⟨hends, hresult⟩ waits
      | error error =>
        obtain ⟨logs, hstore⟩ := perform_error hresult
        cases taken
        rw [hstore]
        exact hawaits

/-- A block above the cross-safe head that was made invalid is waited for, whatever else happens to
the chain: until another block takes its place there is no candidate, the local-safe head is the
block that was below it, and that other block is the only one that becomes local-safe. -/
theorem invalidated_awaits {before : List Step} (hblocks : ∀ step ∈ before, step.BlocksBounded)
    (hstart : (load .empty >>= fun new => new.run before) = .ok store)
    (hhead : store.state.crossSafe = some head)
    (habove : head.derived.number < lost.derived.number)
    (hlost : (store.perform (.invalidate lost)).result = .ok ()) :
    ∃ top, store.state.localDerived.get? top.derived.number = some top ∧
      ∀ last, Waits lost.derived.number (store.perform (.invalidate lost)).store last →
        last.Awaiting lost.derived top := by
  obtain ⟨hconsistent, hjournaled⟩ :=
    journaled_empty.run_consistent hstart hblocks Ledger.empty_consistent
  obtain ⟨hallows, logs, hstore⟩ := perform_invalidate hlost
  have hbounded : (Operation.invalidate lost).BlocksBounded :=
    hconsistent.blocks_bounded trivial hallows
  have hchanged := hconsistent.apply hbounded hallows
  cases hallows with
  | invalidate _ known recorded =>
    obtain ⟨top, htop, hawaits⟩ := hconsistent.awaitsOn_invalidate hhead habove recorded
    refine ⟨top, htop, fun last hrun => ?_⟩
    rw [hstore] at hrun
    obtain ⟨-, hlast, hstays⟩ := hrun.awaitsOn (hjournaled.commit logs _) hchanged hawaits
    exact awaiting_of_awaitsOn hlast hstays

/-- A run in which the second one of three blocks is made invalid. While it is waited for a source is
added and the cross-safe head is rewound, and then another block takes its place. -/
theorem invalidated_awaits_replaced :
    let block (number : UInt64) (hash parent : UInt8) : BlockRef :=
      ⟨.ofBytes [hash], number, .ofBytes [parent], number⟩
    let anchor : DerivedPair := ⟨block 0 9 0, block 0 1 0⟩
    let lost : DerivedPair := ⟨block 1 10 9, block 1 2 1⟩
    let upper : DerivedPair := ⟨block 1 10 9, block 2 3 2⟩
    let other : DerivedPair := ⟨block 1 10 9, block 1 4 1⟩
    let before : List Step := [.write (.initialise anchor), .write (.addDerived lost),
      .write (.addDerived upper)]
    let between : List Step := [.write (.addSource (block 2 11 10)), .write (.addDerived lost),
      .write (.rewindCrossSafe anchor.derived.id)]
    ∃ store last top, (load .empty >>= fun new => new.run before) = .ok store ∧
      (store.perform (.invalidate lost)).result = .ok () ∧
      (store.perform (.invalidate lost)).store.run between = .ok last ∧
      (last.perform (.addDerived other)).result = .ok () ∧
      last.state.localSafeHead = .ok anchor ∧ last.Awaiting lost.derived top := by
  intro block anchor lost upper other before between
  obtain ⟨top, -, hawaits⟩ := @invalidated_awaits _ lost anchor before (by decide) rfl rfl
    (by decide) (by decide +kernel)
  refine ⟨_, _, top, rfl, by decide +kernel, rfl, by decide +kernel, by decide +kernel,
    hawaits _ ?_⟩
  -- the lost block is refused, and the other two writes do not concern the wait
  refine .step (.write (.rewindCrossSafe anchor.derived.id)) (.step (.write (.addDerived lost))
    (.step (.write (.addSource (block 2 11 10))) .refl (by decide) And.left rfl) (by decide)
    (fun hends => absurd hends.2 (by decide +kernel)) rfl) (by decide) And.left rfl

end ChainStore

end CrossSafety
