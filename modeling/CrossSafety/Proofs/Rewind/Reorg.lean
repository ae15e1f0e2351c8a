import CrossSafety.Proofs.Chain.Lowered
import CrossSafety.Proofs.Rewind.Run

/-!
# Going back after a reorg

The scan goes down from below the bad block and stops at the first sealed block that the source has
too, so it finds the highest one, also with gaps among the sealed blocks. Then the heads are rewound,
each one by a write. If all are made, the chain is back at the block that was found. One fails only if
the chain has a derivation record of another block at this number; those in front of it stay made.
-/
namespace CrossSafety

/-! ## The scan -/

/-- The number of the finalized head, or zero. A chain never goes back below it. -/
def Ledger.floor (state : Ledger) : UInt64 := (state.finalized.map BlockSeal.number).getD 0

/-- Whether the source has another block for each sealed block of a number. -/
def Ledger.DiffersAt (state : Ledger) (source : BlockSource) (number : UInt64) : Prop :=
  ∀ stored, state.findSealed number = .ok stored →
    ∃ block, source number = .ok block ∧ block.hash ≠ stored.hash

/-- A block is the highest one from `low` on and below `high` that is sealed and that the source has
too. -/
structure HighestCommon (state : Ledger) (source : BlockSource) (low : UInt64) (high : Nat)
    (common : BlockSeal) : Prop where
  found : state.findSealed common.number = .ok common
  above : low ≤ common.number
  below : common.number.toNat < high
  agrees : ∃ block, source common.number = .ok block ∧ block.hash = common.hash
  highest : ∀ number, common.number < number → number.toNat < high → state.DiffersAt source number

/-- What a scan of the numbers from `low` on and below `high` answers. -/
def ScanAnswers (state : Ledger) (source : BlockSource) (low : UInt64) (high : Nat) :
    Except RewindError (Option BlockSeal) → Prop
  | .ok (some common) => HighestCommon state source low high common
  | .ok none => ∀ number, low ≤ number → number.toNat < high → state.DiffersAt source number
  | .error error => ∃ number cause, source number = .error cause ∧ error = .source cause

section Scan

variable {state : Ledger} {source : BlockSource} {low : UInt64} {high : Nat}

/-- A scan goes on below a number where the source differs. -/
theorem ScanAnswers.raise {answer : Except RewindError (Option BlockSeal)}
    (h : ScanAnswers state source low high answer) {top : UInt64} (htop : top.toNat = high)
    (hdiffers : state.DiffersAt source top) : ScanAnswers state source low (high + 1) answer := by
  have hraise {number : UInt64} (hhigh : number.toNat < high + 1)
      (hbelow : number.toNat < high → state.DiffersAt source number) :
      state.DiffersAt source number := by
    by_cases hlt : number.toNat < high
    · exact hbelow hlt
    · have heq : number = top := UInt64.toNat_inj.mp (by omega)
      exact heq ▸ hdiffers
  rcases answer with error | ⟨⟩ | common
  · exact h
  · exact fun number hlow hhigh => hraise hhigh (h number hlow)
  · exact { h with
      below := Nat.lt_succ_of_lt h.below
      highest := fun number hlow hhigh => hraise hhigh (h.highest number hlow) }

end Scan

/-! ## The rewinds -/

namespace ChainStore

variable {store left : ChainStore} {heads : Heads} {common : BlockSeal} {level : SafetyLevel}
  {rewind : BlockId → Operation}

/-- A head at or above a block is rewound to it, and no other one. -/
def Lowers (heads : Heads) (common : BlockSeal) (level : SafetyLevel)
    (rewind : BlockId → Operation) (store left : ChainStore) : Prop :=
  if (heads.get level).any fun head => common.number ≤ head.number then
    (store.perform (rewind common.id)).result = .ok () ∧
      (store.perform (rewind common.id)).store = left
  else store = left

/-- The heads are rewound one after the other. -/
def LowersAll (heads : Heads) (common : BlockSeal) :
    List (SafetyLevel × (BlockId → Operation)) → ChainStore → ChainStore → Prop
  | [], store, left => store = left
  | (level, rewind) :: steps, store, left =>
    ∃ middle, Lowers heads common level rewind store middle ∧
      LowersAll heads common steps middle left

/-- The rewind of a head fails when those in front of it were made. -/
def StopsIn (heads : Heads) (common : BlockSeal) :
    List (SafetyLevel × (BlockId → Operation)) → ChainStore → Prop
  | [], _ => False
  | (level, rewind) :: steps, store =>
    (store.perform (rewind common.id)).result ≠ .ok () ∨
      ∃ middle, Lowers heads common level rewind store middle ∧
        StopsIn heads common steps middle

theorem Lowers.changes (h : Lowers heads common level rewind store left)
    (hadds : (rewind common.id).Adds = false) :
    (∃ change, store.state.Allows (rewind common.id) change ∧
        left.state = store.state.apply change) ∨
      (∀ head, heads.get level = some head → head.number < common.number) ∧ left = store := by
  unfold Lowers at h
  split at h
  · obtain ⟨hok, rfl⟩ := h
    obtain ⟨change, logs, hallows, hstore⟩ := perform_changes hok hadds
    exact .inl ⟨change, hallows, by rw [hstore]; rfl⟩
  · rename_i hnot
    refine .inr ⟨fun head hhead => UInt64.not_le.mp fun hle => hnot ?_, h.symm⟩
    rw [hhead]
    exact decide_eq_true hle

theorem Lowers.traced (h : Lowers heads common level rewind store left)
    (hstore : ∃ told, store.Traced told) (hmax : (rewind common.id).BlocksBounded) :
    ∃ told, left.Traced told := by
  obtain ⟨told, htraced⟩ := hstore
  unfold Lowers at h
  split at h
  · obtain ⟨-, rfl⟩ := h
    exact ⟨_, htraced.perform fun _ _ => hmax⟩
  · exact ⟨told, h ▸ htraced⟩

theorem Lowers.crossSafe (h : Lowers heads common .crossSafe .rewindCrossSafe store left)
    (hstate : store.state.CrossConsistent) (hheads : heads.crossSafe = store.state.heads.crossSafe)
    (hmax : common.number < maxNumber) :
    left.state = store.state.dropCrossSafeAbove common.number ∧
      Ledger.Agrees store.state.crossDerived common := by
  rcases h.changes rfl with ⟨change, hallows, hleft⟩ | ⟨hbelow, rfl⟩
  · cases hallows with
    | rewindCrossSafe _ checked => exact ⟨hleft, (Ledger.checkRecord_eq_ok.mp checked).2⟩
  · have hlt : ∀ key record, left.state.crossDerived.get? key = some record →
        key < common.number := fun key record hget => by
      cases hhead : left.state.crossSafe with
      | none => cases (Table.last?_eq_none.mp (hstate.unset hhead) key).symm.trans hget
      | some head =>
        refine UInt64.lt_of_le_of_lt (hstate.le_head hhead hget) (hbelow head.derived.toSeal ?_)
        rw [Heads.get, hheads, Ledger.heads, hhead]
        rfl
    exact ⟨(hstate.dropCrossSafeAbove_eq hmax fun key record hget =>
      UInt64.le_of_lt (hlt key record hget)).symm, Ledger.agrees_of_lt hlt⟩

theorem Lowers.localSafe (h : Lowers heads common .localSafe .rewindLocalSafe store left)
    (hstate : store.state.Consistent) (hheads : heads.localSafe = store.state.heads.localSafe)
    (hmax : common.number < maxNumber) :
    left.state = { store.state.dropLocalSafeFrom (common.number + 1) with
      invalidated := left.state.invalidated } ∧ Ledger.Agrees store.state.localDerived common := by
  rcases h.changes rfl with ⟨change, hallows, hleft⟩ | ⟨hbelow, rfl⟩
  · cases hallows with
    | rewindLocalSafe _ checked =>
      refine ⟨?_, (Ledger.checkRecord_eq_ok.mp checked).2⟩
      rw [hleft]
      rfl
  · have hlt : ∀ key pair, left.state.localDerived.get? key = some pair →
        key < common.number := fun key pair hget => by
      obtain ⟨last, hlast⟩ := Table.Linked.exists_last hget
      refine UInt64.lt_of_le_of_lt (hstate.localDerived.le_last hlast hget)
        (hbelow last.derived.toSeal ?_)
      rw [Heads.get, hheads, Ledger.heads, hlast]
      rfl
    rw [hstate.dropLocalSafeFrom_eq hmax fun key pair hget => UInt64.le_of_lt (hlt key pair hget)]
    exact ⟨rfl, Ledger.agrees_of_lt hlt⟩

theorem Lowers.crossUnsafe (h : Lowers heads common .crossUnsafe .rewindCrossUnsafe store left)
    (hheads : heads.crossUnsafe = store.state.crossUnsafe)
    (hfound : store.state.findSealed common.number = .ok common) :
    left.state = { store.state with crossUnsafe := store.state.lowerCrossUnsafe common } := by
  rcases h.changes rfl with ⟨change, hallows, hleft⟩ | ⟨hbelow, rfl⟩
  · cases hallows with
    | rewindCrossUnsafe _ sealed above known =>
      obtain ⟨other, hother, rfl⟩ := Ledger.findSealed_eq_ok.mp hfound
      cases (sealedBlock_get? known).1.symm.trans hother
      exact hleft
  · rw [Ledger.lowerCrossUnsafe_eq fun head hhead => hbelow head (hheads.trans hhead)]

/-- The head of the sealed blocks is never below the block. -/
theorem Lowers.localUnsafe (h : Lowers heads common .localUnsafe .rewindLocalUnsafe store left)
    (hkeyed : store.state.Keyed) (hheads : heads.localUnsafe = store.state.heads.localUnsafe)
    (hfound : store.state.findSealed common.number = .ok common) :
    left.state = store.state.dropBlocksAbove common.number := by
  rcases h.changes rfl with ⟨change, hallows, hleft⟩ | ⟨hbelow, rfl⟩
  · cases hallows with
    | rewindLocalUnsafe => exact hleft
  · obtain ⟨sealed, hget, -⟩ := Ledger.findSealed_eq_ok.mp hfound
    have hle := Ledger.latestNumber_le hkeyed hget
    obtain ⟨latest, hlatest⟩ := Table.Linked.exists_last hget
    rw [Ledger.latestNumber, Ledger.latest?, hlatest] at hle
    refine absurd (hbelow latest.block.toSeal ?_) (UInt64.not_lt.mpr hle)
    rw [Heads.get, hheads, Ledger.heads, Ledger.latest?, hlatest]
    rfl

/-- Derivation records are cut behind the block, which they agree with. -/
theorem lowers_records {first second : ChainStore} (hstate : store.state.Consistent)
    (hmax : common.number < maxNumber)
    (hfirst : Lowers store.state.heads common .crossSafe .rewindCrossSafe store first)
    (hsecond : Lowers store.state.heads common .localSafe .rewindLocalSafe first second) :
    (∃ invalidated, second.state = { store.state.dropCrossSafeAbove common.number with
        localDerived := store.state.localDerived.below (common.number + 1), invalidated }) ∧
      Ledger.Agrees store.state.crossDerived common ∧
      Ledger.Agrees store.state.localDerived common := by
  obtain ⟨hfirst, hcross⟩ := hfirst.crossSafe hstate.toCrossConsistent rfl hmax
  have hcut : first.state.Consistent := hfirst ▸ hstate.dropCrossSafeAbove hmax
  obtain ⟨hsecond, hlocal⟩ := hsecond.localSafe hcut (by rw [hfirst]; rfl) hmax
  rw [hfirst] at hlocal
  rw [hfirst, hstate.dropLocalSafeFrom_of_dropped hmax] at hsecond
  exact ⟨⟨_, hsecond⟩, hcross, hlocal⟩

/-- All heads together go back to the block. -/
theorem LowersAll.backTo (h : LowersAll store.state.heads common rewindSteps store left)
    (hstate : store.state.Consistent) (hmax : common.number < maxNumber)
    (hfound : store.state.findSealed common.number = .ok common) :
    store.state.BackTo left.state common := by
  obtain ⟨first, hfirst, second, hsecond, third, hthird, _, hlast, rfl⟩ := h
  obtain ⟨⟨invalidated, hcut⟩, hcross, hlocal⟩ := lowers_records hstate hmax hfirst hsecond
  have hthird := hthird.crossUnsafe (by rw [hcut]; rfl) (by rw [hcut]; exact hfound)
  rw [hcut] at hthird
  have hlast := hlast.localUnsafe (by rw [hthird]; exact hstate.blocks.keyed)
    (by rw [hthird]; rfl) (by rw [hthird]; exact hfound)
  rw [hthird, Ledger.dropBlocksAbove_of_le fun head hhead => Ledger.lowerCrossUnsafe_le hhead]
    at hlast
  rw [hlast]
  exact hstate.backTo hmax hfound hlocal hcross invalidated

/-- The rewinds of a chain to a sealed block fail only at records of another block. -/
theorem StopsIn.disagrees (h : StopsIn store.state.heads common rewindSteps store)
    {told : UInt64 → List Log} (htraced : store.Traced told) (hmax : common.number < maxNumber)
    (hfound : store.state.findSealed common.number = .ok common)
    (habove : store.state.requireAboveFinalized common.number = .ok ()) :
    ¬Ledger.Agrees store.state.crossDerived common ∨
      ¬Ledger.Agrees store.state.localDerived common := by
  refine not_and_or.mp fun ⟨hcross, hlocal⟩ => ?_
  have hstate := htraced.consistent
  have hbounded : ∀ number ∈ [common.number], number < maxNumber :=
    List.forall_mem_singleton.mpr hmax
  obtain ⟨sealed, hsealed⟩ := Ledger.exists_sealedBlock hfound
  rcases h with hfails | ⟨first, hfirst, hfails | ⟨second, hsecond, hfails | ⟨third, hthird, hfails⟩⟩⟩
  · have hallows := Ledger.Allows.rewindCrossSafe common.id
      (Ledger.checkRecord_eq_ok.mpr ⟨habove, hcross⟩)
    exact hfails (by rw [perform_of_allows hallows rfl])
  · obtain ⟨hcut, -⟩ := hfirst.crossSafe hstate.toCrossConsistent rfl hmax
    have hallows : first.state.Allows (.rewindLocalSafe common.id) _ :=
      .rewindLocalSafe common.id (by rw [hcut]; exact Ledger.checkRecord_eq_ok.mpr ⟨habove, hlocal⟩)
    exact hfails (by rw [perform_of_allows hallows rfl])
  · obtain ⟨⟨invalidated, hcut⟩, -, -⟩ := lowers_records hstate hmax hfirst hsecond
    have hallows : second.state.Allows (.rewindCrossUnsafe common.id) _ :=
      .rewindCrossUnsafe common.id sealed (by rw [hcut]; exact habove) (by rw [hcut]; exact hsealed)
    exact hfails (by rw [perform_of_allows hallows rfl])
  · obtain ⟨⟨invalidated, hcut⟩, -, -⟩ := lowers_records hstate hmax hfirst hsecond
    obtain ⟨told, hlast⟩ := hthird.traced
      (hsecond.traced (hfirst.traced ⟨told, htraced⟩ hbounded) hbounded) hbounded
    have hthird := hthird.crossUnsafe (by rw [hcut]; rfl) (by rw [hcut]; exact hfound)
    rw [hcut] at hthird
    have hkept : third.state.requireKept common.id = .ok () :=
      Ledger.requireKept_of_sealed (by rw [hthird]; exact habove) (by rw [hthird]; exact hsealed)
    obtain ⟨logs, hlisted, -⟩ := hlast.exists_listed
    rcases hfails with hfails | ⟨_, _, hnone⟩
    · rcases hlisted.perform_rewindLocalUnsafe common.id with
        ⟨error, hrefused, -⟩ | ⟨_, _, _, -, -, hperform⟩
      · cases hkept.symm.trans hrefused
      · exact hfails (by rw [hperform])
    · exact hnone

end ChainStore

namespace Recovery

open Rewind ChainStore

variable {σ : Type} {holds : σ → ChainStore → Prop} {recovery : Recovery σ}

/-- The scan reads only, and goes through all numbers from the highest one down. -/
theorem leads_findCommon (h : recovery.store.Serves holds) {store : ChainStore}
    (hkeyed : store.state.Keyed) (source : BlockSource) (low : UInt64) :
    ∀ count : Nat, low.toNat + count ≤ 18446744073709551616 →
      ∃ answer, Leads holds (recovery.findCommon source low count) store answer store ∧
        ScanAnswers store.state source low (low.toNat + count) answer := by
  intro count
  induction count with
  | zero =>
    refine fun _ => ⟨_, leads_pure none, fun number hlow hhigh => ?_⟩
    rw [UInt64.le_iff_toNat_le] at hlow
    omega
  | succ count ih =>
    intro hcount
    have hheight : (low + UInt64.ofNat count).toNat = low.toNat + count := by
      rw [UInt64.toNat_add, UInt64.toNat_ofNat']
      omega
    obtain ⟨rest, hrest, hanswers⟩ := ih (by omega)
    have hlook := leads_findSealed? h store (low + UInt64.ofNat count)
    rcases hstored : store.state.findSealed (low + UInt64.ofNat count) with error | stored
    · rw [hstored] at hlook
      refine ⟨rest, hlook.bind hrest, hanswers.raise hheight fun stored hsome => ?_⟩
      cases hstored.symm.trans hsome
    rw [hstored] at hlook
    have hask := leads_ask h store source (low + UInt64.ofNat count)
    rcases hblock : source (low + UInt64.ofNat count) with cause | block
    · rw [hblock] at hask
      exact ⟨_, hlook.bind hask.bind_error, _, cause, hblock, rfl⟩
    rw [hblock] at hask
    by_cases hsame : block.hash = stored.hash
    · have hnumber : stored.number = low + UInt64.ofNat count := by
        obtain ⟨sealed, hget, rfl⟩ := Ledger.findSealed_eq_ok.mp hstored
        exact (hkeyed _ sealed hget).1
      refine ⟨_, hlook.bind (hask.bind (.of_pos hsame (leads_pure _))), ?_⟩
      exact {
        found := hnumber.symm ▸ hstored
        above := by
          rw [UInt64.le_iff_toNat_le, hnumber, hheight]
          omega
        below := by
          rw [hnumber, hheight]
          omega
        agrees := ⟨block, hnumber.symm ▸ hblock, hsame⟩
        highest := fun number hlow hhigh => by
          rw [hnumber, UInt64.lt_iff_toNat_lt, hheight] at hlow
          omega }
    · refine ⟨rest, hlook.bind (hask.bind (.of_neg hsame hrest)),
        hanswers.raise hheight fun other hother => ⟨block, hblock, ?_⟩⟩
      cases hstored.symm.trans hother
      exact hsame

/-- One turn of the loop over the heads. -/
def lowerOne (recovery : Recovery σ) (heads : Heads) (common : BlockSeal) :
    SafetyLevel × (BlockId → Operation) → PUnit → Rewind σ (ForInStep PUnit)
  | (level, rewind), _ => do
    if (heads.get level).any fun head => common.number ≤ head.number then
      recovery.write (rewind common.id)
    return .yield ⟨⟩

theorem lowerHeads_eq (common : BlockSeal) :
    recovery.lowerHeads common = (do
      let heads ← read fun state => (recovery.store.heads state).mapError .storage
      forIn rewindSteps PUnit.unit (recovery.lowerOne heads common)
      recovery.tell (.rewound common
        ((heads.localUnsafe.map fun head => depthBetween head.number common.number).getD 0))) := rfl

/-- Each head is rewound or the loop stops with the failure of a write. -/
theorem leads_lowerAll (h : recovery.store.Serves holds) (heads : Heads) (common : BlockSeal)
    (steps : List (SafetyLevel × (BlockId → Operation))) (store : ChainStore) :
    ∃ answer left, Leads holds (forIn steps PUnit.unit (recovery.lowerOne heads common)) store
      answer left ∧ (answer = .ok ⟨⟩ ∧ LowersAll heads common steps store left ∨
        StopsIn heads common steps store ∧ ∃ cause, answer = .error (.storage cause)) := by
  induction steps generalizing store with
  | nil => exact ⟨_, store, leads_pure _, .inl ⟨rfl, rfl⟩⟩
  | cons step rest ih =>
    obtain ⟨level, rewind⟩ := step
    rw [List.forIn_cons]
    by_cases hany : (heads.get level).any fun head => common.number ≤ head.number
    · have hwrite := leads_write h store (rewind common.id)
      rcases hresult : (store.perform (rewind common.id)).result with cause | ⟨⟩
      · rw [hresult] at hwrite
        refine ⟨_, _, Leads.bind_error (.of_pos hany hwrite.bind_error), .inr ⟨.inl ?_, cause, rfl⟩⟩
        rw [hresult]
        exact nofun
      · rw [hresult] at hwrite
        obtain ⟨answer, left, hrest, hafter⟩ := ih (store.perform (rewind common.id)).store
        have hlowers : Lowers heads common level rewind store
            (store.perform (rewind common.id)).store := by
          rw [Lowers, if_pos hany]
          exact ⟨hresult, rfl⟩
        exact ⟨answer, left, Leads.bind (.of_pos hany (hwrite.bind (leads_pure _))) hrest,
          hafter.imp (fun ⟨hok, hall⟩ => ⟨hok, _, hlowers, hall⟩)
            fun ⟨hstops, hcause⟩ => ⟨.inr ⟨_, hlowers, hstops⟩, hcause⟩⟩
    · obtain ⟨answer, left, hrest, hafter⟩ := ih store
      have hlowers : Lowers heads common level rewind store store := by rw [Lowers, if_neg hany]
      exact ⟨answer, left, Leads.bind (.of_neg hany (leads_pure _)) hrest,
        hafter.imp (fun ⟨hok, hall⟩ => ⟨hok, _, hlowers, hall⟩)
          fun ⟨hstops, hcause⟩ => ⟨.inr ⟨_, hlowers, hstops⟩, hcause⟩⟩

/-- The heads are those from before the first rewind. -/
theorem leads_lowerHeads (h : recovery.store.Serves holds) (common : BlockSeal)
    (store : ChainStore) :
    ∃ answer left, Leads holds (recovery.lowerHeads common) store answer left ∧
      (answer = .ok () ∧ LowersAll store.state.heads common rewindSteps store left ∨
        StopsIn store.state.heads common rewindSteps store ∧
          ∃ cause, answer = .error (.storage cause)) := by
  have hread : Leads holds (read fun state => (recovery.store.heads state).mapError .storage) store
      (.ok store.state.heads) store := leads_read fun _ hstate => by rw [h.heads hstate]; rfl
  obtain ⟨answer, left, hall, ⟨rfl, hlowered⟩ | ⟨hstops, cause, rfl⟩⟩ :=
    leads_lowerAll h store.state.heads common rewindSteps store
  · exact ⟨_, left, lowerHeads_eq common ▸ hread.bind (hall.bind (leads_tell h left _)),
      .inl ⟨rfl, hlowered⟩⟩
  · exact ⟨_, left, lowerHeads_eq common ▸ hread.bind hall.bind_error, .inr ⟨hstops, cause, rfl⟩⟩

/-- What is answered to a reorg, and the chain that is left. Only a failure of the chain's own storage
may leave some heads rewound: a derivation record at the common block is then of another block. -/
def AnswersReorg (source : Option BlockSource) (store : ChainStore) (bad : BlockSeal) :
    Except RewindError (Option BlockSeal) → ChainStore → Prop
  | .ok (some common), left => ∃ blocks, source = some blocks ∧
      HighestCommon store.state blocks store.state.floor bad.number.toNat common ∧
      store.state.BackTo left.state common
  | .ok none, left => left = store ∧
      (bad.number = 0 ∨ ∃ head, store.state.finalized = some head ∧ bad.number - 1 ≤ head.number)
  | .error (.missingBlockSource _), left => left = store ∧ source = none
  | .error (.source cause), left => left = store ∧
      ∃ blocks number, source = some blocks ∧ blocks number = .error cause
  | .error (.noCommonAncestor _), left => left = store ∧ ∃ blocks, source = some blocks ∧
      ∀ number, store.state.floor ≤ number → number < bad.number →
        store.state.DiffersAt blocks number
  | .error (.storage _), _ => ∃ blocks common, source = some blocks ∧
      HighestCommon store.state blocks store.state.floor bad.number.toNat common ∧
      (¬Ledger.Agrees store.state.crossDerived common ∨
        ¬Ledger.Agrees store.state.localDerived common)

theorem leads_afterReorg (h : recovery.store.Serves holds) {store : ChainStore}
    {told : UInt64 → List Log} (htraced : store.Traced told) (bad : BlockSeal) :
    ∃ answer left, Leads holds (recovery.afterReorg bad) store answer left ∧
      AnswersReorg recovery.source store bad answer left := by
  have hstate := htraced.consistent
  have hfinalized := leads_finalizedNumber h store
  by_cases hzero : bad.number = 0
  · exact ⟨_, _, hfinalized.bind (.of_pos hzero (leads_pure _)), rfl, .inl hzero⟩
  by_cases hold : ((store.state.finalized.map BlockSeal.number).any (bad.number - 1 ≤ ·)) = true
  · refine ⟨_, _, hfinalized.bind (.of_neg hzero (.of_pos hold (leads_pure _))), rfl, .inr ?_⟩
    cases hhead : store.state.finalized with
    | none => rw [hhead] at hold; cases hold
    | some head =>
      rw [hhead] at hold
      exact ⟨head, rfl, of_decide_eq_true hold⟩
  obtain ⟨chain, access, source⟩ := recovery
  cases source with
  | none => exact ⟨_, _, hfinalized.bind (.of_neg hzero (.of_neg hold (leads_throw _))), rfl, rfl⟩
  | some source =>
    have hlow : store.state.floor ≤ bad.number - 1 := by
      unfold Ledger.floor
      cases hhead : store.state.finalized with
      | none => exact UInt64.zero_le
      | some head =>
        rw [hhead, Option.map_some, Option.any_some, decide_eq_true_iff] at hold
        exact UInt64.le_of_lt (UInt64.not_le.mp hold)
    rw [UInt64.le_iff_toNat_le] at hlow
    have hpred := toNat_pred hzero
    have hpos := toNat_pos_of_ne_zero hzero
    have hbad := bad.number.toNat_lt
    obtain ⟨found, hscan, hfound⟩ := leads_findCommon h hstate.blocks.keyed source
      store.state.floor ((bad.number - 1).toNat - store.state.floor.toNat + 1) (by omega)
    have hrange : store.state.floor.toNat +
        ((bad.number - 1).toNat - store.state.floor.toNat + 1) = bad.number.toNat := by
      omega
    rw [hrange] at hfound
    rcases found with error | ⟨⟩ | common
    · obtain ⟨number, cause, hcause, rfl⟩ := hfound
      exact ⟨_, _, hfinalized.bind (.of_neg hzero (.of_neg hold hscan.bind_error)), rfl, source,
        number, rfl, hcause⟩
    · exact ⟨_, _, hfinalized.bind (.of_neg hzero (.of_neg hold (hscan.bind (leads_throw _)))), rfl,
        source, rfl, fun number hlow hlt => hfound number hlow (UInt64.lt_iff_toNat_lt.mp hlt)⟩
    · have hmax : common.number < maxNumber := by
        have hhigh : common.number.toNat < bad.number.toNat := hfound.below
        have hlast : maxNumber.toNat = 18446744073709551615 := rfl
        rw [UInt64.lt_iff_toNat_lt]
        omega
      obtain ⟨answer, left, hlower, ⟨rfl, hall⟩ | ⟨hstops, cause, rfl⟩⟩ :=
        leads_lowerHeads h common store
      · exact ⟨_, left, hfinalized.bind (.of_neg hzero (.of_neg hold (hscan.bind
          (hlower.bind (leads_pure (some common)))))), source, rfl, hfound,
          hall.backTo hstate hmax hfound.found⟩
      · refine ⟨_, left, hfinalized.bind (.of_neg hzero (.of_neg hold (hscan.bind
          hlower.bind_error))), source, common, rfl, hfound,
          hstops.disagrees htraced hmax hfound.found ?_⟩
        refine Ledger.requireAboveFinalized_eq_ok.mpr fun head hhead => ?_
        have habove := hfound.above
        rw [Ledger.floor, hhead] at habove
        exact habove

end Recovery

namespace Supervisor

open ChainStore

/-- A chain that started in an empty directory is told of a reorg from a bad block on. If the answer
is a block, this is the highest one that is not below the finalized head, lies below the bad block and
is a block of the source too, and all heads went back to it. Otherwise the answer says why not, and
the chain is as before, unless records of another block stopped its rewinds. -/
theorem followSource_answers {supervisor : Supervisor} {chain : ChainId} {last : ChainStore}
    {steps : List Step} (bad : BlockSeal) (hblocks : ∀ step ∈ steps, step.BlocksBounded)
    (hrun : (load .empty >>= fun new => new.run steps) = .ok last)
    (hopen : supervisor.cluster.chains.get? chain = some last) (asker : Asker) :
    let done := (supervisor.recovery asker chain).followSource bad supervisor
    ∃ left, done.2.cluster.chains.get? chain = some left ∧
      Recovery.AnswersReorg (supervisor.sources.get? asker chain) last bad done.1 left := by
  intro done
  have hserves : (supervisor.recovery asker chain).store.Serves _ := rewindStore_serves asker chain
  obtain ⟨answer, left, hleads, hanswers⟩ :=
    Recovery.leads_afterReorg hserves (ChainStore.run_traced hblocks hrun) bad
  obtain ⟨hanswer, hleft⟩ := Recovery.run_eq hserves hleads hopen
  exact ⟨left, hleft, hanswer.symm ▸ hanswers⟩

/-- A supervisor of one chain, whose source visitors ask. -/
def following (source : BlockSource) (store : ChainStore) : Supervisor :=
  let idle := fresh ⟨"", ⟨.empty⟩, 1, 1, 1, false⟩
  { idle with
    cluster := { idle.cluster with chains := Table.empty.insert 5 store }
    sources := idle.sources.give .visitor 5 source }

/-- Four blocks are sealed, and the source has other blocks from number two on. Block three is
reported. The chain goes back to block one, and the cross-safe head, which is below, stays. -/
theorem followSource_answers_shared :
    let block (number : UInt64) (hash parent : UInt8) : BlockRef :=
      ⟨.ofBytes [hash], number, .ofBytes [parent], number⟩
    let steps : List Step := [.write (.initialise ⟨block 1 10 9, block 0 1 0⟩),
      .write (.seal (block 1 2 1) [⟨0, .ofBytes [7], none⟩]), .write (.seal (block 2 3 2) []),
      .write (.seal (block 3 4 3) []), .write (.setCrossUnsafe (block 2 3 2).toSeal),
      .write (.addDerived ⟨block 1 10 9, block 1 2 1⟩),
      .write (.addDerived ⟨block 2 11 10, block 2 3 2⟩),
      .write (.setFinalized (block 0 1 0).toSeal)]
    let source : BlockSource := fun number =>
      if number = 1 then .ok (block 1 2 1) else .ok (block number 99 98)
    let bad := (block 3 4 3).toSeal
    let zero := (block 0 1 0).toSeal
    let one := (block 1 2 1).toSeal
    ∃ last, (load .empty >>= fun new => new.run steps) = .ok last ∧
      last.state.heads =
        ⟨some bad, some (block 2 3 2).toSeal, some (block 2 3 2).toSeal, some zero, some zero⟩ ∧
      let supervisor := following source last
      let done := (supervisor.recovery .visitor 5).followSource bad supervisor
      done.1 = .ok (some one) ∧
        ∃ left, done.2.cluster.chains.get? 5 = some left ∧
          left.state.heads = ⟨some one, some one, some one, some zero, some zero⟩ ∧
          HighestCommon last.state source 0 3 one ∧ last.state.BackTo left.state one := by
  intro block steps source bad zero one
  obtain ⟨last, hrun⟩ : ∃ last, (load .empty >>= fun new => new.run steps) = .ok last := ⟨_, rfl⟩
  refine ⟨last, hrun, ?_⟩
  -- the heads before, the answer and the heads after
  have hfacts : (load .empty >>= fun new => new.run steps).toOption.map (fun last =>
      let supervisor := following source last
      let done := (supervisor.recovery .visitor 5).followSource bad supervisor
      (last.state.heads, done.1, (done.2.cluster.chains.get? 5).map (·.state.heads))) =
        some (⟨some bad, some (block 2 3 2).toSeal, some (block 2 3 2).toSeal, some zero, some zero⟩,
          .ok (some one), some ⟨some one, some one, some one, some zero, some zero⟩) := by
    decide +kernel
  rw [hrun] at hfacts
  obtain ⟨hbefore, hanswer, hafter⟩ : _ ∧ _ ∧ _ := by
    simpa only [Except.toOption, Option.map_some, Option.some.injEq, Prod.mk.injEq] using hfacts
  refine ⟨hbefore, ?_⟩
  intro supervisor done
  obtain ⟨left, hleft, hanswers⟩ :=
    @followSource_answers (following source last) 5 last steps bad (by decide) hrun rfl .visitor
  rw [hanswer] at hanswers
  obtain ⟨blocks, hsource, hcommon, hback⟩ := hanswers
  cases hsource
  have hfinalized : last.state.finalized = some zero := congrArg Heads.finalized hbefore
  rw [Ledger.floor, hfinalized] at hcommon
  rw [hleft] at hafter
  exact ⟨hanswer, left, hleft, Option.some.inj hafter, hcommon, hback⟩

end Supervisor

end CrossSafety
