import CrossSafety.Proofs.Safety.Promotion

/-!
# How a cascade proceeds

A cascade takes up one block after the other. It passes over a block that went with an earlier one
of its chain, and else reads what depends on the block and invalidates it. `Cascades` lists these
steps up to the end or the first failure, and what is proved of a cascade goes by induction on it.
-/
namespace CrossSafety

variable {σ : Type}

/-- What a cascade did: how many blocks it took up, which of them it invalidated, the failure that
stopped it, if any, and the state that it left. -/
structure CascadeRun (σ : Type) where
  taken : Nat
  blocks : List Dependent
  failure : Option CrossSafetyError
  after : σ

namespace CascadeRun

def result (run : CascadeRun σ) : Except CrossSafetyError (List Dependent) :=
  match run.failure with
  | none => .ok run.blocks
  | some error => .error error

theorem result_eq_ok {run : CascadeRun σ} {blocks : List Dependent} :
    run.result = .ok blocks ↔ run.failure = none ∧ run.blocks = blocks := by
  unfold result
  cases run.failure <;> simp

theorem result_eq_error {run : CascadeRun σ} {error : CrossSafetyError} :
    run.result = .error error ↔ run.failure = some error := by
  unfold result
  cases run.failure <;> simp

/-- A run that passed over a block before. -/
def passing (run : CascadeRun σ) : CascadeRun σ := { run with taken := run.taken + 1 }

/-- A run that invalidated a block before. -/
def dropping (run : CascadeRun σ) (block : Dependent) : CascadeRun σ :=
  { run with taken := run.taken + 1, blocks := block :: run.blocks }

theorem result_dropping (run : CascadeRun σ) (block : Dependent) :
    (run.dropping block).result = run.result.map (block :: ·) := by
  unfold result dropping
  cases run.failure <;> rfl

end CascadeRun

namespace SafetyStore

/-- Reads what depends on a block, invalidates the block, and goes on. -/
def dropping {α : Type} (store : SafetyStore σ) (next : Dependent)
    (later : List Dependent → Promotion σ α) : Promotion σ α := do
  let dependents ← store.check fun view =>
    .require (.dependents next.chain next.block.derived.id)
      (view.dependents next.chain next.block.derived.id)
  write (store.invalidate next.chain next.block)
  later dependents

/-- A cascade that gives up when it has taken up a number of blocks and others are left. -/
def cascadeWithin (store : SafetyStore σ) :
    Nat → Floors → List Dependent → Promotion σ (Option (List Dependent))
  | _, _, [] => pure (some [])
  | 0, _, _ :: _ => pure none
  | limit + 1, floors, next :: rest =>
    if floors.cover next.chain next.block.derived.number then cascadeWithin store limit floors rest
    else store.dropping next fun dependents => do
      let later ← cascadeWithin store limit
        (floors.insert next.chain next.block.derived.number) (dependents ++ rest)
      return later.map (next :: ·)

variable {store : SafetyStore σ}

/-- The steps of a cascade over some blocks. -/
inductive Cascades (store : SafetyStore σ) :
    Floors → List Dependent → σ → CascadeRun σ → Prop where
  | done (floors : Floors) (state : σ) : Cascades store floors [] state ⟨0, [], none, state⟩
  | covered {floors : Floors} {next : Dependent} {rest : List Dependent} {state : σ}
      {run : CascadeRun σ} (cover : floors.cover next.chain next.block.derived.number = true)
      (later : Cascades store floors rest state run) :
      Cascades store floors (next :: rest) state run.passing
  | unread {floors : Floors} {next : Dependent} {rest : List Dependent} {state noted : σ}
      {error : StorageError} (fresh : ¬floors.cover next.chain next.block.derived.number = true)
      (notes : store.Noted state noted)
      (read : (store.view state).dependents next.chain next.block.derived.id = .error error) :
      Cascades store floors (next :: rest) state ⟨1, [], some (.storage error), noted⟩
  | refused {floors : Floors} {next : Dependent} {rest dependents : List Dependent}
      {state noted after : σ} {error : StorageError}
      (fresh : ¬floors.cover next.chain next.block.derived.number = true)
      (notes : store.Noted state noted)
      (read : (store.view state).dependents next.chain next.block.derived.id = .ok dependents)
      (write : store.invalidate next.chain next.block noted = (.error error, after)) :
      Cascades store floors (next :: rest) state ⟨1, [], some (.storage error), after⟩
  | dropped {floors : Floors} {next : Dependent} {rest dependents : List Dependent}
      {state noted written : σ} {run : CascadeRun σ}
      (fresh : ¬floors.cover next.chain next.block.derived.number = true)
      (notes : store.Noted state noted)
      (read : (store.view state).dependents next.chain next.block.derived.id = .ok dependents)
      (write : store.invalidate next.chain next.block noted = (.ok (), written))
      (later : Cascades store (floors.insert next.chain next.block.derived.number)
        (dependents ++ rest) written run) :
      Cascades store floors (next :: rest) state (run.dropping next)

theorem cascade_fresh {floors : Floors} {next : Dependent} {rest : List Dependent}
    (hfresh : ¬floors.cover next.chain next.block.derived.number = true) :
    store.cascade floors (next :: rest) = store.dropping next fun dependents => do
      let later ← store.cascade (floors.insert next.chain next.block.derived.number)
        (dependents ++ rest)
      return next :: later := by
  rw [cascade, dif_neg hfresh]
  rfl

theorem cascadeWithin_fresh {floors : Floors} {next : Dependent} {rest : List Dependent}
    (hfresh : ¬floors.cover next.chain next.block.derived.number = true) (limit : Nat) :
    store.cascadeWithin (limit + 1) floors (next :: rest) = store.dropping next fun dependents => do
      let later ← store.cascadeWithin limit (floors.insert next.chain next.block.derived.number)
        (dependents ++ rest)
      return later.map (next :: ·) := by
  rw [cascadeWithin, if_neg hfresh]

theorem dropping_from (store : SafetyStore σ) (next : Dependent) (state : σ) :
    ∃ noted, store.Noted state noted ∧
      ∀ {α : Type} (later : List Dependent → Promotion σ α),
        (store.dropping next later).from state =
          match (store.view state).dependents next.chain next.block.derived.id with
          | .error error => (.error (.storage error), noted)
          | .ok dependents =>
            match store.invalidate next.chain next.block noted with
            | (.error error, after) => (.error (.storage error), after)
            | (.ok (), written) => (later dependents).from written := by
  obtain ⟨noted, hnotes, hcheck⟩ := store.check_from (fun view =>
    .require (.dependents next.chain next.block.derived.id)
      (view.dependents next.chain next.block.derived.id)) state
  refine ⟨noted, hnotes, fun later => ?_⟩
  rw [dropping, Promotion.from_bind, hcheck, Check.result_require]
  cases (store.view state).dependents next.chain next.block.derived.id with
  | error error => rfl
  | ok dependents =>
    rw [Outcome.mapError_ok]
    dsimp only
    rw [Promotion.from_bind, write_from]
    obtain ⟨written, after⟩ := store.invalidate next.chain next.block noted
    cases written <;> rfl

/-- A limit that a cascade does not exceed does not show, and another one does. -/
structure Limited (store : SafetyStore σ) (limit : Nat) (floors : Floors)
    (pending : List Dependent) (state : σ) (run : CascadeRun σ) : Prop where
  enough : run.taken ≤ limit →
    (store.cascadeWithin limit floors pending).from state = (run.result.map some, run.after)
  tooFew : limit < run.taken → ((store.cascadeWithin limit floors pending).from state).1 = .ok none

section Limited

variable {floors : Floors} {next : Dependent} {rest : List Dependent} {state : σ}
  {run : CascadeRun σ}

theorem Limited.zero (htaken : 0 < run.taken) :
    store.Limited 0 floors (next :: rest) state run :=
  ⟨fun hle => absurd htaken (Nat.not_lt.mpr hle), fun _ => rfl⟩

theorem Limited.passing (h : ∀ limit, store.Limited limit floors rest state run)
    (hcover : floors.cover next.chain next.block.derived.number = true) (limit : Nat) :
    store.Limited limit floors (next :: rest) state run.passing := by
  cases limit with
  | zero => exact .zero (Nat.succ_pos _)
  | succ limit =>
    have hstep : store.cascadeWithin (limit + 1) floors (next :: rest) =
        store.cascadeWithin limit floors rest := by rw [cascadeWithin, if_pos hcover]
    exact ⟨fun hle => hstep ▸ (h limit).enough (Nat.le_of_succ_le_succ hle),
      fun hlt => hstep ▸ (h limit).tooFew (Nat.lt_of_succ_lt_succ hlt)⟩

/-- A cascade that fails at once is the same with any limit. -/
theorem Limited.failed {error : CrossSafetyError} {after : σ}
    (hstep : ∀ limit, (store.cascadeWithin (limit + 1) floors (next :: rest)).from state =
      (.error error, after)) (limit : Nat) :
    store.Limited limit floors (next :: rest) state ⟨1, [], some error, after⟩ := by
  cases limit with
  | zero => exact .zero Nat.one_pos
  | succ limit =>
    exact ⟨fun _ => hstep limit, fun hlt => absurd (Nat.lt_of_succ_lt_succ hlt) (Nat.not_lt_zero _)⟩

theorem Limited.dropping {lowered : Floors} {pending : List Dependent} {written : σ}
    (h : ∀ limit, store.Limited limit lowered pending written run)
    (hstep : ∀ limit, (store.cascadeWithin (limit + 1) floors (next :: rest)).from state =
      (do return (← store.cascadeWithin limit lowered pending).map (next :: ·) :
        Promotion σ (Option (List Dependent))).from written) (limit : Nat) :
    store.Limited limit floors (next :: rest) state (run.dropping next) := by
  cases limit with
  | zero => exact .zero (Nat.succ_pos _)
  | succ limit =>
    refine ⟨fun hle => ?_, fun hlt => ?_⟩
    · rw [hstep, Promotion.from_map, (h limit).enough (Nat.le_of_succ_le_succ hle),
        CascadeRun.result_dropping]
      cases run.result <;> rfl
    · rw [hstep, Promotion.from_map, (h limit).tooFew (Nat.lt_of_succ_lt_succ hlt)]
      rfl

end Limited

/-- Every cascade comes to an end by these steps. -/
theorem exists_cascades (floors : Floors) (pending : List Dependent) (state : σ) :
    ∃ run, store.Cascades floors pending state run ∧
      (store.cascade floors pending).from state = (run.result, run.after) ∧
      ∀ limit, store.Limited limit floors pending state run := by
  induction floors, pending using cascade.induct generalizing state with
  | case1 floors =>
    refine ⟨_, .done floors state, by rw [cascade]; rfl, fun limit => ⟨fun _ => ?_, fun hlt => ?_⟩⟩
    · rw [cascadeWithin]
      rfl
    · exact absurd hlt (Nat.not_lt_zero limit)
  | case2 floors next rest hcovered ih =>
    obtain ⟨run, hrun, hresult, hlimited⟩ := ih state
    exact ⟨run.passing, .covered hcovered hrun, by rw [cascade, dif_pos hcovered]; exact hresult,
      .passing hlimited hcovered⟩
  | case3 floors next rest hfresh ih =>
    obtain ⟨noted, hnotes, hdropping⟩ := store.dropping_from next state
    rw [cascade_fresh hfresh]
    cases hread : (store.view state).dependents next.chain next.block.derived.id with
    | error error =>
      simp only [hread] at hdropping
      exact ⟨_, .unread hfresh hnotes hread, hdropping _,
        .failed fun limit => by rw [cascadeWithin_fresh hfresh, hdropping]⟩
    | ok dependents =>
      cases hwrite : store.invalidate next.chain next.block noted with
      | mk written after =>
        simp only [hread, hwrite] at hdropping
        cases written with
        | error error =>
          exact ⟨_, .refused hfresh hnotes hread hwrite, hdropping _,
            .failed fun limit => by rw [cascadeWithin_fresh hfresh, hdropping]⟩
        | ok done =>
          obtain ⟨run, hrun, hresult, hlimited⟩ := ih dependents after
          refine ⟨run.dropping next, .dropped hfresh hnotes hread hwrite hrun, ?_,
            .dropping hlimited fun limit => by rw [cascadeWithin_fresh hfresh, hdropping]⟩
          rw [hdropping]
          dsimp only
          rw [Promotion.from_map, hresult, CascadeRun.result_dropping]
          rfl

/-- A cascade that ends within a limit ends so without it. -/
theorem cascade_of_within {limit : Nat} {floors : Floors} {pending blocks : List Dependent}
    {state : σ}
    (h : ((store.cascadeWithin limit floors pending).from state).1 = .ok (some blocks)) :
    ((store.cascade floors pending).from state).1 = .ok blocks := by
  obtain ⟨run, -, hresult, hlimited⟩ := store.exists_cascades floors pending state
  rw [hresult]
  rcases Nat.lt_or_ge limit run.taken with hlt | hle
  · rw [(hlimited limit).tooFew hlt] at h
    cases h
  · rw [(hlimited limit).enough hle] at h
    dsimp only at h ⊢
    cases hrun : run.result with
    | error error =>
      rw [hrun] at h
      cases h
    | ok dropped =>
      rw [hrun] at h
      cases h
      rfl

/-- What every single invalidation preserves, a cascade preserves. -/
theorem Cascades.preserves {holds : σ → Prop} {due : Dependent → Prop}
    (hnoted : ∀ state after, store.Noted state after → holds state → holds after)
    (hdependents : ∀ state next dependents, holds state → due next →
      (store.view state).dependents next.chain next.block.derived.id = .ok dependents →
      ∀ dependent ∈ dependents, due dependent)
    (hinvalidate : ∀ state next, holds state → due next →
      holds (store.invalidate next.chain next.block state).2)
    {floors : Floors} {pending : List Dependent} {state : σ} {run : CascadeRun σ}
    (hrun : store.Cascades floors pending state run) (hpending : ∀ block ∈ pending, due block)
    (h : holds state) : holds run.after := by
  induction hrun with
  | done => exact h
  | covered _ _ ih => exact ih (List.forall_mem_cons.mp hpending).2 h
  | unread _ notes _ => exact hnoted _ _ notes h
  | refused _ notes _ write =>
    have hwritten := hinvalidate _ _ (hnoted _ _ notes h) (List.forall_mem_cons.mp hpending).1
    rwa [write] at hwritten
  | dropped _ notes read write _ ih =>
    obtain ⟨hnext, hrest⟩ := List.forall_mem_cons.mp hpending
    have hwritten := hinvalidate _ _ (hnoted _ _ notes h) hnext
    rw [write] at hwritten
    exact ih (List.forall_mem_append.mpr ⟨hdependents _ _ _ h hnext read, hrest⟩) hwritten

/-- What every single invalidation preserves holds after any cascade. -/
theorem cascade_preserves {holds : σ → Prop} {due : Dependent → Prop}
    (hnoted : ∀ state after, store.Noted state after → holds state → holds after)
    (hdependents : ∀ state next dependents, holds state → due next →
      (store.view state).dependents next.chain next.block.derived.id = .ok dependents →
      ∀ dependent ∈ dependents, due dependent)
    (hinvalidate : ∀ state next, holds state → due next →
      holds (store.invalidate next.chain next.block state).2)
    {floors : Floors} {blocks : List Dependent} (hblocks : ∀ block ∈ blocks, due block)
    {state : σ} (h : holds state) : holds ((store.cascade floors blocks).from state).2 := by
  obtain ⟨run, hrun, hresult, -⟩ := store.exists_cascades floors blocks state
  rw [hresult]
  exact hrun.preserves hnoted hdependents hinvalidate hblocks h

/-! ## The order of the blocks -/

/-- What is not covered by a floor that was lowered lies below the new floor, and was not covered
before. -/
theorem lt_of_fresh_insert {floors : Floors} {chain other : ChainId} {number floor : UInt64}
    (hlower : ¬floors.cover chain floor = true)
    (hfresh : ¬Floors.cover (floors.insert chain floor) other number = true) :
    (other = chain → number < floor) ∧ ¬floors.cover other number = true := by
  simp only [Floors.cover, Option.any_eq_true, decide_eq_true_eq, not_exists, not_and,
    UInt64.not_le] at hlower hfresh ⊢
  rcases Decidable.em (other = chain) with rfl | hne
  · have hlt := hfresh floor Table.get?_insert_self
    exact ⟨fun _ => hlt, fun known hget => UInt64.lt_trans hlt (hlower known hget)⟩
  · refine ⟨fun heq => absurd heq hne, fun known hget => hfresh known ?_⟩
    exact (Table.get?_insert_of_ne hne).trans hget

/-- A cascade invalidates no block above a floor. -/
theorem Cascades.fresh {floors : Floors} {pending : List Dependent} {state : σ} {run : CascadeRun σ}
    (hrun : store.Cascades floors pending state run) :
    ∀ block ∈ run.blocks, ¬floors.cover block.chain block.block.derived.number = true := by
  induction hrun with
  | done | unread | refused => exact fun _ hmem => absurd hmem List.not_mem_nil
  | covered _ _ ih => exact ih
  | dropped fresh _ _ _ _ ih =>
    exact List.forall_mem_cons.mpr
      ⟨fresh, fun block hmem => (lt_of_fresh_insert fresh (ih block hmem)).2⟩

/-- The blocks of one chain are invalidated from above. -/
theorem Cascades.descending {floors : Floors} {pending : List Dependent} {state : σ}
    {run : CascadeRun σ} (hrun : store.Cascades floors pending state run) :
    run.blocks.Pairwise fun first later => first.chain = later.chain →
      later.block.derived.number < first.block.derived.number := by
  induction hrun with
  | done | unread | refused => exact .nil
  | covered _ _ ih => exact ih
  | dropped fresh _ _ _ later ih =>
    refine List.pairwise_cons.mpr ⟨fun block hmem hchain => ?_, ih⟩
    exact (lt_of_fresh_insert fresh (later.fresh block hmem)).1 hchain.symm

/-- A cascade from one block starts with that block. -/
theorem Cascades.head_eq {start : Dependent} {state : σ} {run : CascadeRun σ}
    (hrun : store.Cascades .empty [start] state run) (hdone : run.failure = none) :
    run.blocks.head? = some start := by
  cases hrun with
  | covered cover => cases cover
  | unread | refused => cases hdone
  | dropped => rfl

end SafetyStore

end CrossSafety
