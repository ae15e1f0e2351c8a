import CrossSafety.Safety.Order

/-!
# When logs can be placed

A ranking of the logs never goes down within a block, and ranks a log that is waited for below
the log that waits. The logs can be placed exactly if there is a ranking: the rounds in which logs
are placed make one, and under a ranking the lowest of the logs that wait is never stuck.
-/
namespace CrossSafety.WaitingLogs

/-- Blocks of different chains, each with its waits in the order of the block. -/
structure WellFormed (blocks : List WaitingLogs) : Prop where
  distinct : ∀ a ∈ blocks, ∀ b ∈ blocks, a.chain = b.chain → a = b
  sorted : ∀ block ∈ blocks, block.waits.Pairwise fun a b => a.log < b.log

/-- Ranks that respect the order of each block and the waits. -/
structure Ranks (rank : MemberIndex → Nat → Nat) (blocks : List WaitingLogs) : Prop where
  mono : ∀ chain a b, a ≤ b → rank chain a ≤ rank chain b
  waits : ∀ block ∈ blocks, ∀ wait ∈ block.waits,
    rank wait.chain wait.target < rank block.chain wait.log

variable {blocks : List WaitingLogs} {block : WaitingLogs} {rank : MemberIndex → Nat → Nat}

/-! ## One round -/

/-- A block after a round that starts from other blocks. -/
def shortened (blocks : List WaitingLogs) (block : WaitingLogs) : WaitingLogs :=
  { block with
    waits := block.waits.dropWhile fun wait => wait.target < placedOn blocks wait.chain }

theorem mem_advance {next : WaitingLogs} :
    next ∈ advance blocks ↔ ∃ block ∈ blocks, shortened blocks block = next := List.mem_map

theorem shortened_subset {wait : LogWait} (h : wait ∈ (shortened blocks block).waits) :
    wait ∈ block.waits :=
  (List.dropWhile_sublist _).subset h

theorem WellFormed.advance (h : WellFormed blocks) : WellFormed (advance blocks) where
  distinct := by
    intro nextA hnextA nextB hnextB heq
    obtain ⟨a, ha, rfl⟩ := mem_advance.mp hnextA
    obtain ⟨b, hb, rfl⟩ := mem_advance.mp hnextB
    rw [h.distinct a ha b hb heq]
  sorted := by
    intro next hnext
    obtain ⟨block, hblock, rfl⟩ := mem_advance.mp hnext
    exact (h.sorted block hblock).sublist (List.dropWhile_sublist _)

theorem Ranks.advance (h : Ranks rank blocks) : Ranks rank (advance blocks) where
  mono := h.mono
  waits := by
    intro next hnext wait hwait
    obtain ⟨block, hblock, rfl⟩ := mem_advance.mp hnext
    exact h.waits block hblock wait (shortened_subset hwait)

theorem placedOn_eq (h : WellFormed blocks) (hmem : block ∈ blocks) :
    placedOn blocks block.chain = block.placed := by
  cases hfind : blocks.find? fun other => other.chain = block.chain with
  | none =>
    have hnone := List.find?_eq_none.mp hfind block hmem
    exact absurd (decide_eq_true rfl) hnone
  | some found =>
    have hchain : found.chain = block.chain := of_decide_eq_true (List.find?_some hfind :)
    have heq := h.distinct found (List.mem_of_find?_eq_some hfind) block hmem hchain
    rw [placedOn, hfind, heq]
    rfl

theorem placed_le (h : WellFormed blocks) (hmem : block ∈ blocks) {wait : LogWait}
    (hwait : wait ∈ block.waits) : block.placed ≤ wait.log := by
  have hsorted := h.sorted block hmem
  rw [placed]
  cases hwaits : block.waits with
  | nil =>
    rw [hwaits] at hwait
    exact absurd hwait List.not_mem_nil
  | cons first rest =>
    rw [hwaits] at hwait hsorted
    rcases List.mem_cons.mp hwait with rfl | hrest
    · exact Nat.le_refl _
    · exact Nat.le_of_lt ((List.pairwise_cons.mp hsorted).1 wait hrest)

/-- A wait that a round ends was for a placed log. -/
theorem lt_placedOn_of_dropped {wait : LogWait} (hwait : wait ∈ block.waits)
    (hdropped : wait ∉ (shortened blocks block).waits) :
    wait.target < placedOn blocks wait.chain := by
  rw [← List.takeWhile_append_dropWhile (l := block.waits)
    (p := fun wait => wait.target < placedOn blocks wait.chain)] at hwait
  rcases List.mem_append.mp hwait with htaken | hkept
  · exact of_decide_eq_true (List.all_eq_true.mp List.all_takeWhile wait htaken)
  · exact absurd hkept hdropped

/-! ## Placed logs have ranks -/

/-- The ranks before a round: what is placed comes first. -/
def rankBefore (blocks : List WaitingLogs) (rank : MemberIndex → Nat → Nat) (chain : MemberIndex)
    (log : Nat) : Nat :=
  if log < placedOn blocks chain then 0 else rank chain log + 1

theorem rankBefore_le (chain : MemberIndex) (log : Nat) :
    rankBefore blocks rank chain log ≤ rank chain log + 1 := by
  rw [rankBefore]
  split <;> omega

theorem Ranks.before (h : WellFormed blocks) (hrank : Ranks rank (WaitingLogs.advance blocks)) :
    Ranks (rankBefore blocks rank) blocks where
  mono := by
    intro chain a b hle
    have hmono := hrank.mono chain a b hle
    rw [rankBefore, rankBefore]
    split <;> split <;> omega
  waits := by
    intro block hmem wait hwait
    have hlog : rankBefore blocks rank block.chain wait.log = rank block.chain wait.log + 1 := by
      refine if_neg (Nat.not_lt.mpr ?_)
      rw [placedOn_eq h hmem]
      exact placed_le h hmem hwait
    rw [hlog]
    by_cases hkept : wait ∈ (shortened blocks block).waits
    · have hlt := hrank.waits _ (mem_advance.mpr ⟨block, hmem, rfl⟩) wait hkept
      exact Nat.lt_of_le_of_lt (rankBefore_le _ _) (Nat.succ_lt_succ hlt)
    · rw [rankBefore, if_pos (lt_placedOn_of_dropped hwait hkept)]
      exact Nat.succ_pos _

theorem Ranks.of_settled (h : ∀ block ∈ blocks, block.waits.isEmpty = true) :
    Ranks (fun _ _ => 0) blocks where
  mono _ _ _ _ := Nat.le_refl _
  waits := by
    intro block hmem wait hwait
    rw [List.isEmpty_iff.mp (h block hmem)] at hwait
    exact absurd hwait List.not_mem_nil

/-- Logs that can be placed have ranks: the rounds in which they are placed. -/
theorem exists_ranks (h : WellFormed blocks) (hplaced : canBePlaced blocks = true) :
    ∃ rank bound, Ranks rank blocks ∧ ∀ chain log, rank chain log ≤ bound := by
  rw [canBePlaced, List.all_eq_true] at hplaced
  induction blocks using settle.induct with
  | case1 blocks next hless ih =>
    rw [settle, if_pos hless] at hplaced
    obtain ⟨rank, bound, hranks, hbound⟩ := ih h.advance hplaced
    refine ⟨rankBefore blocks rank, bound + 1, Ranks.before h hranks, fun chain log => ?_⟩
    exact Nat.le_trans (rankBefore_le chain log) (Nat.succ_le_succ (hbound chain log))
  | case2 blocks next hstuck =>
    rw [settle, if_neg hstuck] at hplaced
    exact ⟨_, 0, .of_settled hplaced, fun _ _ => Nat.le_refl 0⟩

/-! ## Ranked logs can be placed -/

/-- Every log that is waited for belongs to one of the blocks. -/
def Targeted (blocks : List WaitingLogs) : Prop :=
  ∀ block ∈ blocks, ∀ wait ∈ block.waits,
    ∃ initiating ∈ blocks, initiating.chain = wait.chain ∧ wait.target < initiating.logCount

theorem Targeted.advance (h : Targeted blocks) : Targeted (WaitingLogs.advance blocks) := by
  intro next hnext wait hwait
  obtain ⟨block, hblock, rfl⟩ := mem_advance.mp hnext
  obtain ⟨initiating, hmem, hchain, hlt⟩ := h block hblock wait (shortened_subset hwait)
  exact ⟨shortened blocks initiating, mem_advance.mpr ⟨initiating, hmem, rfl⟩, hchain, hlt⟩

theorem waiting_append (front back : List WaitingLogs) :
    waiting (front ++ back) = waiting front + waiting back := by
  induction front with
  | nil => exact (Nat.zero_add _).symm
  | cons block rest ih => rw [List.cons_append, waiting, waiting, ih, Nat.add_assoc]

theorem length_shortened_le (blocks : List WaitingLogs) (block : WaitingLogs) :
    (shortened blocks block).waits.length ≤ block.waits.length :=
  (List.dropWhile_sublist _).length_le

theorem waiting_shortened_le (blocks : List WaitingLogs) (others : List WaitingLogs) :
    waiting (others.map (shortened blocks)) ≤ waiting others := by
  induction others with
  | nil => exact Nat.le_refl _
  | cons other rest ih =>
    have hother := length_shortened_le blocks other
    rw [List.map_cons, waiting, waiting]
    omega

/-- A round ends some wait if a block's first wait is for a placed log. -/
theorem waiting_advance_lt (hmem : block ∈ blocks) {wait : LogWait} {rest : List LogWait}
    (hwaits : block.waits = wait :: rest) (hlt : wait.target < placedOn blocks wait.chain) :
    waiting (advance blocks) < waiting blocks := by
  have hshort : (shortened blocks block).waits.length < block.waits.length := by
    rw [shortened, hwaits]
    dsimp only
    rw [List.dropWhile_cons, if_pos (decide_eq_true hlt)]
    exact Nat.lt_succ_of_le (List.dropWhile_sublist _).length_le
  obtain ⟨front, back, heq⟩ := List.append_of_mem hmem
  have hfront := waiting_shortened_le blocks front
  have hback := waiting_shortened_le blocks back
  change waiting (blocks.map (shortened blocks)) < _
  generalize shortened blocks = short at *
  subst heq
  rw [List.map_append, List.map_cons, waiting_append, waiting_append, waiting, waiting]
  omega

/-- If no wait can end, none is left: the lowest log that waits would wait for a placed log. -/
theorem waits_eq_nil (h : WellFormed blocks) (htargets : Targeted blocks)
    (hranks : Ranks rank blocks) (hstuck : ¬waiting (WaitingLogs.advance blocks) < waiting blocks)
    (hmem : block ∈ blocks) : block.waits = [] := by
  cases hwaits : block.waits with
  | nil => rfl
  | cons wait rest =>
    exfalso
    generalize hn : rank block.chain wait.log = n
    induction n using Nat.strongRecOn generalizing block wait rest with
    | ind n ih =>
      have hwait : wait ∈ block.waits := hwaits ▸ List.mem_cons_self
      obtain ⟨initiating, hinitiating, hchain, hinside⟩ := htargets block hmem wait hwait
      have hplaced : initiating.placed ≤ wait.target := by
        rw [← placedOn_eq h hinitiating, hchain]
        exact Nat.not_lt.mp fun hlt => hstuck (waiting_advance_lt hmem hwaits hlt)
      cases hnext : initiating.waits with
      | nil =>
        rw [placed, hnext] at hplaced
        exact absurd hinside (Nat.not_lt.mpr hplaced)
      | cons lower others =>
        rw [placed, hnext] at hplaced
        have hle := hranks.mono initiating.chain lower.log wait.target hplaced
        have hlt := hranks.waits block hmem wait hwait
        rw [hchain] at hle
        exact ih _ (hn ▸ Nat.lt_of_le_of_lt hle hlt) hinitiating lower others hnext
          (by rw [hchain])

/-- Logs that have ranks can be placed. -/
theorem canBePlaced_of_ranks (h : WellFormed blocks) (htargets : Targeted blocks)
    (hranks : Ranks rank blocks) : canBePlaced blocks = true := by
  rw [canBePlaced, List.all_eq_true]
  induction blocks using settle.induct with
  | case1 blocks next hless ih =>
    rw [settle, if_pos hless]
    exact ih h.advance htargets.advance hranks.advance
  | case2 blocks next hstuck =>
    rw [settle, if_neg hstuck]
    exact fun block hmem => List.isEmpty_iff.mpr (waits_eq_nil h htargets hranks hstuck hmem)

end CrossSafety.WaitingLogs
