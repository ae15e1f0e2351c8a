import CrossSafety.Proofs.LogStore.Codec
import CrossSafety.Proofs.Outcome
import Mathlib.Data.Nat.Size

/-!
# Finding the checkpoint to start from

`Indexed` says that the records at the places of the checkpoints are checkpoints whose positions
go up strictly. It is all that the bisection needs. `Bisects` is the loop of the bisection without the
limit on its turns: on such records it ends, and the checkpoints below its result are those below the
target. `findCheckpoint` then gives the last checkpoint that is not above the target, or none if there
is no such checkpoint.
-/
namespace CrossSafety

namespace Position

theorem lt_trans {a b c : Position} (hab : a < b) (hbc : b < c) : a < c := by
  rw [lt_def] at *; exact Nat.lt_trans hab hbc

theorem lt_irrefl (a : Position) : ¬a < a := by rw [lt_def]; exact Nat.lt_irrefl _

theorem lt_asymm {a b : Position} (hab : a < b) : ¬b < a :=
  fun hba => lt_irrefl a (lt_trans hab hba)

theorem lt_of_lt_of_le {a b c : Position} (hab : a < b) (hbc : ¬c < b) : a < c := by
  rw [lt_def] at *; omega

theorem lt_or_eq {a b : Position} (h : ¬b < a) : a < b ∨ a = b := by
  rcases Nat.lt_or_ge a.rank b.rank with hlt | hge
  · exact .inl hlt
  · exact .inr (rank_inj (Nat.le_antisymm (Nat.not_lt.mp h) hge))

end Position

namespace LogStore

/-- A bisection from `lo` to `hi` ends with a result after a number of turns. -/
inductive Bisects (records : Array Record) (target : Position) : Nat → Nat → Nat → Nat → Prop
  | done {lo hi : Nat} (met : hi ≤ lo) : Bisects records target 0 lo hi lo
  | upper {turns lo hi result : Nat} {checkpoint : Checkpoint} (apart : lo < hi)
      (read : checkpointAt records ((lo + (hi - lo) / 2) * checkpointSpacing) = .ok checkpoint)
      (below : checkpoint.position < target)
      (rest : Bisects records target turns (lo + (hi - lo) / 2 + 1) hi result) :
      Bisects records target (turns + 1) lo hi result
  | lower {turns lo hi result : Nat} {checkpoint : Checkpoint} (apart : lo < hi)
      (read : checkpointAt records ((lo + (hi - lo) / 2) * checkpointSpacing) = .ok checkpoint)
      (reached : ¬checkpoint.position < target)
      (rest : Bisects records target turns lo (lo + (hi - lo) / 2) result) :
      Bisects records target (turns + 1) lo hi result

/-- A limit that is not below the number of turns does not show in the result. -/
theorem Bisects.bisect_eq {records : Array Record} {target : Position}
    {turns lo hi result : Nat} (h : Bisects records target turns lo hi result) :
    ∀ limit, turns ≤ limit → bisect records target limit lo hi = .ok result := by
  induction h with
  | done met =>
    intro limit _
    cases limit with
    | zero => rfl
    | succ limit => rw [bisect, if_neg (Nat.not_lt.mpr met)]
  | upper apart read below rest ih =>
    intro limit hle
    obtain ⟨limit, rfl⟩ := Nat.exists_eq_add_of_lt hle
    rw [bisect, if_pos apart]
    dsimp only
    rw [read, Outcome.ok_bind, if_pos below]
    exact ih _ (Nat.le_add_right _ _)
  | lower apart read reached rest ih =>
    intro limit hle
    obtain ⟨limit, rfl⟩ := Nat.exists_eq_add_of_lt hle
    rw [bisect, if_pos apart]
    dsimp only
    rw [read, Outcome.ok_bind, if_neg reached]
    exact ih _ (Nat.le_add_right _ _)

/-- The records at the places of checkpoints hold these checkpoints, and their positions go up. -/
structure Indexed (records : Array Record) (checkpoints : List Checkpoint) : Prop where
  length_eq : checkpoints.length = (records.size + 255) / checkpointSpacing
  decoded : ∀ (i : Nat) (h : i < checkpoints.length),
    checkpointAt records (i * checkpointSpacing) = .ok checkpoints[i]
  sorted : checkpoints.Pairwise fun a b => a.position < b.position

namespace Indexed

variable {records : Array Record} {checkpoints : List Checkpoint}

theorem position_lt (h : Indexed records checkpoints) {i j : Nat} (hij : i < j)
    (hi : i < checkpoints.length) (hj : j < checkpoints.length) :
    checkpoints[i].position < checkpoints[j].position :=
  List.pairwise_iff_getElem.mp h.sorted i j hi hj hij

/-- Every turn halves the distance, so a bisection over checkpoints ends. -/
theorem exists_bisects (h : Indexed records checkpoints) (target : Position) :
    ∀ limit lo hi, hi ≤ checkpoints.length → (hi - lo).size ≤ limit →
      ∃ turns result, turns ≤ limit ∧ Bisects records target turns lo hi result := by
  intro limit
  induction limit with
  | zero =>
    intro lo hi _ hsmall
    have hmet : hi - lo = 0 := Nat.size_eq_zero.mp (Nat.le_zero.mp hsmall)
    exact ⟨0, lo, Nat.le_refl 0, .done (by omega)⟩
  | succ limit ih =>
    intro lo hi hlen hsmall
    have hhalf : ∀ distance, 2 * distance ≤ hi - lo → distance.size ≤ limit := by
      intro distance hle
      have hlt := Nat.size_le.mp hsmall
      rw [Nat.pow_succ] at hlt
      exact Nat.size_le.mpr (by omega)
    by_cases hlt : lo < hi
    · have hread := h.decoded (lo + (hi - lo) / 2) (by omega)
      by_cases hbelow : checkpoints[lo + (hi - lo) / 2].position < target
      · obtain ⟨turns, result, hturns, hrest⟩ :=
          ih (lo + (hi - lo) / 2 + 1) hi hlen (hhalf _ (by omega))
        exact ⟨turns + 1, result, Nat.succ_le_succ hturns, .upper hlt hread hbelow hrest⟩
      · obtain ⟨turns, result, hturns, hrest⟩ :=
          ih lo (lo + (hi - lo) / 2) (by omega) (hhalf _ (by omega))
        exact ⟨turns + 1, result, Nat.succ_le_succ hturns, .lower hlt hread hbelow hrest⟩
    · exact ⟨0, lo, Nat.zero_le _, .done (Nat.not_lt.mp hlt)⟩

/-- A bisection keeps everything below `lo` below the target and nothing from `hi` on. -/
theorem splits_of_bisects (h : Indexed records checkpoints) {target : Position}
    {turns lo hi k : Nat} (hbisects : Bisects records target turns lo hi k)
    (hlen : hi ≤ checkpoints.length) (hle : lo ≤ hi)
    (hlow : ∀ i (hl : i < checkpoints.length), i < lo → checkpoints[i].position < target)
    (hhigh : ∀ i (hl : i < checkpoints.length), hi ≤ i → ¬checkpoints[i].position < target) :
    k ≤ checkpoints.length ∧
      (∀ i (hl : i < checkpoints.length), i < k → checkpoints[i].position < target) ∧
      ∀ i (hl : i < checkpoints.length), k ≤ i → ¬checkpoints[i].position < target := by
  induction hbisects with
  | done met =>
    have heq := Nat.le_antisymm hle met
    exact ⟨heq ▸ hlen, hlow, heq ▸ hhigh⟩
  | @upper _ lo hi _ _ apart read below _ ih =>
    have hmid : lo + (hi - lo) / 2 < checkpoints.length := by omega
    cases (h.decoded _ hmid).symm.trans read
    refine ih hlen (by omega) (fun i hl hlt => ?_) hhigh
    rcases Nat.lt_or_eq_of_le (Nat.le_of_lt_succ hlt) with hlt | rfl
    · exact Position.lt_trans (h.position_lt hlt hl hmid) below
    · exact below
  | @lower _ lo hi _ _ apart read reached _ ih =>
    have hmid : lo + (hi - lo) / 2 < checkpoints.length := by omega
    cases (h.decoded _ hmid).symm.trans read
    refine ih (by omega) (by omega) hlow fun i hl hge hbelow => ?_
    rcases Nat.lt_or_eq_of_le hge with hlt | rfl
    · exact reached (Position.lt_trans (h.position_lt hlt hmid hl) hbelow)
    · exact reached hbelow

/-- The loop over all checkpoints ends within the limit that is put on it. -/
theorem bisects (h : Indexed records checkpoints) (target : Position) :
    ∃ turns below, Bisects records target turns 0 checkpoints.length below ∧
      turns ≤ checkpoints.length.size ∧
      ∀ limit, checkpoints.length ≤ limit →
        bisect records target limit 0 checkpoints.length = .ok below := by
  obtain ⟨turns, below, hturns, hbisects⟩ := h.exists_bisects target checkpoints.length.size 0
    checkpoints.length (Nat.le_refl _) (Nat.le_refl _)
  have hsize : checkpoints.length.size ≤ checkpoints.length := Nat.size_le.mpr Nat.lt_two_pow_self
  exact ⟨turns, below, hbisects, hturns, fun limit hlimit => hbisects.bisect_eq limit
    (Nat.le_trans hturns (Nat.le_trans hsize hlimit))⟩

/-- `count` is the number of checkpoints that are not above the target. -/
theorem findCheckpoint_eq (h : Indexed records checkpoints) (target : Position) :
    ∃ count, count ≤ checkpoints.length ∧
      findCheckpoint records target =
        .ok (if count = 0 then none else some ((count - 1) * checkpointSpacing)) ∧
      (∀ i (hi : i < checkpoints.length), i < count → ¬target < checkpoints[i].position) ∧
      ∀ i (hi : i < checkpoints.length), count ≤ i → target < checkpoints[i].position := by
  by_cases hsize : records.size = 0
  · have hlen : checkpoints.length = 0 := by rw [h.length_eq, hsize]; rfl
    exact ⟨0, Nat.zero_le _, by simp [findCheckpoint, hsize], by omega, by omega⟩
  · have hslots : (records.size - 1) / checkpointSpacing + 1 = checkpoints.length := by
      rw [h.length_eq, checkpointSpacing]; omega
    obtain ⟨_, k, hbisects, -, hresult⟩ := h.bisects target
    obtain ⟨hkle, hbelow, habove⟩ := h.splits_of_bisects hbisects (Nat.le_refl _) (Nat.zero_le _)
      (by omega) (by omega)
    have hk := hresult _ (Nat.le_refl _)
    by_cases hlt : k < checkpoints.length
    · have hread := h.decoded k hlt
      by_cases heq : checkpoints[k].position = target
      · -- the checkpoint of the target itself counts, and all later ones lie above it
        refine ⟨k + 1, hlt, ?_, fun i hi hik => ?_, fun i hi hik => ?_⟩
        · rw [findCheckpoint, if_neg hsize]
          simp only [hslots, hk, hread, if_pos hlt, Outcome.ok_bind, Outcome.pure_eq, heq,
            beq_self_eq_true, if_true, Nat.add_one_ne_zero, if_false, Nat.add_sub_cancel]
        · rcases Nat.lt_or_eq_of_le (Nat.le_of_lt_succ hik) with hl | rfl
          · exact Position.lt_asymm (hbelow i hi hl)
          · rw [heq]; exact Position.lt_irrefl _
        · exact heq ▸ h.position_lt hik hlt hi
      · refine ⟨k, hkle, ?_, fun i hi hik => Position.lt_asymm (hbelow i hi hik),
          fun i hi hik => ?_⟩
        · have hne : (checkpoints[k].position == target) = false := by simpa using heq
          rw [findCheckpoint, if_neg hsize]
          simp only [hslots, hk, hread, if_pos hlt, Outcome.ok_bind, Outcome.pure_eq, hne,
            Bool.false_eq_true, if_false]
          split <;> rfl
        · rcases Position.lt_or_eq (habove i hi hik) with hl | he
          · exact hl
          · rcases Nat.lt_or_eq_of_le hik with hl | rfl
            · exact absurd (he ▸ h.position_lt hl hlt hi) (habove k hlt (Nat.le_refl _))
            · exact absurd he.symm heq
    · refine ⟨k, hkle, ?_, fun i hi hik => Position.lt_asymm (hbelow i hi hik), by omega⟩
      rw [findCheckpoint, if_neg hsize]
      simp only [hslots, hk, if_neg hlt, Outcome.ok_bind, Outcome.pure_eq, Bool.false_eq_true,
        if_false]
      split <;> rfl

end Indexed

end LogStore

end CrossSafety
