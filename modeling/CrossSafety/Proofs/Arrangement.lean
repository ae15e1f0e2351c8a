import Mathlib.Data.List.Dedup

/-!
# Arrangements

A list without duplicates puts its elements in an order. That an element comes before another one is
said by a sublist of the two.
-/
namespace CrossSafety

theorem pair_sublist {α : Type} {R : α → α → Prop} {order : List α} (h : order.Pairwise R)
    {a b : α} (ha : a ∈ order) (hb : b ∈ order) (hne : a ≠ b) (hnot : ¬R b a) :
    [a, b].Sublist order := by
  induction order with
  | nil => exact absurd ha List.not_mem_nil
  | cons first rest ih =>
    obtain ⟨hfirst, hrest⟩ := List.pairwise_cons.mp h
    rcases List.mem_cons.mp ha with rfl | harest
    · rcases List.mem_cons.mp hb with rfl | hbrest
      · exact absurd rfl hne
      · exact (List.singleton_sublist.mpr hbrest).cons_cons _
    · rcases List.mem_cons.mp hb with rfl | hbrest
      · exact absurd (hfirst a harest) hnot
      · exact (ih hrest harest hbrest).cons _

/-- Elements can be listed so that lower keys come first. -/
theorem exists_sorted {α : Type} [DecidableEq α] (elements : List α) (key : α → Nat) :
    ∃ order : List α, order.Nodup ∧ (∀ a, a ∈ order ↔ a ∈ elements) ∧
      ∀ a ∈ order, ∀ b ∈ order, key a < key b → [a, b].Sublist order := by
  let lower (a b : α) : Bool := key a ≤ key b
  have hpairwise : (elements.dedup.mergeSort lower).Pairwise fun a b => lower a b = true :=
    @List.pairwise_mergeSort _ lower
      (fun a b c hab hbc => decide_eq_true (Nat.le_trans (of_decide_eq_true hab)
        (of_decide_eq_true hbc)))
      (fun a b => by simp only [lower, Bool.or_eq_true, decide_eq_true_eq]; omega) _
  refine ⟨elements.dedup.mergeSort lower,
    (List.mergeSort_perm _ _).nodup_iff.mpr (List.nodup_dedup elements), fun a => ?_,
    fun a ha b hb hlt => pair_sublist hpairwise ha hb (fun heq => ?_) fun hle => ?_⟩
  · rw [List.mem_mergeSort, List.mem_dedup]
  · rw [heq] at hlt
    exact Nat.lt_irrefl _ hlt
  · exact Nat.not_lt.mpr (of_decide_eq_true hle) hlt

/-- What comes first in an order without duplicates stands at a lower place. -/
theorem idxOf_lt_of_sublist {α : Type} [DecidableEq α] {order : List α} (hnodup : order.Nodup)
    {a b : α} (h : [a, b].Sublist order) : order.idxOf a < order.idxOf b := by
  induction order with
  | nil => cases h
  | cons first rest ih =>
    obtain ⟨hfirst, hrest⟩ := List.nodup_cons.mp hnodup
    cases h with
    | cons _ h =>
      have ha : first ≠ a := fun heq => hfirst (heq ▸ h.subset List.mem_cons_self)
      have hb : first ≠ b := fun heq => hfirst (heq ▸ h.subset (by simp))
      rw [List.idxOf_cons_ne _ ha, List.idxOf_cons_ne _ hb]
      exact Nat.succ_lt_succ (ih hrest h)
    | cons_cons _ h =>
      have hb : a ≠ b := fun heq => hfirst (heq ▸ List.singleton_sublist.mp h)
      rw [List.idxOf_cons_self, List.idxOf_cons_ne _ hb]
      exact Nat.succ_pos _

end CrossSafety
