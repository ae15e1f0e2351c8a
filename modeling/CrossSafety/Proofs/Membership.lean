import CrossSafety.Config
import CrossSafety.Proofs.Table
import Mathlib.Data.List.Nodup

/-!
# Ids and indices of the members

A set is walked in an order that is not its own. `Roster.Lists` says that a walk meets each member
once, in whatever order, and all that is said here holds for every such walk: the test for distinct
indices is right, and if it passes, ids and indices answer each other and the chains come in the order
of their indices.
-/
namespace CrossSafety

section Sorted

variable {indices : List MemberIndex}

/-- Equal elements of a sorted list stand next to each other. -/
theorem neighbours_differ_iff (hsorted : indices.Pairwise (· ≤ ·)) :
    ((indices.zip indices.tail).all fun (index, next) => index != next) = true ↔
      indices.Pairwise (· < ·) := by
  induction indices with
  | nil => simp
  | cons first rest ih =>
    obtain ⟨hfirst, hrest⟩ := List.pairwise_cons.mp hsorted
    cases rest with
    | nil => simp
    | cons second rest =>
      have hstep : (((first :: second :: rest).zip (second :: rest)).all
            fun (index, next) => index != next) = true ↔
          first ≠ second ∧ (second :: rest).Pairwise (· < ·) := by
        rw [List.zip_cons_cons, List.all_cons, Bool.and_eq_true, bne_iff_ne, ← ih hrest]
        rfl
      rw [List.tail_cons, hstep]
      refine Iff.trans (and_congr_left fun hascending => ⟨?_, ?_⟩) List.pairwise_cons.symm
      · intro hne other hmem
        have hlt := UInt32.lt_of_le_of_ne (hfirst second List.mem_cons_self) hne
        rcases List.mem_cons.mp hmem with rfl | hmem
        · exact hlt
        · exact UInt32.lt_trans hlt ((List.pairwise_cons.mp hascending).1 other hmem)
      · exact fun hlt => UInt32.ne_of_lt (hlt second List.mem_cons_self)

theorem ascending_iff_nodup (hsorted : indices.Pairwise (· ≤ ·)) :
    indices.Pairwise (· < ·) ↔ indices.Nodup :=
  ⟨fun h => h.imp UInt32.ne_of_lt, fun h =>
    (hsorted.and h).imp fun ⟨hle, hne⟩ => UInt32.lt_of_le_of_ne hle hne⟩

end Sorted

namespace Roster

theorem hasDistinctIndices_iff {roster : Roster} :
    roster.hasDistinctIndices = true ↔ (roster.map fun entry => entry.2.index).Nodup := by
  have hsorted : ((roster.map fun entry => entry.2.index).mergeSort).Pairwise (· ≤ ·) := by
    refine (List.pairwise_mergeSort (fun a b c hab hbc => ?_) (fun a b => ?_) _).imp
      of_decide_eq_true
    · exact decide_eq_true (UInt32.le_trans (of_decide_eq_true hab) (of_decide_eq_true hbc))
    · rw [Bool.or_eq_true, decide_eq_true_eq, decide_eq_true_eq]
      exact UInt32.le_total a b
  rw [hasDistinctIndices, neighbours_differ_iff hsorted, ascending_iff_nodup hsorted,
    (List.mergeSort_perm _ _).nodup_iff]

/-- The sort does not reduce in a proof, so the test is decided by what it stands for. -/
instance (roster : Roster) : Decidable (roster.hasDistinctIndices = true) :=
  decidable_of_iff _ hasDistinctIndices_iff.symm

/-- A walk over a set meets each member once. -/
def Lists (roster : Roster) (set : Membership) : Prop := roster.Perm set.members.toList

theorem precedes_iff {a b : MemberIndex × ChainId} :
    precedes a b = true ↔ a.1 < b.1 ∨ a.1 = b.1 ∧ a.2 ≤ b.2 := by
  simp [precedes]

theorem precedes_trans {a b c : MemberIndex × ChainId} (hab : precedes a b = true)
    (hbc : precedes b c = true) : precedes a c = true := by
  simp only [precedes_iff, UInt32.lt_iff_toNat_lt, ← UInt32.toNat_inj,
    UInt64.le_iff_toNat_le] at *
  omega

theorem precedes_total (a b : MemberIndex × ChainId) :
    (precedes a b || precedes b a) = true := by
  simp only [Bool.or_eq_true, precedes_iff, UInt32.lt_iff_toNat_lt, ← UInt32.toNat_inj,
    UInt64.le_iff_toNat_le]
  omega

end Roster

namespace Membership

/-- No two members share an index. -/
def IndicesDiffer (set : Membership) : Prop :=
  ∀ a b first second, set.members.get? a = some first → set.members.get? b = some second →
    first.index = second.index → a = b

variable {set : Membership} {index : MemberIndex} {chain : ChainId}

theorem roster_lists (set : Membership) : set.roster.Lists set := .refl _

theorem indexOfId_eq_ok :
    set.indexOfId chain = .ok index ↔
      ∃ member, set.members.get? chain = some member ∧ member.index = index := by
  unfold indexOfId member
  cases set.members.get? chain with
  | none =>
    simp only [reduceCtorEq, false_and, exists_false, iff_false]
    exact fun h => nomatch h
  | some member =>
    simp only [Option.some.injEq, exists_eq_left']
    exact ⟨fun h => Except.ok.inj h, fun h => congrArg Except.ok h⟩

theorem indexOfId_of_none (h : set.members.get? chain = none) :
    set.indexOfId chain = .error (.unknownChain chain) := by
  rw [indexOfId, member, h]
  rfl

end Membership

namespace Roster.Lists

variable {set : Membership} {roster : Roster} {index : MemberIndex} {chain : ChainId}
  {member : Member}

theorem mem_iff (h : roster.Lists set) :
    (chain, member) ∈ roster ↔ set.members.get? chain = some member :=
  (List.Perm.mem_iff h).trans Table.mem_toList

theorem nodup_indices_iff (h : roster.Lists set) :
    (roster.map fun entry => entry.2.index).Nodup ↔ set.IndicesDiffer := by
  have hnodup : roster.Nodup :=
    (List.Perm.nodup_iff h).mpr (List.Nodup.of_map _ set.members.keys_nodup)
  rw [List.nodup_map_iff_inj_on hnodup]
  constructor
  · intro hinj a b first second hfirst hsecond hindex
    exact congrArg Prod.fst (hinj _ (h.mem_iff.mpr hfirst) _ (h.mem_iff.mpr hsecond) hindex)
  · rintro hdiffer ⟨a, first⟩ hfirst ⟨b, second⟩ hsecond hindex
    have hfirst := h.mem_iff.mp hfirst
    have hsecond := h.mem_iff.mp hsecond
    obtain rfl := hdiffer a b first second hfirst hsecond hindex
    cases hfirst.symm.trans hsecond
    rfl

theorem hasDistinctIndices_iff (h : roster.Lists set) :
    roster.hasDistinctIndices = true ↔ set.IndicesDiffer :=
  Roster.hasDistinctIndices_iff.trans h.nodup_indices_iff

/-- The id that is found for an index belongs to a member with that index. -/
theorem indexOfId_of_idOfIndex (h : roster.Lists set) (hid : roster.idOfIndex index = .ok chain) :
    set.indexOfId chain = .ok index := by
  unfold idOfIndex at hid
  split at hid
  · rename_i entry hfind
    cases hid
    exact Membership.indexOfId_eq_ok.mpr ⟨entry.2, h.mem_iff.mp (List.mem_of_find?_eq_some hfind),
      of_decide_eq_true (List.find?_some hfind :)⟩
  · cases hid

theorem idOfIndex_of_unused (h : roster.Lists set)
    (hunused : ∀ chain member, set.members.get? chain = some member → member.index ≠ index) :
    roster.idOfIndex index = .error (.unknownIndex index) := by
  have hnone : (roster.find? fun entry => entry.2.index = index) = none := by
    rw [List.find?_eq_none]
    intro entry hmem hindex
    exact hunused entry.1 entry.2 (h.mem_iff.mp hmem) (of_decide_eq_true hindex)
  rw [idOfIndex, hnone]

/-- If no two members share an index, the first member with an index is the only one. -/
theorem idOfIndex_of_indexOfId (h : roster.Lists set) (hdiffer : set.IndicesDiffer)
    (hindex : set.indexOfId chain = .ok index) : roster.idOfIndex index = .ok chain := by
  obtain ⟨member, hmember, rfl⟩ := Membership.indexOfId_eq_ok.mp hindex
  cases hid : roster.idOfIndex member.index with
  | ok found =>
    obtain ⟨other, hother, hsame⟩ := Membership.indexOfId_eq_ok.mp (h.indexOfId_of_idOfIndex hid)
    rw [hdiffer found chain other member hother hmember hsame]
  | error e =>
    unfold idOfIndex at hid
    split at hid
    · cases hid
    · rename_i hnone
      exact absurd (decide_eq_true rfl) (List.find?_eq_none.mp hnone _ (h.mem_iff.mpr hmember))

theorem chains_perm (h : roster.Lists set) : roster.chains.Perm set.members.keys := by
  refine ((List.mergeSort_perm _ _).map Prod.snd).trans ?_
  rw [List.map_map]
  exact h.map Prod.fst

theorem chains_ascending (h : roster.Lists set) (hdiffer : set.IndicesDiffer) :
    roster.chains.Pairwise fun a b => ∃ i j, set.indexOfId a = .ok i ∧ set.indexOfId b = .ok j ∧
      i < j := by
  let entries := roster.map fun entry => (entry.2.index, entry.1)
  have hsorted : (entries.mergeSort precedes).Pairwise fun a b => precedes a b = true :=
    @List.pairwise_mergeSort _ precedes (fun _ _ _ => precedes_trans) precedes_total entries
  have hdistinct : (entries.mergeSort precedes).Pairwise fun a b => a.1 ≠ b.1 := by
    have hperm := (List.mergeSort_perm entries precedes).map Prod.fst
    refine List.pairwise_map.mp (hperm.nodup_iff.mpr ?_)
    rw [List.map_map]
    exact h.nodup_indices_iff.mpr hdiffer
  have hmember : ∀ entry ∈ entries.mergeSort precedes, set.indexOfId entry.2 = .ok entry.1 := by
    intro entry hentry
    obtain ⟨⟨chain, member⟩, hmem, rfl⟩ := List.mem_map.mp (List.mem_mergeSort.mp hentry)
    exact Membership.indexOfId_eq_ok.mpr ⟨member, h.mem_iff.mp hmem, rfl⟩
  rw [chains, List.pairwise_map]
  refine (hsorted.and hdistinct).imp_of_mem fun ha hb ⟨hle, hne⟩ =>
    ⟨_, _, hmember _ ha, hmember _ hb, ?_⟩
  exact (precedes_iff.mp hle).resolve_right fun hsame => hne hsame.1

end Roster.Lists

namespace Membership

variable {set : Membership} {index : MemberIndex} {chain : ChainId}

/-- The id of an index belongs to a member with that index. -/
theorem indexOfId_of_idOfIndex (h : set.idOfIndex index = .ok chain) :
    set.indexOfId chain = .ok index :=
  set.roster_lists.indexOfId_of_idOfIndex h

/-- If no two members share an index, the id of a member's index is the member. -/
theorem idOfIndex_of_indexOfId (hdistinct : set.hasDistinctIndices = true)
    (h : set.indexOfId chain = .ok index) : set.idOfIndex index = .ok chain :=
  set.roster_lists.idOfIndex_of_indexOfId (set.roster_lists.hasDistinctIndices_iff.mp hdistinct) h

instance (set : Membership) : Decidable (set.hasDistinctIndices = true) :=
  inferInstanceAs (Decidable (set.roster.hasDistinctIndices = true))

/-- Ids and indices of the members answer each other, nothing else has an answer, and the chains are
the members in the order of their indices. -/
structure AnsweredBy (set : Membership) (roster : Roster) : Prop where
  inverse : ∀ chain index,
    set.indexOfId chain = .ok index ↔ roster.idOfIndex index = .ok chain
  index_of_member : ∀ chain member, set.members.get? chain = some member →
    set.indexOfId chain = .ok member.index
  unknown_chain : ∀ chain, set.members.get? chain = none →
    set.indexOfId chain = .error (.unknownChain chain)
  unknown_index : ∀ index,
    (∀ chain member, set.members.get? chain = some member → member.index ≠ index) →
      roster.idOfIndex index = .error (.unknownIndex index)
  /-- No member is listed twice. -/
  once : roster.chains.Nodup
  listed : ∀ chain, chain ∈ roster.chains ↔ ∃ member, set.members.get? chain = some member
  ascending : roster.chains.Pairwise fun a b =>
    ∃ i j, set.indexOfId a = .ok i ∧ set.indexOfId b = .ok j ∧ i < j

theorem IndicesDiffer.answeredBy (hdiffer : set.IndicesDiffer) {roster : Roster}
    (h : roster.Lists set) : set.AnsweredBy roster where
  inverse _ _ := ⟨h.idOfIndex_of_indexOfId hdiffer, h.indexOfId_of_idOfIndex⟩
  index_of_member _ member hmember := indexOfId_eq_ok.mpr ⟨member, hmember, rfl⟩
  unknown_chain _ := indexOfId_of_none
  unknown_index _ := h.idOfIndex_of_unused
  once := h.chains_perm.nodup_iff.mpr set.members.keys_nodup
  listed _ := h.chains_perm.mem_iff.trans Table.mem_keys
  ascending := h.chains_ascending hdiffer

/-- In whatever order a set is walked, its indices pass the test exactly if no two members share one.
Then every other walk answers the same: ids and indices belong to each other, and the chains come in
the order of their indices. -/
theorem index_bijection {set : Membership} {roster : Roster} (h : roster.Lists set) :
    (roster.hasDistinctIndices = true ↔ set.IndicesDiffer) ∧
      (roster.hasDistinctIndices = true →
        ∀ walk : Roster, walk.Lists set → set.AnsweredBy walk) :=
  ⟨h.hasDistinctIndices_iff, fun hdistinct _ hwalk =>
    (h.hasDistinctIndices_iff.mp hdistinct).answeredBy hwalk⟩

/-- Ids, indices and the second walk are in three different orders. -/
theorem index_bijection_mixed :
    let member (index : MemberIndex) : Member := ⟨index, 0, 0⟩
    let set : Membership := ⟨.ofList [(900, member 2), (901, member 0), (902, member 1)]⟩
    let walk : Roster := [(901, member 0), (900, member 2), (902, member 1)]
    set.hasDistinctIndices = true ∧ walk.Lists set ∧ set.AnsweredBy walk := by
  intro member set walk
  have hdistinct : set.hasDistinctIndices = true := by decide
  have hwalk : walk.Lists set := by
    unfold Roster.Lists
    decide
  exact ⟨hdistinct, hwalk, (index_bijection set.roster_lists).2 hdistinct walk hwalk⟩

end Membership

namespace Config

/-- With a configuration that passes its check, no lookup of an id or an index depends on the order
in which the members are met. -/
theorem answeredBy_of_validate {config : Config} (h : config.validate = .ok ()) {walk : Roster}
    (hwalk : walk.Lists config.dependencySet) : config.dependencySet.AnsweredBy walk := by
  have hdistinct : config.dependencySet.hasDistinctIndices = true := by
    unfold validate at h
    split at h
    · cases h
    split at h
    · cases h
    · rename_i hpassed
      simpa using hpassed
  exact (config.dependencySet.roster_lists.hasDistinctIndices_iff.mp hdistinct).answeredBy hwalk

end Config

end CrossSafety
