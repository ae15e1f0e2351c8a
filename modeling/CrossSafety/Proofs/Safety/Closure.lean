import CrossSafety.Proofs.Safety.Promotion
import Mathlib.Data.List.Nodup
import Mathlib.Data.List.Perm.Subperm

/-!
# Hazard sets are closures

The blocks that can be reached from a block by messages of its timestamp make its closure. A search
ends with a hazard set exactly if the block and its closure pass their checks, no two blocks of the
closure are of one chain, and the limit allows for all of them. The hazard set is then the closure,
in whatever order the search went.
-/
namespace CrossSafety

/-- The checks of a single block: it is stored under its number and hash, and all its messages
pass. -/
def Vetted (view : SafetyView) (set : DependencySet) (valid : ChainId → BlockSeal → Prop)
    (next : PendingBlock) : Prop :=
  ∃ opened, view.blockAt next.chain next.block.number = .ok opened ∧
    opened.block.id = next.block.id ∧
    ∀ logIndex message, opened.messages.get? logIndex = some message →
      ∃ ownIndex chain holder,
        MessagePasses view set valid next ownIndex logIndex message chain holder

/-- A block can be reached by one or more messages that carry the timestamp of the block that
executes them. -/
abbrev SafetyView.Reaches (view : SafetyView) (set : DependencySet) :
    PendingBlock → PendingBlock → Prop :=
  Relation.TransGen (view.Refers set)

/-- What it takes to build the hazard set of a block. -/
structure Closable (view : SafetyView) (set : DependencySet) (valid : ChainId → BlockSeal → Prop)
    (limit : Nat) (start : PendingBlock) : Prop where
  first : Vetted view set valid start
  reached : ∀ block, view.Reaches set start block → Vetted view set valid block
  unique : ∀ a b, view.Reaches set start a → view.Reaches set start b → a.chain = b.chain → a = b
  bounded : ∃ blocks : List PendingBlock, blocks.Nodup ∧
    (∀ block, block ∈ blocks ↔ view.Reaches set start block) ∧ 1 + blocks.length ≤ limit

/-- A hazard set that maps each chain index to the block that is reached on its chain. -/
def IsClosure (view : SafetyView) (set : DependencySet) (start : PendingBlock) (hazards : Hazards) :
    Prop :=
  ∀ index block, hazards.get? index = some block ↔
    ∃ chain, set.idOfIndex index = .ok chain ∧ view.Reaches set start ⟨chain, block⟩

variable {view : SafetyView} {set : DependencySet} {check : OlderBlockCheck} {limit : Nat}
  {start : PendingBlock} {hazards : Hazards}

theorem IsClosure.unique {others : Hazards} (h : IsClosure view set start hazards)
    (h' : IsClosure view set start others) : hazards = others :=
  Table.ext_get? fun index => Option.ext fun block => (h index block).trans (h' index block).symm

/-! ## The blocks of a hazard set -/

namespace Hazards

/-- The hazards with the chains that their indices stand for. -/
def blocks (set : DependencySet) (hazards : Hazards) : List PendingBlock :=
  hazards.toList.map fun entry => ⟨(set.idOfIndex entry.1).toOption.getD 0, entry.2⟩

theorem length_blocks : (hazards.blocks set).length = hazards.size := by
  rw [blocks, List.length_map, Table.toList, List.length_reverse, Table.size]

variable (hplaced : ∀ index block, hazards.get? index = some block →
  ∃ chain, set.idOfIndex index = .ok chain)

include hplaced in
theorem mem_blocks {next : PendingBlock} : next ∈ hazards.blocks set ↔
    ∃ index, hazards.get? index = some next.block ∧ set.idOfIndex index = .ok next.chain := by
  rw [blocks, List.mem_map]
  constructor
  · rintro ⟨⟨index, block⟩, hmem, rfl⟩
    have hget := Table.mem_toList.mp hmem
    obtain ⟨chain, hchain⟩ := hplaced index block hget
    exact ⟨index, hget, by rw [hchain]; rfl⟩
  · rintro ⟨index, hget, hchain⟩
    exact ⟨(index, next.block), Table.mem_toList.mpr hget, by rw [hchain]; rfl⟩

include hplaced in
theorem nodup_blocks (hids : ∀ index chain, set.idOfIndex index = .ok chain →
    set.indexOfId chain = .ok index) : (hazards.blocks set).Nodup := by
  refine List.Nodup.map_on ?_ (List.Nodup.of_map Prod.fst hazards.keys_nodup)
  rintro ⟨a, first⟩ ha ⟨b, second⟩ hb heq
  obtain ⟨chain, hchain⟩ := hplaced a first (Table.mem_toList.mp ha)
  obtain ⟨other, hother⟩ := hplaced b second (Table.mem_toList.mp hb)
  simp only [hchain, hother, PendingBlock.mk.injEq] at heq
  obtain ⟨hsame, rfl⟩ := heq
  have hindex := hids a chain hchain
  rw [show chain = other from hsame, hids b other hother] at hindex
  cases hindex
  rfl

end Hazards

/-! ## What is built is the closure -/

section Sound

variable {order : Traversal} {search next : HazardSearch}

/-- A visit makes as many blocks pending as it finds. -/
theorem Traversal.visit_balanced {executor : PendingBlock}
    (h : (order.visit view set check executor search).result = .ok next) :
    next.pending.length + search.found.size = search.pending.length + next.found.size := by
  refine Traversal.visit_induct (motive := fun other =>
    other.pending.length + search.found.size = search.pending.length + other.found.size)
    (fun other index chain block hother _ _ hnone => ?_) rfl h
  rw [Table.size_insert_of_none hnone, List.length_cons]
  omega

/-- Every hazard that is found takes one of the checks that are left. -/
theorem Traversal.size_le_of_run {left : Nat}
    (h : (order.run view set check limit left search).result = .ok hazards) :
    hazards.size + search.pending.length ≤ left + search.found.size := by
  induction left generalizing search with
  | zero =>
    rcases Traversal.run_eq_ok h with ⟨hnil, rfl⟩ | ⟨_, _, _, _, hleft, -⟩
    · simp [hnil]
    · cases hleft
  | succ left ih =>
    rcases Traversal.run_eq_ok h with ⟨hnil, rfl⟩ | ⟨_, executor, rest, next, hleft, hperm, hvisit,
      hrun⟩
    · simp [hnil]
    · cases hleft
      have hsize := ih hrun
      have hbalance := Traversal.visit_balanced hvisit
      have hlength := hperm.length_eq
      rw [List.length_cons] at hlength
      dsimp only at hbalance
      omega

theorem BlockSeal.eq_of_id {a b : BlockSeal} (hid : a.id = b.id) (htime : a.timestamp = b.timestamp) :
    a = b := by
  obtain ⟨hash, number, timestamp⟩ := a
  cases hid
  cases htime
  rfl

/-- The block that a block refers to is the hazard of its chain, if all timestamps agree. -/
theorem BlockPasses.refers {valid : ChainId → BlockSeal → Prop} {executor other : PendingBlock}
    {opened : BlockContents} (h : BlockPasses view set valid hazards executor opened)
    (hdated : view.Dated)
    (htime : ∀ index known, hazards.get? index = some known →
      known.timestamp = executor.block.timestamp)
    (hrefers : view.Refers set executor other) :
    ∃ index, set.idOfIndex index = .ok other.chain ∧ hazards.get? index = some other.block := by
  obtain ⟨found, logIndex, message, hfound, hmessage, hsame, hchain, hholder⟩ := hrefers
  cases hfound.symm.trans h.opens
  obtain ⟨ownIndex, chain, holder, hpasses, hhas⟩ := h.messages logIndex message hmessage
  cases hchain.symm.trans hpasses.member
  cases hholder.symm.trans hpasses.stored
  obtain ⟨known, hget, hid⟩ := hhas hsame
  have hstamp : known.timestamp = other.block.timestamp := by
    rw [htime _ known hget, hdated _ _ _ hholder, ← hsame]
    rfl
  refine ⟨message.chain, hchain, ?_⟩
  rw [hget, BlockSeal.eq_of_id hid hstamp]

theorem BlockPasses.vetted {valid : ChainId → BlockSeal → Prop} {executor : PendingBlock}
    {opened : BlockContents} (h : BlockPasses view set valid hazards executor opened) :
    Vetted view set valid executor :=
  ⟨opened, h.opens, h.same, fun logIndex message hmessage => by
    obtain ⟨ownIndex, chain, holder, hpasses, -⟩ := h.messages logIndex message hmessage
    exact ⟨ownIndex, chain, holder, hpasses⟩⟩

section Built

variable {chain : ChainId} {block : BlockSeal} (hdated : view.Dated)
  (hids : ∀ index chain, set.idOfIndex index = .ok chain → set.indexOfId chain = .ok index)
  (hbuilt : (order.build view set check limit chain block).result = .ok hazards)

include hdated hbuilt

/-- What a block reaches are hazards. -/
theorem Traversal.exists_hazard {other : PendingBlock} (hreach : view.Reaches set ⟨chain, block⟩ other) :
    ∃ index, set.idOfIndex index = .ok other.chain ∧ hazards.get? index = some other.block := by
  obtain ⟨⟨_, hstart⟩, hall⟩ := Traversal.build_sound hbuilt
  have htime (index : MemberIndex) (known : BlockSeal) (hget : hazards.get? index = some known) :
      known.timestamp = block.timestamp := by
    obtain ⟨other, -, hreach, -⟩ := hall index known hget
    exact hdated.time_eq hreach
  induction hreach with
  | single hrefers => exact hstart.refers hdated htime hrefers
  | tail hreach hrefers ih =>
    obtain ⟨index, hchain, hget⟩ := ih
    obtain ⟨_, hchain', -, _, hpasses⟩ := hall index _ hget
    cases hchain.symm.trans hchain'
    refine hpasses.refers hdated (fun other known hknown => ?_) hrefers
    exact (htime other known hknown).trans (htime index _ hget).symm

include hids

/-- The hazard set that was built is the closure of the block. -/
theorem Traversal.build_isClosure : IsClosure view set ⟨chain, block⟩ hazards := by
  obtain ⟨-, hall⟩ := Traversal.build_sound hbuilt
  intro index other
  constructor
  · intro hget
    obtain ⟨found, hfound, hreach, -⟩ := hall index other hget
    exact ⟨found, hfound, hreach⟩
  · rintro ⟨found, hfound, hreach⟩
    obtain ⟨known, hknown, hget⟩ := Traversal.exists_hazard hdated hbuilt hreach
    cases (hids _ _ hknown).symm.trans (hids _ _ hfound)
    exact hget

/-- A block whose hazard set was built can be closed. -/
theorem Traversal.build_closable :
    Closable view set (HazardSearch.Accepts check) limit ⟨chain, block⟩ := by
  obtain ⟨⟨_, hstart⟩, hall⟩ := Traversal.build_sound hbuilt
  have hclosure := Traversal.build_isClosure hdated hids hbuilt
  have hreached {other : PendingBlock} (hreach : view.Reaches set ⟨chain, block⟩ other) :=
    Traversal.exists_hazard hdated hbuilt hreach
  have hplaced (index : MemberIndex) (known : BlockSeal) (hget : hazards.get? index = some known) :
      ∃ chain, set.idOfIndex index = .ok chain := by
    obtain ⟨other, hother, -⟩ := hall index known hget
    exact ⟨other, hother⟩
  refine ⟨hstart.vetted, fun other hreach => ?_, fun a b ha hb hchain => ?_,
    hazards.blocks set, Hazards.nodup_blocks hplaced hids, fun other => ?_, ?_⟩
  · obtain ⟨index, hchain, hget⟩ := hreached hreach
    obtain ⟨_, hchain', -, _, hpasses⟩ := hall index _ hget
    cases hchain.symm.trans hchain'
    exact hpasses.vetted
  · obtain ⟨index, hindex, hget⟩ := hreached ha
    obtain ⟨index', hindex', hget'⟩ := hreached hb
    rw [← hchain] at hindex'
    cases (hids _ _ hindex).symm.trans (hids _ _ hindex')
    obtain ⟨_, first⟩ := a
    obtain ⟨_, second⟩ := b
    cases hget.symm.trans hget'
    cases hchain
    rfl
  · rw [Hazards.mem_blocks hplaced]
    constructor
    · rintro ⟨index, hget, hchain⟩
      obtain ⟨found, hfound, hreach⟩ := (hclosure index other.block).mp hget
      cases hchain.symm.trans hfound
      exact hreach
    · intro hreach
      obtain ⟨index, hchain, hget⟩ := hreached hreach
      exact ⟨index, hget, hchain⟩
  · have hsize := Traversal.size_le_of_run hbuilt
    rw [Hazards.length_blocks]
    change _ + 1 ≤ limit + 0 at hsize
    omega

end Built

end Sound

/-! ## What can be closed is built -/

/-- A search that stays in the closure of a block. -/
structure HazardSearch.Confined (view : SafetyView) (set : DependencySet) (start : PendingBlock)
    (search : HazardSearch) : Prop where
  found : ∀ index block, search.found.get? index = some block →
    ∃ chain, set.idOfIndex index = .ok chain ∧ view.Reaches set start ⟨chain, block⟩
  pending : ∀ block ∈ search.pending, block = start ∨ view.Reaches set start block

namespace Closable

variable {valid : ChainId → BlockSeal → Prop} {search : HazardSearch} {executor : PendingBlock}

theorem vetted (h : Closable view set valid limit start)
    (hexecutor : executor = start ∨ view.Reaches set start executor) :
    Vetted view set valid executor := by
  rcases hexecutor with rfl | hreach
  · exact h.first
  · exact h.reached executor hreach

/-- A block of the closure can be added. -/
theorem exists_add (h : Closable view set valid limit start)
    (hsearch : search.Confined view set start) {index : MemberIndex} {chain : ChainId}
    {block : BlockSeal} (hchain : set.idOfIndex index = .ok chain)
    (hreach : view.Reaches set start ⟨chain, block⟩) :
    ∃ next, (search.add index chain block).result = .ok next ∧ next.Confined view set start := by
  cases hget : search.found.get? index with
  | some existing =>
    obtain ⟨other, hother, hexisting⟩ := hsearch.found index existing hget
    cases hchain.symm.trans hother
    cases h.unique _ _ hexisting hreach rfl
    exact ⟨search, HazardSearch.add_eq_ok.mpr (.inl ⟨block, hget, rfl, rfl⟩), hsearch⟩
  | none =>
    refine ⟨_, HazardSearch.add_eq_ok.mpr (.inr ⟨hget, rfl⟩), fun other known hknown => ?_, ?_⟩
    · by_cases heq : other = index
      · subst heq
        rw [Table.get?_insert_self] at hknown
        cases hknown
        exact ⟨chain, hchain, hreach⟩
      · rw [Table.get?_insert_of_ne heq] at hknown
        exact hsearch.found other known hknown
    · exact List.forall_mem_cons.mpr ⟨.inr hreach, hsearch.pending⟩

theorem exists_checkMessage (h : Closable view set (HazardSearch.Accepts check) limit start)
    (hsearch : search.Confined view set start)
    (hexecutor : executor = start ∨ view.Reaches set start executor) {opened : BlockContents}
    (hopened : view.blockAt executor.chain executor.block.number = .ok opened)
    {ownIndex : MemberIndex} {logIndex : UInt32} {message : ExecutingMessage} {chain : ChainId}
    {holder : BlockSeal} (hmessage : opened.messages.get? logIndex = some message)
    (hpasses : MessagePasses view set (HazardSearch.Accepts check) executor ownIndex logIndex
      message chain holder) :
    ∃ next, (HazardSearch.checkMessage view set check ownIndex executor.block logIndex message
      search).result = .ok next ∧ next.Confined view set start := by
  unfold HazardSearch.checkMessage
  rw [if_neg hpasses.notSelf]
  simp only [Check.result_bind, Check.result_ofResult, Check.lookup, hpasses.member,
    hpasses.initiates, Outcome.mapError_ok, Outcome.ok_bind, if_true,
    if_neg (UInt64.not_lt.mpr hpasses.notNewer), Check.result_require, hpasses.stored]
  by_cases hlt : message.timestamp < executor.block.timestamp
  · have hvalid : (check chain holder).result = .ok () := hpasses.older hlt
    rw [if_pos hlt, Check.result_bind, hvalid]
    exact ⟨search, rfl, hsearch⟩
  · rw [if_neg hlt]
    have htime := UInt64.le_antisymm hpasses.notNewer (UInt64.not_lt.mp hlt)
    have hrefers : view.Refers set executor ⟨chain, holder⟩ :=
      ⟨opened, logIndex, message, hopened, hmessage, htime, hpasses.member, hpasses.stored⟩
    refine h.exists_add hsearch hpasses.member ?_
    rcases hexecutor with rfl | hreach
    · exact .single hrefers
    · exact hreach.tail hrefers

theorem exists_checkMessages (h : Closable view set (HazardSearch.Accepts check) limit start)
    (hexecutor : executor = start ∨ view.Reaches set start executor) {opened : BlockContents}
    (hopened : view.blockAt executor.chain executor.block.number = .ok opened)
    {ownIndex : MemberIndex} (hown : set.indexOfId executor.chain = .ok ownIndex)
    (hpasses : ∀ logIndex message, opened.messages.get? logIndex = some message →
      ∃ ownIndex chain holder, MessagePasses view set (HazardSearch.Accepts check) executor
        ownIndex logIndex message chain holder)
    {messages : List (UInt32 × ExecutingMessage)}
    (hmessages : ∀ entry ∈ messages, opened.messages.get? entry.1 = some entry.2)
    (hsearch : search.Confined view set start) :
    ∃ next, (HazardSearch.checkMessages view set check ownIndex executor.block messages
      search).result = .ok next ∧ next.Confined view set start := by
  induction messages generalizing search with
  | nil => exact ⟨search, rfl, hsearch⟩
  | cons entry rest ih =>
    obtain ⟨logIndex, message⟩ := entry
    have hmessage := hmessages _ List.mem_cons_self
    obtain ⟨index, chain, holder, hfirst⟩ := hpasses logIndex message hmessage
    cases hown.symm.trans hfirst.own
    obtain ⟨next, hnext, hconfined⟩ := h.exists_checkMessage hsearch hexecutor hopened hmessage
      hfirst
    rw [HazardSearch.checkMessages, Check.result_bind, hnext, Outcome.ok_bind]
    exact ih (fun other hmem => hmessages other (List.mem_cons_of_mem _ hmem)) hconfined

theorem exists_visit (h : Closable view set (HazardSearch.Accepts check) limit start)
    (order : Traversal) (hexecutor : executor = start ∨ view.Reaches set start executor)
    (hsearch : search.Confined view set start) :
    ∃ next, (order.visit view set check executor search).result = .ok next ∧
      next.Confined view set start := by
  obtain ⟨opened, hopened, hsame, hpasses⟩ := h.vetted hexecutor
  unfold Traversal.visit
  rw [Check.result_bind, SafetyView.openExactly_eq_ok.mpr ⟨hopened, hsame⟩, Outcome.ok_bind]
  split
  · exact ⟨search, rfl, hsearch⟩
  · rename_i hsome
    -- a block with messages had its permission checked with the first of them
    rw [Table.isEmpty_iff, Classical.not_forall] at hsome
    obtain ⟨logIndex, hne⟩ := hsome
    obtain ⟨message, hmessage⟩ := Option.ne_none_iff_exists'.mp hne
    obtain ⟨ownIndex, _, _, hfirst⟩ := hpasses logIndex message hmessage
    simp only [Check.result_bind, Check.result_ofResult, Check.lookup, hfirst.executes, hfirst.own,
      Outcome.mapError_ok, Outcome.ok_bind, if_true]
    exact h.exists_checkMessages hexecutor hopened hfirst.own hpasses
      (fun entry hmem => (order.mem_messages entry).mp hmem) hsearch

variable (hids : ∀ index chain, set.idOfIndex index = .ok chain → set.indexOfId chain = .ok index)

include hids in
/-- A search that stays in the closure finds fewer blocks than it may check. -/
theorem size_lt (h : Closable view set valid limit start)
    (hsearch : search.Confined view set start) : search.found.size < limit := by
  obtain ⟨blocks, -, hmem, hlength⟩ := h.bounded
  have hplaced (index : MemberIndex) (block : BlockSeal)
      (hget : search.found.get? index = some block) : ∃ chain, set.idOfIndex index = .ok chain := by
    obtain ⟨chain, hchain, -⟩ := hsearch.found index block hget
    exact ⟨chain, hchain⟩
  have hsub : (Hazards.blocks set search.found).Subperm blocks := by
    refine (Hazards.nodup_blocks hplaced hids).subperm fun next hnext => (hmem next).mpr ?_
    obtain ⟨index, hget, hchain⟩ := (Hazards.mem_blocks hplaced).mp hnext
    obtain ⟨other, hother, hreach⟩ := hsearch.found index next.block hget
    cases hchain.symm.trans hother
    exact hreach
  have hle := hsub.length_le
  rw [Hazards.length_blocks] at hle
  omega

include hids in
theorem exists_run (h : Closable view set (HazardSearch.Accepts check) limit start)
    (order : Traversal) {left : Nat} (hsearch : search.Confined view set start)
    (hleft : limit + search.pending.length ≤ left + 1 + search.found.size) :
    ∃ hazards, (order.run view set check limit left search).result = .ok hazards := by
  have hperm := order.pending_perm search
  induction left generalizing search with
  | zero =>
    have hsize := h.size_lt hids hsearch
    have hnil : order.pending search = [] :=
      List.eq_nil_of_length_eq_zero (by rw [hperm.length_eq]; omega)
    exact ⟨search.found, by rw [Traversal.run, hnil]; rfl⟩
  | succ left ih =>
    rw [Traversal.run]
    cases hpending : order.pending search with
    | nil => exact ⟨search.found, rfl⟩
    | cons executor rest =>
      rw [hpending] at hperm
      have hexecutor := hsearch.pending executor (hperm.mem_iff.mp List.mem_cons_self)
      have hrest : HazardSearch.Confined view set start ⟨rest, search.found⟩ :=
        ⟨hsearch.found, fun block hmem =>
          hsearch.pending block (hperm.mem_iff.mp (List.mem_cons_of_mem _ hmem))⟩
      obtain ⟨next, hvisit, hnext⟩ := h.exists_visit order hexecutor hrest
      have hbalance := Traversal.visit_balanced hvisit
      have hlength := hperm.length_eq
      rw [List.length_cons] at hlength
      dsimp only at hbalance ⊢
      rw [Check.result_bind, hvisit, Outcome.ok_bind]
      exact ih hnext (by omega) (order.pending_perm next)

include hids in
/-- The hazard set of a block that can be closed is built in every order. -/
theorem exists_build {chain : ChainId} {block : BlockSeal}
    (h : Closable view set (HazardSearch.Accepts check) limit ⟨chain, block⟩) (order : Traversal) :
    ∃ hazards, (order.build view set check limit chain block).result = .ok hazards := by
  refine h.exists_run hids order ⟨fun _ _ hnone => (nomatch hnone), fun pending hmem => ?_⟩ ?_
  · exact .inl (List.mem_singleton.mp hmem)
  · exact Nat.le_refl _

end Closable

/-- The hazard set of a block is built, in every order the same, exactly if the block can be
closed. -/
theorem Traversal.build_eq_ok_iff (hdated : view.Dated)
    (hids : ∀ index chain, set.idOfIndex index = .ok chain → set.indexOfId chain = .ok index)
    (order : Traversal) {chain : ChainId} {block : BlockSeal} :
    (order.build view set check limit chain block).result = .ok hazards ↔
      Closable view set (HazardSearch.Accepts check) limit ⟨chain, block⟩ ∧
        IsClosure view set ⟨chain, block⟩ hazards := by
  constructor
  · intro h
    exact ⟨Traversal.build_closable hdated hids h, Traversal.build_isClosure hdated hids h⟩
  · rintro ⟨hclosable, hclosure⟩
    obtain ⟨found, hfound⟩ := hclosable.exists_build hids order
    rwa [hclosure.unique (Traversal.build_isClosure hdated hids hfound)]

end CrossSafety
