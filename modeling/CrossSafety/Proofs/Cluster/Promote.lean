import CrossSafety.Proofs.Cluster.Secure
import CrossSafety.Proofs.Safety.Update

/-!
# Promotions keep pledges

An update of a chain only makes writes that leave the guarded places alone. A candidate that is
rejected is no hazard of a pledge, since a hazard that is relied on is never rejected, and a block
that executes a message of an unguarded block is not guarded either. A candidate that is promoted
gets a pledge of its own, provided that the frontier was exact.
-/
namespace CrossSafety.Cluster

variable {cluster after : Cluster} {known : BlockRef → Prop} {pledges : List Pledge}
  {chain : ChainId} {store : ChainStore}

/-! ## Invalidations -/

/-- A block with no guarded place at its height or above. -/
def Expendable (cluster : Cluster) (pledges : List Pledge) (dependent : Dependent) : Prop :=
  ∀ number, cluster.Guards pledges ⟨dependent.chain, number⟩ →
    number < dependent.block.derived.number

/-- The guarded places depend on the members and the cross-safe heads alone. -/
theorem guards_mono (hmembers : after.members = cluster.members)
    (hheads : ∀ chain store head, cluster.chains.get? chain = some store →
      store.state.crossSafe = some head →
      ∃ next, after.chains.get? chain = some next ∧ next.state.crossSafe = some head)
    {place : BlockPlace} (h : cluster.Guards pledges place) : after.Guards pledges place := by
  rcases h with ⟨store, head, hstore, hhead, hle⟩ |
    ⟨pledge, hmem, index, hazard, hget, hchain, hnumber⟩
  · obtain ⟨next, hnext, hhead⟩ := hheads place.chain store head hstore hhead
    exact .inl ⟨next, head, hnext, hhead, hle⟩
  · exact .inr ⟨pledge, hmem, index, hazard, hget, hmembers ▸ hchain, hnumber⟩

/-- The invalidation of an expendable block changes neither pledges nor guarded places. -/
theorem Secure.invalidate (h : cluster.Secure known pledges) {next : Dependent}
    (hexpendable : cluster.Expendable pledges next) :
    (cluster.perform next.chain (.invalidate next.block)).2.Secure known pledges ∧
      ∀ place, (cluster.perform next.chain (.invalidate next.block)).2.Guards pledges place ↔
        cluster.Guards pledges place := by
  cases hstore : cluster.chains.get? next.chain with
  | none =>
    rw [perform_closed hstore]
    exact ⟨h, fun _ => Iff.rfl⟩
  | some store =>
    have hspares : (Operation.invalidate next.block).Spares store.state fun number =>
        cluster.Guards pledges ⟨next.chain, number⟩ :=
      ⟨fun head hhead => hexpendable _ (.inl ⟨store, head, hstore, hhead, UInt64.le_refl _⟩),
        hexpendable⟩
    refine ⟨List.nil_append pledges ▸ h.perform hstore trivial hspares
      (fun _ hblock => (nomatch hblock)) (fun _ hmem => absurd hmem List.not_mem_nil)
      fun _ hset => (nomatch hset), fun place => ?_⟩
    have hcrossSafe := (h.steady next.chain store hstore).invalidate_crossSafe hspares
    obtain ⟨metrics, hperform⟩ := perform_eq hstore (.invalidate next.block)
    rw [hperform]
    constructor
    · intro hguards
      refine guards_mono ?_ (fun other found head hfound hhead => ?_) hguards
      · rfl
      · rcases get?_replaced hfound with ⟨rfl, rfl⟩ | ⟨-, hfound⟩
        · exact ⟨store, hstore, hcrossSafe ▸ hhead⟩
        · exact ⟨found, hfound, hhead⟩
    · intro hguards
      refine guards_mono ?_ (fun other found head hfound hhead => ?_) hguards
      · rfl
      · rcases Decidable.em (other = next.chain) with rfl | hne
        · rw [hstore] at hfound
          cases hfound
          exact ⟨_, Table.get?_insert_self, hcrossSafe.trans hhead⟩
        · exact ⟨found, (Table.get?_insert_of_ne hne).trans hfound, hhead⟩

theorem mem_dependents {block : BlockId} {dependents : List Dependent}
    (h : cluster.view.dependents chain block = .ok dependents) {dependent : Dependent}
    (hmem : dependent ∈ dependents) : ∃ index store, cluster.members.indexOfId chain = .ok index ∧
      cluster.chains.get? dependent.chain = some store ∧
      store.state.firstExecuting index block.number = some dependent.block := by
  change cluster.dependents chain block = _ at h
  unfold Cluster.dependents at h
  cases hindex : cluster.members.indexOfId chain with
  | error error =>
    rw [hindex] at h
    cases h
  | ok index =>
    rw [hindex] at h
    cases h
    obtain ⟨⟨other, store⟩, hentry, hfirst⟩ := List.mem_filterMap.mp hmem
    dsimp only at hfirst
    split at hfirst
    · cases hfirst
    · obtain ⟨pair, hpair, rfl⟩ := Option.map_eq_some_iff.mp hfirst
      exact ⟨index, store, rfl, Table.mem_toList.mp hentry, hpair⟩

/-- What executes a message of an expendable block is expendable. -/
theorem Secure.expendable_dependents (h : cluster.Secure known pledges) {next : Dependent}
    (hexpendable : cluster.Expendable pledges next) {dependents : List Dependent}
    (hdependents : cluster.view.dependents next.chain next.block.derived.id = .ok dependents) :
    ∀ dependent ∈ dependents, cluster.Expendable pledges dependent := by
  intro dependent hmem number hguards
  obtain ⟨index, store, hindex, hstore, hfirst⟩ := mem_dependents hdependents hmem
  obtain ⟨key, sealed, hget, habove, hsealed, hexecutes, hhash⟩ :=
    Ledger.firstExecuting_some hfirst
  have hheaded := (h.steady dependent.chain store hstore).headed
  have hkey := hheaded.localKeyed key dependent.block hget
  obtain ⟨store', hstore', hcases⟩ := guards_cases h.steady h.upheld hguards
  rw [hstore] at hstore'
  cases hstore'
  rcases hcases with ⟨head, hhead, hle⟩ |
    ⟨pledge, hpledge, other, hazard, hhazard, hchain, hnumber, hnext⟩
  · rw [hkey]
    exact UInt64.lt_of_le_of_lt hle (UInt64.lt_of_lt_of_le (hheaded.lt_next hhead)
      (habove head hhead))
  · -- the block itself would be the hazard, whose messages come from guarded places
    obtain ⟨head, _, hhead, -⟩ := id hnext
    have hheight : number = head.derived.number + 1 :=
      hnumber.symm.trans (hnext.number_eq hheaded hhead)
    refine UInt64.lt_of_le_of_ne (hkey ▸ hheight ▸ habove head hhead) fun heq => ?_
    subst heq
    obtain ⟨message, hmessage, hpoints⟩ := List.any_eq_true.mp hexecutes
    obtain ⟨rfl, hblock⟩ : message.chain = index ∧
        message.blockNumber = next.block.derived.id.number := of_decide_eq_true hpoints
    obtain ⟨logIndex, hmessage⟩ := Table.mem_values.mp hmessage
    obtain ⟨chain', hchain', hexamined⟩ :=
      (h.upheld pledge hpledge).accepted.others other hazard hhazard
    have heq := hchain.symm.trans hchain'
    cases heq
    obtain ⟨opened, hpasses⟩ := hexamined.passes
    have hopened := hpasses.opens
    dsimp only at hopened
    rw [hnumber] at hopened
    obtain ⟨found, hfound, rfl⟩ := view_blockAt.mp hopened
    rw [sealedAt_eq_some.mpr ⟨store, hstore, hsealed⟩] at hfound
    cases hfound
    have hsource := hpasses.source h.steady.coherent (h.steady.covers hpledge) hmessage
      (Membership.idOfIndex_of_indexOfId h.distinct hindex)
    rw [hblock] at hsource
    exact UInt64.lt_irrefl _ (hexpendable _ hsource)

/-- A candidate that is rejected is expendable: a hazard that is relied on would not be rejected. -/
theorem Secure.expendable_candidate (h : cluster.Secure known pledges)
    (hunique : ∀ a b, known a → known b → a.hash = b.hash → a = b) {limit : Nat}
    {candidate : DerivedPair} {error : CrossSafetyError}
    (hcandidate : cluster.view.candidate chain = .ok candidate)
    (hverdict : (cluster.promoter limit).verdict cluster.view chain candidate = .error error)
    (hconflict : error.isConflict = true) : cluster.Expendable pledges ⟨chain, candidate⟩ := by
  intro number hguards
  obtain ⟨store, hstore, hstate⟩ := ask_eq_ok.mp hcandidate
  have hsteady := h.steady chain store hstore
  obtain ⟨-, head, next, hhead, hget, -, hpair⟩ := Ledger.candidate_eq_ok.mp hstate
  have hderived : next.derived = candidate.derived := by rw [← hpair]
  have hnumber : candidate.derived.number = head.derived.number + 1 :=
    hderived ▸ hsteady.headed.localKeyed _ _ hget
  obtain ⟨store', hstore', hcases⟩ := guards_cases h.steady h.upheld hguards
  rw [hstore] at hstore'
  cases hstore'
  rcases hcases with ⟨head', hhead', hle⟩ |
    ⟨pledge, hpledge, index, hazard, hhazard, hchain, -, hnext⟩
  · rw [hhead] at hhead'
    cases hhead'
    exact hnumber ▸ UInt64.lt_of_le_of_lt hle (hsteady.headed.lt_next hhead)
  · -- the candidate would be the hazard itself
    have hupheld := h.upheld pledge hpledge
    have hid : candidate.derived.id = hazard.id := hnext.candidate.1 candidate hstate
    obtain ⟨chain', hchain', hexamined⟩ := hupheld.accepted.others index hazard hhazard
    have heq := hchain.symm.trans hchain'
    cases heq
    obtain ⟨opened, hpasses⟩ := hexamined.passes
    have hseal := hupheld.exact index hazard chain opened hhazard hchain hpasses.opens
    obtain ⟨sealed, hsealed, rfl⟩ := view_blockAt.mp hpasses.opens
    have hhash : sealed.block.hash = candidate.derived.hash :=
      congrArg BlockId.hash (hpasses.same.trans hid.symm)
    have hsame : sealed.block = candidate.derived := hunique _ _ (h.steady.known_sealed hsealed)
      (hderived ▸ hsteady.knows.derived _ _ hget) hhash
    have hknows : pledge.hazards.Knows cluster.members.lookups ⟨chain, candidate.derived.toSeal⟩ :=
      ⟨index, by rw [hhazard, ← hseal, ← hsame]; rfl, hchain⟩
    have htame : Tame _ ((cluster.promoter limit).verdict cluster.view chain candidate) :=
      (hupheld.relied h.steady).tame_verdict h.steady.coherent rfl
        (fun _ _ hindex => Membership.indexOfId_of_idOfIndex hindex) hknows
    exact absurd ((htame.isConflict_eq hverdict).symm.trans hconflict) Bool.false_ne_true

/-- A cascade that starts from an expendable block keeps a cluster secure. -/
theorem Secure.cascade (h : cluster.Secure known pledges) {start : Dependent}
    (hexpendable : cluster.Expendable pledges start) :
    ((safetyStore.cascade .empty [start]).from cluster).2.Secure known pledges := by
  have hsame {state : Cluster}
      (hguards : ∀ place, state.Guards pledges place ↔ cluster.Guards pledges place)
      (dependent : Dependent) :
      state.Expendable pledges dependent ↔ cluster.Expendable pledges dependent :=
    forall_congr' fun _ => imp_congr_left (hguards _)
  have hkept : ∀ state next, (state.Secure known pledges ∧
      ∀ place, state.Guards pledges place ↔ cluster.Guards pledges place) →
      cluster.Expendable pledges next →
      (safetyStore.invalidate next.chain next.block state).2.Secure known pledges ∧
        ∀ place, (safetyStore.invalidate next.chain next.block state).2.Guards pledges place ↔
          cluster.Guards pledges place := by
    rintro state next ⟨hsecure, hguards⟩ hnext
    obtain ⟨hafter, hafterGuards⟩ := hsecure.invalidate ((hsame hguards next).mpr hnext)
    exact ⟨hafter, fun place => (hafterGuards place).trans (hguards place)⟩
  refine (SafetyStore.cascade_preserves ?_ ?_ hkept
    (fun block hmem => List.mem_singleton.mp hmem ▸ hexpendable) ⟨h, fun _ => Iff.rfl⟩).1
  · rintro state after hnoted ⟨hsecure, hguards⟩
    obtain ⟨metrics, rfl⟩ := noted_eq hnoted
    exact ⟨hsecure.noted hnoted, hguards⟩
  · rintro state next dependents ⟨hsecure, hguards⟩ hnext hdependents dependent hmem
    exact (hsame hguards dependent).mp (hsecure.expendable_dependents
      ((hsame hguards next).mpr hnext) hdependents dependent hmem)

/-! ## Promotions -/

/-- A hazard that is ahead of the cross-safe head of its chain is the very block that its chain
promotes next, if it promotes one. -/
def HazardExact (cluster : Cluster) (index : MemberIndex) (hazard : BlockSeal) : Prop :=
  ∀ chain ∈ (cluster.members.idOfIndex index).toOption,
    cluster.view.sourceOf chain hazard.id = .error .futureData →
    ∀ next ∈ (cluster.view.candidate chain).toOption, next.derived.id = hazard.id

instance (cluster : Cluster) (index : MemberIndex) (hazard : BlockSeal) :
    Decidable (cluster.HazardExact index hazard) :=
  @Option.decidableForallMem _ _ (fun _ => inferInstanceAs (Decidable (_ → ∀ _ ∈ _, _))) _

/-- If the candidate of a chain is accepted, its hazards are all cross-safe or next on their
chains. The check of the frontier also lets a hazard pass whose chain promotes a block of another
number next. -/
def FrontierExact (cluster : Cluster) (limit : Nat) (chain : ChainId) : Prop :=
  ∀ candidate ∈ (cluster.view.candidate chain).toOption,
    (cluster.promoter limit).verdict cluster.view chain candidate = .ok () →
    ∀ hazards ∈ ((cluster.promoter limit).survey cluster.view chain candidate).result.toOption,
    ∀ entry ∈ hazards.toList, cluster.HazardExact entry.1 entry.2

instance (cluster : Cluster) (limit : Nat) (chain : ChainId) :
    Decidable (cluster.FrontierExact limit chain) :=
  inferInstanceAs (Decidable (∀ _ ∈ _, _ → ∀ _ ∈ _, ∀ _ ∈ _, _))

/-- The pledge of a candidate that is accepted with an exact frontier holds. -/
theorem Steady.upheld (h : cluster.Steady known)
    (hdistinct : cluster.members.hasDistinctIndices = true) {limit : Nat} {candidate : DerivedPair}
    (hcandidate : cluster.view.candidate chain = .ok candidate)
    (hverdict : (cluster.promoter limit).verdict cluster.view chain candidate = .ok ())
    (hexact : cluster.FrontierExact limit chain) :
    ∃ hazards, cluster.Upheld ⟨⟨chain, candidate.derived.toSeal⟩, hazards⟩ := by
  obtain ⟨hazards, hsurvey, haccepted, hready⟩ := Promoter.verdict_sound dated
    (fun _ hindex => Membership.idOfIndex_of_indexOfId hdistinct hindex) hverdict
  refine ⟨hazards, haccepted.imp fun _ _ ⟨source, hsource, _⟩ => ⟨source, hsource⟩,
    fun index hazard other opened hget hchain hopened => ?_,
    fun index hazard other hget hchain => ?_⟩
  · obtain ⟨other', query, hother, hstored⟩ := Promoter.survey_stored hsurvey hget
    have heq := hchain.symm.trans hother
    cases heq
    exact h.coherent.exact other query hazard opened hstored hopened
  · obtain ⟨other', hother, hready⟩ := hready index hazard hget
    have heq := hchain.symm.trans hother
    cases heq
    rcases hready with ⟨source, hsource, -⟩ | ⟨hahead, next, hnext, -, -⟩
    · obtain ⟨store, hstore, hsource⟩ := view_sourceOf.mp hsource
      obtain ⟨record, hrecord, hhash, -⟩ := Ledger.sourceOf_eq_ok.mp hsource
      exact ⟨store, hstore, .inl ⟨record, hrecord, hhash⟩⟩
    · have hid : next.derived.id = hazard.id :=
        hexact candidate (Outcome.mem_toOption.mpr hcandidate) hverdict hazards
          (Outcome.mem_toOption.mpr hsurvey) (index, hazard) (Table.mem_toList.mpr hget) other
          (Outcome.mem_toOption.mpr hchain) hahead next (Outcome.mem_toOption.mpr hnext)
      obtain ⟨store, hstore, hstate⟩ := ask_eq_ok.mp hnext
      obtain ⟨-, head, pair, hhead, hpair, hparent, rfl⟩ := Ledger.candidate_eq_ok.mp hstate
      exact ⟨store, hstore, .inr ⟨head, pair, hhead, hpair, hid, hparent⟩⟩

/-- A candidate that becomes the cross-safe head is backed by its own pledge. -/
theorem Secure.promoted (h : cluster.Secure known pledges) {limit : Nat} {candidate : DerivedPair}
    (hcandidate : cluster.view.candidate chain = .ok candidate)
    (hverdict : (cluster.promoter limit).verdict cluster.view chain candidate = .ok ())
    (hexact : cluster.FrontierExact limit chain) :
    ∃ pledge, (cluster.perform chain (.setCrossSafe candidate)).2.Secure known
      (pledge :: pledges) := by
  obtain ⟨store, hstore, hstate⟩ := ask_eq_ok.mp hcandidate
  obtain ⟨hazards, hupheld⟩ := h.steady.upheld h.distinct hcandidate hverdict hexact
  obtain ⟨opened, hpasses⟩ := hupheld.accepted.first.passes
  obtain ⟨sealed, hsealed, -⟩ := view_blockAt.mp hpasses.opens
  have hmax : candidate.derived.number < maxNumber := (h.steady.keyed hsealed).2
  have hkeeps : cluster.Keeps (cluster.perform chain (.setCrossSafe candidate)).2 fun _ => True :=
    h.steady.keeps hstore trivial hmax
  have hrecorded := ((h.steady chain store hstore).perform_candidate hstate).2
  have hafter : (cluster.perform chain (.setCrossSafe candidate)).2.view.CrossSafe chain
      candidate.derived.toSeal := by
    obtain ⟨metrics, hperform⟩ := perform_eq hstore (.setCrossSafe candidate)
    rw [hperform]
    exact view_crossSafe Table.get?_insert_self ⟨candidate, hrecorded, rfl⟩
  refine ⟨⟨⟨chain, candidate.derived.toSeal⟩, hazards⟩, ?_⟩
  rw [← List.singleton_append]
  refine h.perform hstore trivial hmax (fun _ hblock => (nomatch hblock))
    (List.forall_mem_singleton.mpr ⟨?_, hafter⟩) ?_
  · exact hupheld.keeps h.steady hkeeps ⟨fun _ _ _ => trivial, fun _ _ _ _ _ => trivial⟩ trivial
  · rintro _ ⟨⟩ -
    exact ⟨_, List.mem_singleton.mpr rfl, rfl, rfl, rfl⟩

/-- Recording the cross-safe head in another source block changes no pledge. -/
theorem Secure.widened (h : cluster.Secure known pledges) {head : DerivedPair} {source : BlockRef}
    (hhead : cluster.view.crossSafe chain = .ok head) :
    (cluster.perform chain (.setCrossSafe ⟨source, head.derived⟩)).2.Secure known pledges := by
  obtain ⟨store, hstore, hstate⟩ := ask_eq_ok.mp hhead
  have hcrossSafe : store.state.crossSafe = some head := by
    unfold Ledger.crossSafeHead at hstate
    split at hstate
    · cases hstate
      assumption
    · cases hstate
  obtain ⟨hmax, record, hrecord⟩ := (h.steady chain store hstore).headed.head head hcrossSafe
  refine List.nil_append pledges ▸ h.perform hstore trivial hmax
    (fun _ hblock => (nomatch hblock)) (fun _ hmem => absurd hmem List.not_mem_nil) ?_
  rintro _ ⟨⟩ hnone
  rw [hrecord] at hnone
  cases hnone

/-- A candidate is taken as the cross-safe head of its chain. -/
theorem takes_candidate
    (hheaded : ∀ chain store, cluster.chains.get? chain = some store → store.state.Headed)
    {noted : Cluster} (hnoted : safetyStore.Noted cluster noted) {candidate : DerivedPair}
    (hcandidate : cluster.view.candidate chain = .ok candidate) :
    (safetyStore.setCrossSafe chain candidate noted).1 = .ok () := by
  obtain ⟨metrics, rfl⟩ := noted_eq hnoted
  obtain ⟨store, hstore, hstate⟩ := ask_eq_ok.mp hcandidate
  have hperform := ChainStore.perform_candidate (hheaded chain store hstore) hstate
  change (Cluster.perform _ chain (.setCrossSafe candidate)).1 = _
  rw [Cluster.perform, Cluster.store, hstore]
  exact congrArg Performed.result hperform

/-- What an update of a chain does to a cluster, and what it returns. -/
theorem promote_updates
    (hheaded : ∀ chain store, cluster.chains.get? chain = some store → store.state.Headed)
    (limit : Nat) (chain : ChainId) :
    (cluster.promoter limit).Updates chain cluster (cluster.promote limit chain).1
      (cluster.promote limit chain).2 :=
  Promoter.update_from notesUnseen cluster fun _ _ hnoted hcandidate =>
    takes_candidate hheaded hnoted hcandidate

/-- An update of a chain with an exact frontier keeps a cluster secure. -/
theorem Secure.promote (h : cluster.Secure known pledges)
    (hunique : ∀ a b, known a → known b → a.hash = b.hash → a = b) {limit : Nat}
    (hexact : cluster.FrontierExact limit chain) :
    ∃ pledges, (cluster.promote limit chain).2.Secure known pledges := by
  have hcases : (cluster.promoter limit).Updated chain cluster (cluster.promote limit chain).2 :=
    Promoter.update_cases notesUnseen cluster fun _ _ hnoted hcandidate =>
      takes_candidate (fun other store hstore => (h.steady other store hstore).headed) hnoted
        hcandidate
  generalize (cluster.promote limit chain).2 = after at hcases
  cases hcases with
  | unchanged notes => exact ⟨pledges, h.noted notes⟩
  | promoted notes found verdict =>
    have hnoted := h.noted notes
    obtain ⟨metrics, rfl⟩ := noted_eq notes
    obtain ⟨pledge, hsecure⟩ := hnoted.promoted found verdict hexact
    exact ⟨_, hsecure⟩
  | widened notes found =>
    have hnoted := h.noted notes
    obtain ⟨metrics, rfl⟩ := noted_eq notes
    exact ⟨pledges, hnoted.widened found⟩
  | invalidated notes found verdict conflict last =>
    have hnoted := h.noted notes
    have hexpendable := h.expendable_candidate hunique found verdict conflict
    obtain ⟨metrics, rfl⟩ := noted_eq notes
    exact ⟨pledges, (hnoted.cascade hexpendable).noted last⟩

end CrossSafety.Cluster
