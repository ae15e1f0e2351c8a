import CrossSafety.LogStore.Record

/-!
# The moves of events

An event stands for a move from the position of the log before it. `LogRecord.Leads` says in numbers
without a bound where it leads. `apply` makes this move, unless a number outgrows its width, and
`between` gives the one event of a move, or fails if no event makes it.
-/
namespace CrossSafety

namespace Position

theorem ext_toNat {a b : Position} (hblock : a.block.toNat = b.block.toNat)
    (hindex : a.index.toNat = b.index.toNat) : a = b := by
  have hblock := UInt64.toNat_inj.mp hblock
  have hindex := UInt32.toNat_inj.mp hindex
  cases a
  cases b
  exact Position.mk.injEq .. ▸ ⟨hblock, hindex⟩

/-- Whether `next` is `prev`, the log behind it in its block, or one of the first two logs of a block
up to 255 blocks later. -/
def Near (prev next : Position) : Prop :=
  next = prev ∨
    next.block = prev.block ∧ next.index.toNat = prev.index.toNat + 1 ∨
    prev.block < next.block ∧ next.block.toNat ≤ prev.block.toNat + 255 ∧
      (next.index = 0 ∨ next.index = 1)

theorem near_iff {prev next : Position} : prev.Near next ↔
    next.block.toNat = prev.block.toNat ∧
        (next.index.toNat = prev.index.toNat ∨ next.index.toNat = prev.index.toNat + 1) ∨
      prev.block.toNat < next.block.toNat ∧ next.block.toNat ≤ prev.block.toNat + 255 ∧
        next.index.toNat ≤ 1 := by
  have hzero : (0 : UInt32).toNat = 0 := rfl
  have hone : (1 : UInt32).toNat = 1 := rfl
  have hself : next = prev ↔ next.block.toNat = prev.block.toNat ∧
      next.index.toNat = prev.index.toNat :=
    ⟨fun h => h ▸ ⟨rfl, rfl⟩, fun h => ext_toNat h.1 h.2⟩
  rw [Near, hself, UInt64.lt_iff_toNat_lt, ← UInt64.toNat_inj, ← UInt32.toNat_inj,
    ← UInt32.toNat_inj, hzero, hone]
  omega

end Position

namespace LogRecord

/-- The index that an event counts from: that of the log before it, or zero in a later block. -/
def startIndex (event : LogRecord) (prev : Position) : Nat :=
  if event.blockDiff = 0 then prev.index.toNat else 0

/-- Where an event leads, in numbers without a bound. -/
structure Leads (event : LogRecord) (prev next : Position) : Prop where
  block : next.block.toNat = prev.block.toNat + event.blockDiff.toNat
  index : next.index.toNat = event.startIndex prev + event.incrementsIndex.toNat

/-- The place where an event leads has numbers of the width of a position. -/
structure Fits (event : LogRecord) (prev : Position) : Prop where
  block : prev.block.toNat + event.blockDiff.toNat < UInt64.size
  index : event.startIndex prev + event.incrementsIndex.toNat < UInt32.size

theorem apply_eq (event : LogRecord) (prev : Position) :
    event.apply prev = ⟨prev.block + event.blockDiff.toUInt64,
      (if event.blockDiff = 0 then prev.index else 0) +
        if event.incrementsIndex then 1 else 0⟩ := by
  by_cases hzero : event.blockDiff = 0
  · cases hincrements : event.incrementsIndex <;> simp [apply, hzero, hincrements]
  · have hpos : 0 < event.blockDiff := UInt8.pos_iff_ne_zero.mpr hzero
    cases hincrements : event.incrementsIndex <;> simp [apply, hzero, hpos, hincrements]

section Moves

variable {event other : LogRecord} {prev next : Position}

/-- An event whose numbers fit is applied by moving to where it leads. -/
theorem Fits.leads (h : event.Fits prev) : event.Leads prev (event.apply prev) := by
  have hincrement : (if event.incrementsIndex then 1 else 0 : UInt32).toNat =
      event.incrementsIndex.toNat := by cases event.incrementsIndex <;> rfl
  have hstart : (if event.blockDiff = 0 then prev.index else 0).toNat = event.startIndex prev := by
    rw [startIndex]
    split <;> rfl
  rw [apply_eq]
  constructor
  · rw [UInt64.toNat_add, UInt8.toNat_toUInt64]
    exact Nat.mod_eq_of_lt h.block
  · rw [UInt32.toNat_add, hstart, hincrement]
    exact Nat.mod_eq_of_lt h.index

theorem Leads.fits (h : event.Leads prev next) : event.Fits prev :=
  ⟨h.block ▸ next.block.toNat_lt, h.index ▸ next.index.toNat_lt⟩

theorem Leads.apply_eq (h : event.Leads prev next) : event.apply prev = next :=
  Position.ext_toNat (h.fits.leads.block.trans h.block.symm)
    (h.fits.leads.index.trans h.index.symm)

/-- There is at most one event that leads from a position to another, apart from its hash. -/
theorem Leads.unique (h : event.Leads prev next) (hother : other.Leads prev next)
    (hhash : event.hash = other.hash) : event = other := by
  have hdiff : event.blockDiff = other.blockDiff :=
    UInt8.toNat_inj.mp (Nat.add_left_cancel (h.block.symm.trans hother.block))
  have hstart : event.startIndex prev = other.startIndex prev := by
    rw [startIndex, startIndex, hdiff]
  have hincrements : event.incrementsIndex = other.incrementsIndex := by
    have hindex := h.index.symm.trans hother.index
    rw [hstart] at hindex
    rw [Bool.eq_iff_iff, ← Bool.toNat_eq_one, ← Bool.toNat_eq_one, Nat.add_left_cancel hindex]
  cases event
  cases other
  simp_all

theorem Leads.near (h : event.Leads prev next) : prev.Near next := by
  have hdiff := event.blockDiff.toNat_lt
  have hincrement : event.incrementsIndex.toNat ≤ 1 := Bool.toNat_le _
  obtain ⟨hblock, hindex⟩ := h
  rw [Position.near_iff]
  by_cases hzero : event.blockDiff = 0
  · rw [startIndex, if_pos hzero] at hindex
    rw [hzero] at hblock
    have hnone : (0 : UInt8).toNat = 0 := rfl
    omega
  · rw [startIndex, if_neg hzero] at hindex
    have hpos : event.blockDiff.toNat ≠ 0 := fun h => hzero (UInt8.toNat_inj.mp h)
    omega

end Moves

/-- A distance that an event can hold, and the index from which the event then counts. -/
theorem small_distance {prev next : Position} (hahead : ¬next.block < prev.block)
    (hsmall : ¬255 < next.block - prev.block) :
    next.block.toNat = prev.block.toNat + (next.block - prev.block).toUInt8.toNat ∧
      (if 0 < next.block - prev.block then 0 else prev.index : UInt32).toNat =
        if (next.block - prev.block).toUInt8 = 0 then prev.index.toNat else 0 := by
  have hle : prev.block.toNat ≤ next.block.toNat :=
    UInt64.le_iff_toNat_le.mp (UInt64.not_lt.mp hahead)
  have hblocks : (next.block - prev.block).toNat = next.block.toNat - prev.block.toNat :=
    UInt64.toNat_sub_of_le _ _ (UInt64.not_lt.mp hahead)
  have hsmall : (next.block - prev.block).toNat ≤ 255 :=
    UInt64.le_iff_toNat_le.mp (UInt64.not_lt.mp hsmall)
  have hdiff : (next.block - prev.block).toUInt8.toNat = (next.block - prev.block).toNat := by
    rw [UInt64.toNat_toUInt8]
    exact Nat.mod_eq_of_lt (Nat.lt_succ_of_le hsmall)
  have hpos : 0 < next.block - prev.block ↔ ¬(next.block - prev.block).toUInt8 = 0 := by
    rw [← UInt8.toNat_inj, hdiff, UInt64.lt_iff_toNat_lt]
    exact Nat.pos_iff_ne_zero
  refine ⟨by omega, ?_⟩
  simp only [hpos, ite_not]
  split <;> rfl

theorem toNat_decide_pos {logs : UInt32} (h : ¬1 < logs) :
    (decide (0 < logs)).toNat = logs.toNat := by
  have hle : logs.toNat ≤ 1 := UInt32.le_iff_toNat_le.mp (UInt32.not_lt.mp h)
  by_cases hpos : 0 < logs
  · rw [decide_eq_true hpos, Bool.toNat_true]
    exact Nat.le_antisymm (UInt32.lt_iff_toNat_lt.mp hpos) hle
  · rw [decide_eq_false hpos, Bool.toNat_false]
    exact (Nat.eq_zero_of_le_zero (UInt32.le_iff_toNat_le.mp (UInt32.not_lt.mp hpos))).symm

/-- A near position has an event that leads to it. For any other one the move is out of order. -/
theorem between_cases (prev next : Position) (hash : ShortHash) :
    (∃ event, between prev next hash = .ok event ∧ event.hash = hash ∧ event.Leads prev next) ∨
      (∃ detail, between prev next hash = .error (.logOutOfOrder detail)) ∧ ¬prev.Near next := by
  rw [Position.near_iff]
  simp only [between]
  split
  · rename_i hbehind
    rw [UInt64.lt_iff_toNat_lt] at hbehind
    exact .inr ⟨⟨_, rfl⟩, by omega⟩
  rename_i hahead
  split
  · rename_i hfar
    have hfar : 255 < (next.block - prev.block).toNat := UInt64.lt_iff_toNat_lt.mp hfar
    rw [UInt64.toNat_sub_of_le _ _ (UInt64.not_lt.mp hahead)] at hfar
    exact .inr ⟨⟨_, rfl⟩, by omega⟩
  rename_i hsmall
  -- from here on only the distance in an event and the index it counts from matter
  obtain ⟨hblock, hstart⟩ := small_distance hahead hsmall
  generalize (if 0 < next.block - prev.block then 0 else prev.index : UInt32) = start at hstart ⊢
  generalize (next.block - prev.block).toUInt8 = blockDiff at hblock hstart ⊢
  have hcounts : blockDiff.toNat = 0 ∧ start.toNat = prev.index.toNat ∨
      blockDiff.toNat ≠ 0 ∧ start.toNat = 0 := by
    rw [hstart]
    split
    · rename_i hsame
      exact .inl ⟨hsame ▸ rfl, rfl⟩
    · rename_i hlater
      exact .inr ⟨fun h => hlater (UInt8.toNat_inj.mp h), rfl⟩
  split
  · rename_i hbelow
    rw [UInt32.lt_iff_toNat_lt] at hbelow
    exact .inr ⟨⟨_, rfl⟩, by omega⟩
  rename_i hreached
  have hlogs : (next.index - start).toNat = next.index.toNat - start.toNat :=
    UInt32.toNat_sub_of_le _ _ (UInt32.not_lt.mp hreached)
  have hreached : start.toNat ≤ next.index.toNat :=
    UInt32.le_iff_toNat_le.mp (UInt32.not_lt.mp hreached)
  split
  · rename_i hskipped
    have hskipped : 1 < (next.index - start).toNat := UInt32.lt_iff_toNat_lt.mp hskipped
    exact .inr ⟨⟨_, rfl⟩, by omega⟩
  · rename_i hnext
    refine .inl ⟨_, rfl, rfl, hblock, ?_⟩
    show next.index.toNat =
      startIndex ⟨blockDiff, _, hash⟩ prev + (decide (0 < next.index - start)).toNat
    rw [startIndex, ← hstart, toNat_decide_pos hnext]
    omega

section Between

variable {prev next : Position} {event : LogRecord}

/-- There is an event exactly between near positions. -/
theorem exists_between_iff (hash : ShortHash) :
    (∃ event, between prev next hash = .ok event) ↔ prev.Near next := by
  rcases between_cases prev next hash with ⟨event, hok, -, hleads⟩ | ⟨⟨detail, herror⟩, hfar⟩
  · exact iff_of_true ⟨event, hok⟩ hleads.near
  · refine iff_of_false (fun ⟨event, hok⟩ => ?_) hfar
    cases herror.symm.trans hok

/-- The event between two positions is the one with this hash that leads from one to the other. -/
theorem between_eq_ok {hash : ShortHash} :
    between prev next hash = .ok event ↔ event.hash = hash ∧ event.Leads prev next := by
  rcases between_cases prev next hash with ⟨found, hok, rfl, hleads⟩ | ⟨⟨detail, herror⟩, hfar⟩
  · rw [hok]
    constructor
    · rintro ⟨⟩
      exact ⟨rfl, hleads⟩
    · rintro ⟨hhash, hevent⟩
      rw [hleads.unique hevent hhash.symm]
  · rw [herror]
    exact iff_of_false nofun fun h => hfar h.2.near

end Between

end LogRecord

end CrossSafety
