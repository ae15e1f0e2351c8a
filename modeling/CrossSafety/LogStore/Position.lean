import CrossSafety.Block

/-!
# Positions of logs

Logs are ordered by block number and, within a block, by index.
-/
namespace CrossSafety

/-- Where a log is: the number of its block and its index in that block. -/
structure Position where
  block : UInt64
  index : UInt32
deriving DecidableEq, Inhabited

namespace Position

/-- The position in front of every log: block zero has none. -/
def origin : Position := ⟨0, 0⟩

/-- A number that orders positions by block and then by index. -/
def rank (position : Position) : Nat :=
  position.block.toNat * 4294967296 + position.index.toNat

instance : LT Position := ⟨fun a b => a.rank < b.rank⟩
instance (a b : Position) : Decidable (a < b) := inferInstanceAs (Decidable (a.rank < b.rank))

theorem lt_def {a b : Position} : a < b ↔ a.rank < b.rank := Iff.rfl

theorem rank_inj {a b : Position} (h : a.rank = b.rank) : a = b := by
  have ha := a.index.toNat_lt
  have hb := b.index.toNat_lt
  unfold rank at h
  have block : a.block.toNat = b.block.toNat := by omega
  have index : a.index.toNat = b.index.toNat := by omega
  cases a; cases b
  simp_all [UInt64.toNat_inj, UInt32.toNat_inj]

def text (position : Position) : String :=
  "(" ++ toString position.block ++ ", " ++ toString position.index ++ ")"

end Position

end CrossSafety
