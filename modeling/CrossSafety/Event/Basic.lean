import CrossSafety.Block

/-!
# Events of a chain

What the workers of chains are told and what they tell each other.
-/
namespace CrossSafety

/-- Something that happened to a chain, or that is asked of its worker. -/
inductive Event where
  | updateCrossSafeRequest
  /-- The cross-safe head has moved, or is recorded in another source block. -/
  | crossSafeUpdate (head : DerivedPair)
  /-- A local-safe block was dropped. -/
  | localSafeInvalidated (invalidated : DerivedPair)
  /-- A block and all above it are not part of the chain any more. -/
  | chainReorg (bad : BlockSeal)
  | localDerived (pair : DerivedPair)
  | chainRewound (head : BlockSeal)
deriving DecidableEq

namespace Event

def toJson : Event → Json
  | .updateCrossSafeRequest => .record [("type", .text "UpdateCrossSafeRequest")]
  | .crossSafeUpdate head => .record [("type", .text "CrossSafeUpdate"), ("pair", head.toJson)]
  | .localSafeInvalidated pair =>
    .record [("type", .text "LocalSafeInvalidated"), ("pair", pair.toJson)]
  | .chainReorg bad => .record [("type", .text "ChainReorg"), ("block", bad.toJson)]
  | .localDerived pair => .record [("type", .text "LocalDerived"), ("pair", pair.toJson)]
  | .chainRewound head => .record [("type", .text "ChainRewound"), ("block", head.toJson)]

end Event

end CrossSafety
