import CrossSafety.StorageError

/-!
# Block sources

A block source says which blocks a chain consists of by now. A `RewindRequest` says what a chain
is rewound for, and a `RewindError` why it was not.
-/
namespace CrossSafety

inductive SourceError where
  | notFound (number : UInt64)
  | request (detail : String)
deriving DecidableEq

def SourceError.message : SourceError → String
  | .notFound number => "block " ++ toString number ++ " not found"
  | .request detail => "block source request failed: " ++ detail

abbrev BlockSource := UInt64 → Except SourceError BlockRef

inductive RewindRequest where
  | chainReorg
  | localDerived
deriving DecidableEq

def RewindRequest.text : RewindRequest → String
  | .chainReorg => "chain_reorg"
  | .localDerived => "local_derived"

inductive RewindError where
  | missingBlockSource (chain : ChainId)
  | source (cause : SourceError)
  | storage (cause : StorageError)
  /-- No stored block that may be given up to is a block of the source. -/
  | noCommonAncestor (chain : ChainId)
deriving DecidableEq

def RewindError.message : RewindError → String
  | .missingBlockSource chain => "block source not found for chain: " ++ toString chain
  | .source cause => cause.message
  | .storage cause => cause.message
  | .noCommonAncestor chain =>
    "no common ancestor with the block source on chain " ++ toString chain

end CrossSafety
