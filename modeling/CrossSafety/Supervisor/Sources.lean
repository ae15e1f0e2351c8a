import CrossSafety.Rewind.Source
import CrossSafety.Table

/-!
# Block sources in use

Workers and visitors, who use the stores from outside, each have block sources of their own. Of
each chain the source that was given last is watched: what it is asked for is kept, whoever has it.
What another source of the chain is asked for is not.
-/
namespace CrossSafety

inductive Asker where
  | worker
  | visitor
deriving DecidableEq

/-- What is known of the source that was given last for a chain. -/
structure SourceWatch where
  asker : Asker
  /-- The numbers that it was asked for, last first. -/
  asked : List UInt64
deriving DecidableEq

structure Sources where
  ofWorkers : Table ChainId BlockSource
  ofVisitors : Table ChainId BlockSource
  watches : Table ChainId SourceWatch

namespace Sources

def empty : Sources := ⟨.empty, .empty, .empty⟩

def get? (sources : Sources) : Asker → ChainId → Option BlockSource
  | .worker, chain => sources.ofWorkers.get? chain
  | .visitor, chain => sources.ofVisitors.get? chain

def give (sources : Sources) (asker : Asker) (chain : ChainId) (source : BlockSource) : Sources :=
  let watches := sources.watches.insert chain ⟨asker, []⟩
  match asker with
  | .worker => { sources with ofWorkers := sources.ofWorkers.insert chain source, watches }
  | .visitor => { sources with ofVisitors := sources.ofVisitors.insert chain source, watches }

/-- Notes that somebody asks the own source of a chain for a block. -/
def note (sources : Sources) (asker : Asker) (chain : ChainId) (number : UInt64) : Sources :=
  match sources.watches.get? chain with
  | none => sources
  | some watch =>
    if watch.asker = asker then
      { sources with
        watches := sources.watches.insert chain { watch with asked := number :: watch.asked } }
    else sources

/-- The numbers that the watched source of a chain was asked for since the last time, in order. -/
def takeAsked (sources : Sources) (chain : ChainId) : List UInt64 × Sources :=
  match sources.watches.get? chain with
  | none => ([], sources)
  | some watch =>
    (watch.asked.reverse,
      { sources with watches := sources.watches.insert chain { watch with asked := [] } })

end Sources

end CrossSafety
