import CrossSafety.Safety.Check

/-!
# Stores that promotions write to

A promotion reads a state through its view and changes it by two writes. It also notes what it
does. Nothing is said here about how notes and writes change the state.
-/
namespace CrossSafety

inductive PromotionNote where
  | took (read : Read)
  | hazards (chain : ChainId) (count : Nat)
  | cycle (chain : ChainId)
  | invalidated (chain : ChainId) (count : Nat)
deriving DecidableEq

/-- How promotions read and change a state. -/
structure SafetyStore (σ : Type) where
  view : σ → SafetyView
  note : PromotionNote → σ → σ
  setCrossSafe : ChainId → DerivedPair → σ → Except StorageError Unit × σ
  invalidate : ChainId → DerivedPair → σ → Except StorageError Unit × σ

/-- A step of a promotion. The changes made before a failure stay. -/
abbrev Promotion (σ : Type) := ExceptT CrossSafetyError (StateM σ)

namespace SafetyStore

variable {σ α : Type}

def tell (store : SafetyStore σ) (note : PromotionNote) : Promotion σ Unit :=
  ExceptT.mk fun state => (.ok (), store.note note state)

def check (store : SafetyStore σ) (run : SafetyView → Check α) : Promotion σ α :=
  ExceptT.mk fun state =>
    let outcome := run (store.view state)
    (outcome.result, outcome.reads.foldl (fun state read => store.note (.took read) state) state)

def write (write : σ → Except StorageError Unit × σ) : Promotion σ Unit :=
  ExceptT.mk fun state =>
    let (result, state) := write state
    (result.mapError .storage, state)

end SafetyStore

end CrossSafety
