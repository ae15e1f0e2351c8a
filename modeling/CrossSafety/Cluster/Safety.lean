import CrossSafety.Cluster.Basic
import CrossSafety.Safety.Promotion

/-!
# Promotions on a cluster

Promotions read the open stores of a cluster and write to them.
-/
namespace CrossSafety.Cluster

def view (cluster : Cluster) : SafetyView where
  blockAt chain number := cluster.ask chain fun store => store.state.blockAt number
  contains chain query := cluster.ask chain fun store => store.contains query
  candidate chain := cluster.ask chain fun store => store.state.candidate
  crossSafe chain := cluster.ask chain fun store => store.state.crossSafeHead
  sourceOf chain block := cluster.ask chain fun store => store.state.sourceOf block
  sourceAfter chain source := cluster.ask chain fun store => store.state.sourceAfter source
  dependents chain block := cluster.dependents chain block

def readObservations (cluster : Cluster) : Read → List Observation
  | .blockAt chain number => onOpen chain fun store =>
      [.request chain .blockAt (store.state.blockAt number).isOk]
  | .contains chain query => onOpen chain fun store =>
      (store.containsObservations query).map (Observation.log chain)
        ++ [.request chain .contains (store.contains query).isOk]
  | .candidate chain => onOpen chain fun store =>
      [.request chain .candidate store.state.candidate.isOk]
  | .sourceOf chain block => onOpen chain fun store =>
      [.request chain .sourceOf (store.state.sourceOf block).isOk]
  | .crossSafe _ | .sourceAfter _ _ => []
  | .dependents chain block =>
    [.request chain .dependents (cluster.dependents chain block).isOk]
where
  onOpen (chain : ChainId) (report : ChainStore → List Observation) : List Observation :=
    ((cluster.chains.get? chain).map report).getD []

def noteRead (cluster : Cluster) (read : Read) : Cluster :=
  match cluster.metrics with
  | none => cluster
  | some _ => cluster.observe (cluster.readObservations read)

def note (cluster : Cluster) : PromotionNote → Cluster
  | .took read => cluster.noteRead read
  | .hazards chain count => cluster.observe [.hazards chain count]
  | .cycle chain => cluster.observe [.cycle chain]
  | .invalidated chain count => cluster.observe [.invalidated chain count]

/-- How promotions read and change the open stores. -/
def safetyStore : SafetyStore Cluster where
  view := view
  note step cluster := cluster.note step
  setCrossSafe chain pair cluster := cluster.perform chain (.setCrossSafe pair)
  invalidate chain pair cluster := cluster.perform chain (.invalidate pair)

def promoter (cluster : Cluster) (hazardLimit : Nat) : Promoter Cluster :=
  ⟨safetyStore, cluster.members.lookups, hazardLimit⟩

def promote (cluster : Cluster) (hazardLimit : Nat) (chain : ChainId) :
    Except CrossSafetyError PromotionOutcome × Cluster :=
  (ExceptT.run ((cluster.promoter hazardLimit).update chain)).run cluster

end CrossSafety.Cluster
