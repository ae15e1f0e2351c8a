import CrossSafety.Chain.Store
import CrossSafety.DependencySet
import CrossSafety.Metrics.Observation

/-!
# The stores of a cluster

A cluster holds the chains of one dependency set: the open stores, and the files of the chains
that are not open. If it keeps metrics, every counted request is observed.
-/
namespace CrossSafety

/-- The stores of the chains of one dependency set. -/
structure Cluster where
  members : Membership
  chains : Table ChainId ChainStore
  /-- Files of the chains that are not open. -/
  files : Table ChainId Directory
  /-- The metrics, if any are kept. -/
  metrics : Option Registry

/-- The request that a write counts as, unless it is not counted. -/
def Operation.request? : Operation → Option StorageRequest
  | .initialise _ => none
  | .seal _ _ => some .seal
  | .addSource _ => some .addSource
  | .addDerived _ => some .addDerived
  | .setCrossSafe _ => some .setCrossSafe
  | .invalidate _ => some .invalidate
  | .setCrossUnsafe _ => none
  | .setFinalized _ => none
  | .rewindLocalUnsafe _ => some .rewindLocalUnsafe
  | .rewindCrossUnsafe _ => some .rewindCrossUnsafe
  | .rewindLocalSafe _ => some .rewindLocalSafe
  | .rewindCrossSafe _ => some .rewindCrossSafe

namespace Cluster

def empty (members : Membership) (metrics : Bool) : Cluster :=
  ⟨members, .empty, .empty, if metrics then some .empty else none⟩

def observe (cluster : Cluster) (observations : List Observation) : Cluster :=
  { cluster with metrics := cluster.metrics.map (·.observe observations) }

def store (cluster : Cluster) (chain : ChainId) : Except StorageError ChainStore :=
  match cluster.chains.get? chain with
  | some store => .ok store
  | none => .error .databaseNotInitialised

/-- A request to an open store, judged by its state. -/
def ask {α : Type} (cluster : Cluster) (chain : ChainId)
    (read : ChainStore → Except StorageError α) : Except StorageError α :=
  cluster.store chain >>= read

/-- Opens the store of a chain, unless it is open. -/
def create (cluster : Cluster) (chain : ChainId) : Except StorageError Unit × Cluster :=
  match cluster.chains.get? chain with
  | some _ => (.ok (), cluster)
  | none =>
    match ChainStore.load ((cluster.files.get? chain).getD .empty) with
    | .ok store =>
      let opened := { cluster with
        chains := cluster.chains.insert chain store
        files := cluster.files.erase chain }
      (.ok (), opened.observe [.storageOpened chain, .log chain (.entries store.logs.count)])
    | .error (e, directory) =>
      (.error e, { cluster with files := cluster.files.insert chain directory })

/-- Closes all stores. Their files stay, and so do the metrics. -/
def close (cluster : Cluster) : Cluster :=
  { cluster with
    chains := .empty
    files := cluster.chains.toList.foldl (fun files (chain, store) =>
      files.insert chain store.directory) cluster.files }

/-- Content of a file of a chain, whether the chain is open or not. -/
def content (cluster : Cluster) (chain : ChainId) (file : ChainFile) : Option Bytes :=
  match cluster.chains.get? chain with
  | some store => store.content file
  | none => ((cluster.files.get? chain).getD .empty).get file

/-- Closes all stores and gives a file of a chain another content. -/
def replaceFile (cluster : Cluster) (chain : ChainId) (file : ChainFile)
    (content : Option Bytes) : Cluster :=
  let closed := cluster.close
  let directory := ((closed.files.get? chain).getD .empty).set content file
  { closed with files := closed.files.insert chain directory }

def writeObservations (chain : ChainId) (operation : Operation) (done : Performed) :
    List Observation :=
  done.observed.map (Observation.log chain)
    ++ (operation.request?.map fun request =>
      Observation.request chain request done.result.isOk).toList

/-- The cluster after work on the open store of a chain. -/
def afterWork (cluster : Cluster) (chain : ChainId) (store : ChainStore)
    (observations : List Observation) : Cluster :=
  { cluster with chains := cluster.chains.insert chain store }.observe observations

def perform (cluster : Cluster) (chain : ChainId) (operation : Operation) :
    Except StorageError Unit × Cluster :=
  match cluster.store chain with
  | .error e => (.error e, cluster)
  | .ok store =>
    let done := store.perform operation
    (done.result, cluster.afterWork chain done.store (writeObservations chain operation done))

/-- Writes to the open store of a chain until a write fails. Answers how many were made, and
the failure. -/
def performAll (cluster : Cluster) (chain : ChainId) (operations : List Operation) :
    (Nat × Except StorageError Unit) × Cluster :=
  match cluster.store chain with
  | .error e => ((0, .error e), cluster)
  | .ok store =>
    let (answer, store, observed) := run 0 store [] operations
    (answer, cluster.afterWork chain store observed.reverse)
where
  /-- Writes to a store after `count` writes and what they reported, last first. -/
  run (count : Nat) (store : ChainStore) (observed : List Observation) :
      List Operation → (Nat × Except StorageError Unit) × ChainStore × List Observation
    | [] => ((count, .ok ()), store, observed)
    | operation :: rest =>
      let done := store.perform operation
      let observed := (writeObservations chain operation done).reverse ++ observed
      match done.result with
      | .error e => ((count, .error e), done.store, observed)
      | .ok () => run (count + 1) done.store observed rest

/-- The lowest blocks of other chains above their cross-safe heads that execute a message of a
block, in the order of the chain ids. -/
def dependents (cluster : Cluster) (chain : ChainId) (block : BlockId) :
    Except StorageError (List Dependent) :=
  match cluster.members.indexOfId chain with
  | .error _ => .error (.unknownChain chain)
  | .ok index => .ok (cluster.chains.toList.filterMap fun (other, store) =>
      if other = chain then none
      else (store.state.firstExecuting index block.number).map (Dependent.mk other))

/-- What a lookup of a sealed block reports. It opens the block. -/
def findSealedObservations (chain : ChainId) (store : ChainStore) (number : UInt64) :
    List Observation :=
  let found := (store.state.findSealed number).isOk
  [.request chain .blockAt found, .request chain .findSealed found]

/-- Reports the block number of every head of every open chain. -/
def reportHeads (cluster : Cluster) : Cluster :=
  cluster.observe (cluster.chains.toList.flatMap fun (chain, store) =>
    SafetyLevel.all.filterMap fun level =>
      (store.state.heads.get level).map fun block => .head chain level block.number)

end Cluster

end CrossSafety
