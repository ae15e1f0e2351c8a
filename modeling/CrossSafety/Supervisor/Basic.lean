import CrossSafety.Cluster.Safety
import CrossSafety.Config
import CrossSafety.Supervisor.Sources
import CrossSafety.Worker.Basic

/-!
# The supervisor

A supervisor keeps the stores of a cluster, the block sources of its chains and the workers that
run. Events for a chain are emitted to one receiver: the worker of the chain, or a listener outside
that has taken its place. What cannot be received is lost.
-/
namespace CrossSafety

inductive Receiver where
  | listener
  | worker
deriving DecidableEq

structure Supervisor where
  config : Config
  cluster : Cluster
  sources : Sources
  receivers : Table ChainId Receiver
  listeners : Table ChainId Channel
  workers : Table ChainId Worker
  log : EventLog
  /-- Milliseconds since some moment. -/
  now : Nat
  cancelled : Bool

namespace Supervisor

/-- A supervisor over the files of a cluster, which nobody uses yet. -/
def idle (config : Config) (cluster : Cluster) (now : Nat) : Supervisor where
  config
  cluster
  sources := .empty
  receivers := .empty
  listeners := .empty
  workers := .empty
  log := .empty config.channelCapacity.toNat
  now
  cancelled := false

def fresh (config : Config) : Supervisor :=
  idle config (.empty config.dependencySet config.metricsEnabled) 0

/-- A supervisor without any files, if it can run with a configuration. -/
def create (config : Config) : Except ConfigError Supervisor := do
  config.validate
  return fresh config

/-- A supervisor that starts over with the same files. What handlers have noted stays. -/
def reopen (supervisor : Supervisor) : Supervisor :=
  let next := idle supervisor.config supervisor.cluster.close supervisor.now
  { next with log := { next.log with noted := supervisor.log.noted } }

def observe (supervisor : Supervisor) (observations : List Observation) : Supervisor :=
  { supervisor with cluster := supervisor.cluster.observe observations }

def onCluster {α : Type} (supervisor : Supervisor) (run : Cluster → α × Cluster) :
    α × Supervisor :=
  let (result, cluster) := run supervisor.cluster
  (result, { supervisor with cluster })

/-! ## Sources -/

def setSource (supervisor : Supervisor) (chain : ChainId) (source : BlockSource) : Supervisor :=
  { supervisor with sources := supervisor.sources.give .visitor chain source }

/-- Notes that somebody asks the source of a chain for a block. -/
def noteAsked (supervisor : Supervisor) (asker : Asker) (chain : ChainId) (number : UInt64) :
    Supervisor :=
  { supervisor with sources := supervisor.sources.note asker chain number }

/-- The numbers that the watched source of a chain was asked for since the last time, in order. -/
def takeAsked (supervisor : Supervisor) (chain : ChainId) : List UInt64 × Supervisor :=
  let (asked, sources) := supervisor.sources.takeAsked chain
  (asked, { supervisor with sources })

/-- Asks the visitors' source of a chain for a block. -/
def askSource (supervisor : Supervisor) (chain : ChainId) (number : UInt64) :
    Except RewindError BlockRef × Supervisor :=
  match supervisor.sources.get? .visitor chain with
  | none => (.error (.missingBlockSource chain), supervisor)
  | some source => ((source number).mapError .source, supervisor.noteAsked .visitor chain number)

/-! ## Receivers -/

/-- Makes a listener the receiver of a chain's events. -/
def listen (supervisor : Supervisor) (chain : ChainId) (capacity : Nat) : Supervisor :=
  { supervisor with
    receivers := supervisor.receivers.insert chain .listener
    listeners := supervisor.listeners.insert chain (.empty capacity) }

/-- What a listener received since the last time, if there is one. -/
def takeHeard (supervisor : Supervisor) (chain : ChainId) :
    Option (List Event) × Supervisor :=
  match supervisor.listeners.get? chain with
  | none => (none, supervisor)
  | some channel =>
    (some channel.waiting,
      { supervisor with
        listeners := supervisor.listeners.insert chain (.empty channel.capacity) })

/-- Takes the listener of a chain away. Says whether there was one. -/
def hangUp (supervisor : Supervisor) (chain : ChainId) : Bool × Supervisor :=
  (supervisor.listeners.contains chain,
    { supervisor with listeners := supervisor.listeners.erase chain })

/-- Sends an event to the listener of a chain. Says whether it was taken. -/
def sendToListener (supervisor : Supervisor) (chain : ChainId) (event : Event) :
    Bool × Supervisor :=
  match (supervisor.listeners.get? chain).bind (·.send? event) with
  | none => (false, supervisor)
  | some channel =>
    (true, { supervisor with listeners := supervisor.listeners.insert chain channel })

/-- Sends an event to the worker of a chain. Says whether it was taken. -/
def send (supervisor : Supervisor) (chain : ChainId) (event : Event) : Bool × Supervisor :=
  match (supervisor.workers.get? chain).bind (·.send? event) with
  | none => (false, supervisor)
  | some worker => (true, { supervisor with workers := supervisor.workers.insert chain worker })

/-- Emits an event of a chain. Says whether it was received. -/
def emit (supervisor : Supervisor) (chain : ChainId) (event : Event) : Bool × Supervisor :=
  match supervisor.receivers.get? chain with
  | none => (false, supervisor)
  | some .listener => supervisor.sendToListener chain event
  | some .worker => supervisor.send chain event

end Supervisor

end CrossSafety
