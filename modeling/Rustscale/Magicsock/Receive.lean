import Rustscale.Magicsock.Paths

/-! The receive handlers: each looks a peer up, waits, is authorized under the barrier, waits for
credits, and publishes under the barrier again, which a netmap holds while it is installed. -/
namespace Rustscale.Magicsock
open Disco
open Udprelay (SocketAddr)

def PeerAuthorization.grants (refreshed : List NodePublic) :
    PeerAuthorization → List NodePublic → List (NodePublic × ℕ)
  | _, [] => []
  | auth, peer :: peers =>
    let auth' := auth.refresh refreshed peer
    (if peer ∈ refreshed ∨ auth.generation peer = none then [(peer, auth'.nextGeneration)] else []) ++
      grants refreshed auth' peers

inductive Route where
  | direct
  | relay (vni : ℕ)
  deriving DecidableEq

/-- A receive handler. Datagrams carry the peer and its generation. -/
inductive Task where
  | looked (route : Route) (src : SocketAddr) (peer : NodePublic)
  | identifying (peers : List NodePublic) (stamped : List (NodePublic × ℕ))
  | waiting (datagrams : List (NodePublic × ℕ))
  | sending (datagrams : List (NodePublic × ℕ))
  | ended
  deriving DecidableEq

def Task.isSending : Task → Bool
  | .sending _ => true
  | _ => false

/-- The socket with the tasks that have read datagrams from it. -/
structure Receiver where
  inner : Inner
  tasks : List Task
  deriving DecidableEq

/-- A netmap that was applied, or a datagram that was published. -/
inductive Notice where
  | returned (peers : List NetmapPeer) (grants : List (NodePublic × ℕ))
  | published (peer : NodePublic) (generation : ℕ)
  deriving DecidableEq

/-- A step of the socket or of one of its reader tasks. -/
inductive Act where
  | node (action : Action)
  | derp (source : NodePublic)
  | receive (route : Route) (src : SocketAddr)
  | batch (srcs : List SocketAddr)
  | turn (task : ℕ)
  | cancel (task : ℕ)

namespace Inner

/-- The generation of the sender of a frame from a relay of DERP. -/
def handleDerpPacket (s : Inner) (source : NodePublic) : Option ℕ := do
  let generation ← s.authorization.generation source
  let _ ← s.endpoints.lookup source
  return generation

/-- The second look at the peer of an address, under the barrier. -/
def handleWgUdp (s : Inner) (route : Route) (src : SocketAddr) (peer : NodePublic) : Option ℕ :=
  if s.addrToPeer.lookup src ≠ some peer then none
  else
    match route with
    | .direct => do
      let generation ← s.authorization.generation peer
      let _ ← s.endpoints.lookup peer
      return generation
    | .relay vni => (s.handleWgUdpRelay src vni).map (·.2)

/-- The last phase of a netmap is when the call returns. -/
def returns (s : Inner) (order : List NodePublic) : List Notice :=
  match s.netmap with
  | some ⟨peers, refreshed, .remapped⟩ =>
    let retained := s.authorization.generations.retain fun peer _ => decide (peer ∈ order)
    [.returned peers (PeerAuthorization.grants refreshed
      { s.authorization with generations := retained } order)]
  | _ => []

end Inner

namespace Receiver

def new : Receiver := ⟨.new, []⟩

variable (disableDirectPaths : Bool) (s : Receiver)

def spawn (task : Task) : Receiver := { s with tasks := s.tasks ++ [task] }

def setTask (i : ℕ) (task : Task) : Receiver := { s with tasks := s.tasks.set i task }

/-- A netmap waits for the tasks that hold the barrier. -/
def node (action : Action) : Option (Receiver × List Notice) :=
  match action with
  | .wgUdpRelay _ _ => none
  | .setNetmap peers =>
    if s.tasks.any Task.isSending then none
    else (s.inner.step disableDirectPaths (.setNetmap peers)).map fun r => ({ s with inner := r.1 }, [])
  | .goOn order =>
    (s.inner.step disableDirectPaths (.goOn order)).map fun r =>
      ({ s with inner := r.1 }, s.inner.returns order)
  | action => (s.inner.step disableDirectPaths action).map fun r => ({ s with inner := r.1 }, [])

def turn (i : ℕ) : Task → Option (Receiver × List Notice)
  | .looked route src peer =>
    if s.inner.netmap.isNone then
      match s.inner.handleWgUdp route src peer with
      | none => some (s.setTask i .ended, [])
      | some generation => some (s.setTask i (.waiting [(peer, generation)]), [])
    else none
  -- generations of a batch are read without the barrier
  | .identifying (peer :: peers) stamped =>
    some (s.setTask i (.identifying peers
      (stamped ++ (s.inner.authorization.generation peer).toList.map (peer, ·))), [])
  | .identifying [] stamped => some (s.setTask i (.waiting stamped), [])
  | .waiting datagrams =>
    if s.inner.netmap.isNone then
      let datagrams := datagrams.filter fun d => s.inner.authorization.isCurrent d.1 d.2
      some (s.setTask i (if datagrams = [] then .ended else .sending datagrams), [])
    else none
  | .sending datagrams =>
    some (s.setTask i .ended, datagrams.map fun d => .published d.1 d.2)
  | .ended => none

def step : Act → Option (Receiver × List Notice)
  | .node action => s.node disableDirectPaths action
  | .derp source =>
    if s.inner.netmap.isNone then
      match s.inner.handleDerpPacket source with
      | none => some (s, [])
      | some generation => some (s.spawn (.waiting [(source, generation)]), [])
    else none
  | .receive route src =>
    match s.inner.addrToPeer.lookup src with
    | none => some (s, [])
    | some peer => some (s.spawn (.looked route src peer), [])
  | .batch srcs => some (s.spawn (.identifying (srcs.filterMap s.inner.addrToPeer.lookup) []), [])
  | .turn i => (s.tasks[i]?).bind (s.turn i)
  | .cancel i => some (s.setTask i .ended, [])

def machine : Machine Receiver Act Notice := ⟨.new, step disableDirectPaths⟩

end Receiver

end Rustscale.Magicsock
