import Rustscale.Lib.HashTable
import Rustscale.Lib.Machine
import Rustscale.Udprelay.Server

/-! The relay paths of the peers and the index from addresses to peers, with all that changes them:
the netmap, the relay manager and disco messages. -/
namespace Rustscale.Magicsock
open Disco
open Udprelay (SocketAddr)

/-- A path through a relay, with the server that it was bound for. -/
structure RelayPath where
  addr : SocketAddr
  vni : ℕ
  serverKey : NodePublic
  serverGeneration : ℕ
  deriving DecidableEq

def maxRelayPathHistoryPerServer : ℕ := 8

/-- What is kept for each peer. -/
structure Endpoint where
  peerDiscoKey : DiscoPublic
  relay : Option RelayPath
  relayHistory : HashTable (NodePublic × ℕ) (List SocketAddr)
  pendingPings : List (BitVec 96)
  deriving DecidableEq

namespace Endpoint

def new (peerDiscoKey : DiscoPublic) : Endpoint := ⟨peerDiscoKey, none, ∅, []⟩

/-- The endpoint with the path, and the addresses that leave the history of the server. -/
def setRelay (ep : Endpoint) (path : RelayPath) : Endpoint × List SocketAddr :=
  let identity := (path.serverKey, path.serverGeneration)
  let history := ((ep.relayHistory.lookup identity).getD []).erase path.addr ++ [path.addr]
  let excess := history.length - maxRelayPathHistoryPerServer
  ({ ep with
    relay := some path
    relayHistory := ep.relayHistory.insert identity (history.drop excess) }, history.take excess)

/-- The endpoint without the server, and the addresses it had through it. -/
def clearRelayServer (ep : Endpoint) (serverKey : NodePublic) (serverGeneration : ℕ) :
    Endpoint × List SocketAddr :=
  let identity := (serverKey, serverGeneration)
  let addresses := (ep.relayHistory.lookup identity).getD []
  let ep := { ep with relayHistory := ep.relayHistory.erase identity }
  match ep.relay with
  | none => (ep, addresses)
  | some relay =>
    if relay.serverKey = serverKey ∧ relay.serverGeneration = serverGeneration then
      ({ ep with relay := none },
        if relay.addr ∈ addresses then addresses else addresses ++ [relay.addr])
    -- the address may be used again through a newer server
    else (ep, addresses.filter (· ≠ relay.addr))

end Endpoint

/-- The counter of authorizations, and the current one of each peer. -/
structure PeerAuthorization where
  nextGeneration : ℕ
  generations : HashTable NodePublic ℕ
  deriving DecidableEq

namespace PeerAuthorization

variable (auth : PeerAuthorization)

def generation (peer : NodePublic) : Option ℕ :=
  auth.generations.lookup peer

def isCurrent (peer : NodePublic) (generation : ℕ) : Bool :=
  auth.generation peer == some generation

/-- A peer that is new, or has a new disco key, gets a new generation. -/
def refresh (refreshed : List NodePublic) (auth : PeerAuthorization) (peer : NodePublic) :
    PeerAuthorization :=
  if peer ∈ refreshed ∨ auth.generation peer = none then
    let generation := max ((auth.nextGeneration + 1) % 2 ^ 64) 1
    ⟨generation, auth.generations.insert peer generation⟩
  else auth

/-- The peers come in the order in which the set of them is iterated. -/
def reconcile (desired refreshed : List NodePublic) : PeerAuthorization :=
  desired.foldl (refresh refreshed)
    { auth with generations := auth.generations.retain fun peer _ => decide (peer ∈ desired) }

end PeerAuthorization

structure NetmapPeer where
  key : NodePublic
  discoKey : DiscoPublic
  deriving DecidableEq

def desired (peers : List NetmapPeer) : List NodePublic :=
  (peers.filter fun peer => peer.key ≠ 0).map (·.key)

def desiredDisco (peers : List NetmapPeer) : HashTable NodePublic DiscoPublic :=
  .ofList ((peers.filter fun peer => peer.key ≠ 0).map fun peer => (peer.key, peer.discoKey))

/-- How far a netmap is installed. Tasks that do not wait for the barrier may run in between. -/
inductive Phase where
  | purged
  | unmapped
  | replaced
  | remapped
  deriving DecidableEq

/-- A netmap update in progress. -/
structure Netmap where
  peers : List NetmapPeer
  refreshed : List NodePublic
  phase : Phase
  deriving DecidableEq

/-- The endpoints and the indices into them, behind one lock. -/
structure Inner where
  endpoints : HashTable NodePublic Endpoint
  addrToPeer : HashTable SocketAddr NodePublic
  discoToPeer : HashTable DiscoPublic NodePublic
  authorization : PeerAuthorization
  netmap : Option Netmap
  deriving DecidableEq

def release (peer : NodePublic) (index : HashTable SocketAddr NodePublic) (addr : SocketAddr) :
    HashTable SocketAddr NodePublic :=
  if index.lookup addr = some peer then index.erase addr else index

namespace Inner

def new : Inner := ⟨∅, ∅, ∅, ⟨0, ∅⟩, none⟩

variable (s : Inner) (peers : List NetmapPeer)

def refreshedBy : List NodePublic :=
  (s.endpoints.pairs.filter fun e =>
    ((desiredDisco peers).lookup e.1).any fun disco => e.2.peerDiscoKey ≠ disco).map (·.1)

/-- The first phase, with the barrier taken. -/
def purge : Inner :=
  let refreshed := s.refreshedBy peers
  { s with
    endpoints := s.endpoints.retain fun peer _ =>
      decide (peer ∈ desired peers) && decide (peer ∉ refreshed)
    netmap := some ⟨peers, refreshed, .purged⟩ }

variable (refreshed : List NodePublic)

def unmap : Inner :=
  { s with
    discoToPeer := s.discoToPeer.retain fun disco peer =>
      decide (peer ∉ refreshed) &&
        ((desiredDisco peers).lookup peer).any fun current => current ≠ 0 ∧ current = disco
    addrToPeer := s.addrToPeer.retain fun _ peer =>
      decide (peer ∈ desired peers) && decide (peer ∉ refreshed)
    netmap := some ⟨peers, refreshed, .unmapped⟩ }

def upsert (peer : NetmapPeer) : Inner :=
  if peer.key = 0 then s
  else
    let ep := (s.endpoints.lookup peer.key).getD (.new peer.discoKey)
    let previous := ep.peerDiscoKey
    let discoToPeer :=
      if previous ≠ peer.discoKey ∧ previous ≠ 0 ∧ s.discoToPeer.lookup previous = some peer.key then
        s.discoToPeer.erase previous
      else s.discoToPeer
    { s with
      endpoints := s.endpoints.insert peer.key { ep with peerDiscoKey := peer.discoKey }
      discoToPeer :=
        if peer.discoKey ≠ 0 then discoToPeer.insert peer.discoKey peer.key else discoToPeer }

def replace : Inner :=
  peers.foldl upsert
    { s with
      endpoints := s.endpoints.retain fun peer _ => decide (peer ∈ desired peers)
      discoToPeer := s.discoToPeer.retain fun _ peer => decide (peer ∈ desired peers)
      netmap := some ⟨peers, refreshed, .replaced⟩ }

def remap : Inner :=
  { s with
    addrToPeer := s.addrToPeer.retain fun _ peer => decide (peer ∈ desired peers)
    netmap := some ⟨peers, refreshed, .remapped⟩ }

/-- The last phase; the barrier is released. -/
def publish (order refreshed : List NodePublic) : Inner :=
  { s with authorization := s.authorization.reconcile order refreshed, netmap := none }

def setRelay (s : Inner) (peerKey : NodePublic) (peerDisco : DiscoPublic)
    (authorizationGeneration : ℕ) (path : RelayPath) : Option Inner :=
  if !s.authorization.isCurrent peerKey authorizationGeneration ||
      !s.authorization.isCurrent path.serverKey path.serverGeneration then none
  else
    match s.endpoints.lookup peerKey with
    | none => none
    | some ep =>
      if ep.peerDiscoKey ≠ peerDisco then none
      else
        let previous := ep.relay.toList.map (·.addr)
        let (ep, evicted) := ep.setRelay path
        let index := previous.foldl (release peerKey) s.addrToPeer
        let index := (evicted.filter (· ≠ path.addr)).foldl (release peerKey) index
        some { s with
          endpoints := s.endpoints.insert peerKey ep
          addrToPeer := index.insert path.addr peerKey }

def clearRelayServer (s : Inner) (serverKey : NodePublic) (serverDisco : DiscoPublic)
    (serverGeneration : ℕ) : Inner :=
  { s with
    endpoints := s.endpoints.update fun _ ep => (ep.clearRelayServer serverKey serverGeneration).1
    addrToPeer := s.endpoints.pairs.foldl (fun index e =>
      (e.2.clearRelayServer serverKey serverGeneration).2.foldl (release e.1) index) s.addrToPeer
    discoToPeer :=
      if s.discoToPeer.lookup serverDisco = some serverKey then s.discoToPeer.erase serverDisco
      else s.discoToPeer }

def authorizedDiscoGeneration (peerKey : NodePublic) (senderDisco : DiscoPublic) : Option ℕ :=
  match s.endpoints.lookup peerKey with
  | none => none
  | some ep =>
    if ep.peerDiscoKey ≠ senderDisco then none else s.authorization.generation peerKey

/-- The peer that a UDP message comes from, and the disco index after it. -/
def sender (senderDisco : DiscoPublic) (msg : Message) :
    Option (NodePublic × HashTable DiscoPublic NodePublic) :=
  match (s.discoToPeer.lookup senderDisco).filter fun peer =>
      (s.authorizedDiscoGeneration peer senderDisco).isSome with
  | some peer => some (peer, s.discoToPeer)
  | none =>
    match msg with
    | .ping ping =>
      if ping.nodeKey = 0 then none
      else if (s.authorizedDiscoGeneration ping.nodeKey senderDisco).isNone then none
      else some (ping.nodeKey, s.discoToPeer.insert senderDisco ping.nodeKey)
    | .pong pong =>
      let found := s.endpoints.pairs.find? fun e =>
        e.2.peerDiscoKey == senderDisco && (s.authorization.generation e.1).isSome &&
          decide (pong.txId ∈ e.2.pendingPings)
      found.map fun e => (e.1, s.discoToPeer)
    | _ => none

/-- The node after a UDP disco message, and the peer that the source is recorded for. -/
def handleDiscoUdp (disableDirectPaths : Bool) (senderDisco : DiscoPublic) (msg : Message)
    (src : SocketAddr) : Inner × Option NodePublic :=
  match s.sender senderDisco msg with
  | none => (s, none)
  | some (peer, discoToPeer) =>
    let s := { s with discoToPeer }
    match msg with
    | .ping _ =>
      if disableDirectPaths then (s, none)
      else ({ s with addrToPeer := s.addrToPeer.insert src peer }, some peer)
    | .pong pong =>
      match s.endpoints.lookup peer with
      | none => (s, none)
      | some ep =>
        if pong.txId ∈ ep.pendingPings then
          let ep := { ep with pendingPings := ep.pendingPings.filter (· ≠ pong.txId) }
          ({ s with
            endpoints := s.endpoints.insert peer ep
            addrToPeer := s.addrToPeer.insert src peer }, some peer)
        else (s, none)
    | _ => (s, none)

/-- The pings of the peer that are pending change: one is sent, some expire. -/
def setPendingPings (peer : NodePublic) (pendingPings : List (BitVec 96)) : Inner :=
  match s.endpoints.lookup peer with
  | none => s
  | some ep => { s with endpoints := s.endpoints.insert peer { ep with pendingPings } }

/-- The peer that a WireGuard packet is delivered for, and its generation. -/
def handleWgUdpRelay (src : SocketAddr) (vni : ℕ) : Option (NodePublic × ℕ) := do
  let peer ← s.addrToPeer.lookup src
  let generation ← s.authorization.generation peer
  let endpoint ← s.endpoints.lookup peer
  let relay ← endpoint.relay
  if relay.addr ≠ src ∨ relay.vni ≠ vni ∨
      s.authorization.isCurrent relay.serverKey relay.serverGeneration = false then none
  else some (peer, generation)

end Inner

/-- What an observer sees of the socket. -/
inductive Event where
  | recorded (addr : SocketAddr) (peer : NodePublic)
  | delivered (peer : NodePublic) (generation : ℕ) (src : SocketAddr) (vni : ℕ)
  deriving DecidableEq

/-- What may happen to the socket, one critical section at a time. -/
inductive Action where
  | setNetmap (peers : List NetmapPeer)
  | goOn (order : List NodePublic)
  | setRelay (peerKey : NodePublic) (peerDisco : DiscoPublic) (authorizationGeneration : ℕ)
      (path : RelayPath)
  | clearRelayServer (serverKey : NodePublic) (serverDisco : DiscoPublic) (serverGeneration : ℕ)
  | discoUdp (senderDisco : DiscoPublic) (msg : Message) (src : SocketAddr)
  | setPendingPings (peer : NodePublic) (pendingPings : List (BitVec 96))
  | wgUdpRelay (src : SocketAddr) (vni : ℕ)
  | reorder (endpoints : HashTable NodePublic Endpoint)

def Netmap.goOn (netmap : Netmap) (s : Inner) (order : List NodePublic) : Option Inner :=
  match netmap.phase with
  | .purged => some (s.unmap netmap.peers netmap.refreshed)
  | .unmapped => some (s.replace netmap.peers netmap.refreshed)
  | .replaced => some (s.remap netmap.peers netmap.refreshed)
  | .remapped =>
    if order.Perm (desired netmap.peers).dedup then some (s.publish order netmap.refreshed) else none

def Inner.step (disableDirectPaths : Bool) (s : Inner) : Action → Option (Inner × List Event)
  | .setNetmap peers => if s.netmap.isNone then some (s.purge peers, []) else none
  | .goOn order =>
    match s.netmap with
    | none => none
    | some netmap => (netmap.goOn s order).map fun s => (s, [])
  | .setRelay peerKey peerDisco authorizationGeneration path =>
    match s.setRelay peerKey peerDisco authorizationGeneration path with
    | none => some (s, [])
    | some s => some (s, [.recorded path.addr peerKey])
  | .clearRelayServer serverKey serverDisco serverGeneration =>
    some (s.clearRelayServer serverKey serverDisco serverGeneration, [])
  | .discoUdp senderDisco msg src =>
    -- the handler waits for the barrier
    if s.netmap.isNone then
      let (s, peer) := s.handleDiscoUdp disableDirectPaths senderDisco msg src
      some (s, peer.toList.map (.recorded src))
    else none
  | .setPendingPings peer pendingPings => some (s.setPendingPings peer pendingPings, [])
  | .wgUdpRelay src vni =>
    if s.netmap.isNone then
      some (s, (s.handleWgUdpRelay src vni).toList.map fun d => .delivered d.1 d.2 src vni)
    else none
  | .reorder endpoints =>
    if s.endpoints.Reordered endpoints then some ({ s with endpoints }, []) else none

def machine (disableDirectPaths : Bool) : Machine Inner Action Event :=
  ⟨.new, Inner.step disableDirectPaths⟩

end Rustscale.Magicsock
