import Rustscale.Lib.HashTable
import Rustscale.Udprelay.Server

/-! The relay manager allocates endpoints on relay servers, runs the bind handshakes and routes
messages to them, one event at a time. -/
namespace Rustscale.RelayManager
open Disco
open Udprelay (SocketAddr ServerEndpoint)

/-- A peer that may be used as a relay server. -/
structure CandidatePeerRelay where
  nodeKey : NodePublic
  discoKey : DiscoPublic
  derpHomeRegion : ℕ
  authorizationGeneration : ℕ
  deriving DecidableEq

def CandidatePeerRelay.isValid (server : CandidatePeerRelay) : Bool :=
  server.nodeKey != 0 && server.discoKey != 0

def AddrPort.toSocketAddr (a : AddrPort) : SocketAddr :=
  match a.ip with
  | .v4 ip => .v4 ip a.port
  | .v6 ip => .v6 ip a.port 0 0

def fromUdpRelayEndpoint (ep : UdpRelayEndpoint) : ServerEndpoint where
  serverDisco := ep.serverDisco
  clientDisco := ep.clientDisco
  lamportId := ep.lamportId.toNat
  addrPorts := ep.addrPorts.map AddrPort.toSocketAddr
  vni := ep.vni.toNat
  bindLifetime := ep.bindLifetime
  steadyStateLifetime := ep.steadyStateLifetime

structure AddrPortVni where
  addr : SocketAddr
  vni : ℕ
  deriving DecidableEq

structure ServerDiscoVni where
  serverDisco : DiscoPublic
  vni : ℕ
  deriving DecidableEq

def sortPair (a b : DiscoPublic) : DiscoPublic × DiscoPublic := if a ≤ b then (a, b) else (b, a)

/-- A disco message that came through a relay or from a server. -/
structure RelayDiscoMsg where
  msg : Message
  disco : DiscoPublic
  src : SocketAddr
  vni : ℕ
  relayServerNodeKey : Option NodePublic
  sourceNodeKey : Option NodePublic
  authorizationGeneration : Option ℕ
  deriving DecidableEq

/-- What an allocation task posts when it ends. -/
structure AllocWorkResult where
  peerKey : NodePublic
  peerDisco : DiscoPublic
  authorizationGeneration : ℕ
  server : CandidatePeerRelay
  serverEndpoint : Option ServerEndpoint
  deriving DecidableEq

/-- What a handshake task posts when it ends. -/
structure HandshakeWorkResult where
  peerKey : NodePublic
  peerDisco : DiscoPublic
  authorizationGeneration : ℕ
  relayServer : CandidatePeerRelay
  handshakeGeneration : ℕ
  serverDisco : DiscoPublic
  vni : ℕ
  pongFrom : Option SocketAddr
  deriving DecidableEq

/-- Callers that wait for an event to be handled are left out. -/
inductive RelayEvent where
  | startDiscovery (peerKey : NodePublic) (peerDisco : DiscoPublic) (authorizationGeneration : ℕ)
  | cancelWork (peerKey : NodePublic)
  | serversUpdate (servers : List CandidatePeerRelay)
  | newServerEndpoint (peerKey : NodePublic) (peerDisco : DiscoPublic)
      (authorizationGeneration : ℕ) (serverEndpoint : ServerEndpoint)
      (server : Option CandidatePeerRelay)
  | discoMsg (msg : RelayDiscoMsg)
  | derpHomeChange (nodeKey : NodePublic) (region : ℕ)
  | allocWorkDone (result : AllocWorkResult)
  | handshakeWorkDone (result : HandshakeWorkResult)
  deriving DecidableEq

/-- What an allocation task is started with. -/
structure AllocArgs where
  peerKey : NodePublic
  peerDisco : DiscoPublic
  authorizationGeneration : ℕ
  server : CandidatePeerRelay
  discoKeys : DiscoPublic × DiscoPublic
  allocGen : ℕ
  deriving DecidableEq

/-- What a handshake task is started with. -/
structure HandshakeArgs where
  peerKey : NodePublic
  peerDisco : DiscoPublic
  authorizationGeneration : ℕ
  relayServer : CandidatePeerRelay
  serverEndpoint : ServerEndpoint
  handshakeGen : ℕ
  deriving DecidableEq

/-- An allocation in flight. Its channels are those of its task. -/
structure AllocWork where
  authorizationGeneration : ℕ
  discoKeys : DiscoPublic × DiscoPublic
  allocGen : ℕ
  task : ℕ
  deriving DecidableEq

/-- A handshake in flight. Its channels are those of its task. -/
structure HandshakeWork where
  authorizationGeneration : ℕ
  relayServer : CandidatePeerRelay
  handshakeGeneration : ℕ
  vni : ℕ
  lamportId : ℕ
  task : ℕ
  deriving DecidableEq

/-- The tables of the manager, those of a peer's work as one, under the peer and the server. Tasks
are numbered as they are spawned. -/
structure State where
  serversByNodeKey : HashTable NodePublic CandidatePeerRelay
  allocWork : HashTable (NodePublic × CandidatePeerRelay) AllocWork
  handshakeWork : HashTable (NodePublic × DiscoPublic) HandshakeWork
  handshakeBySdv : HashTable ServerDiscoVni NodePublic
  handshakeAwaitingPong : HashTable AddrPortVni NodePublic
  handshakeGeneration : ℕ
  allocGeneration : ℕ
  spawned : ℕ

/-- What the manager asks its node: these change from outside. -/
structure Context where
  ourDiscoPublic : DiscoPublic
  peerDiscoKey : NodePublic → Option DiscoPublic
  peerAuthorizationGeneration : NodePublic → Option ℕ

/-- What the manager does to the outside. -/
inductive Effect where
  | allocStarted (task : ℕ) (args : AllocArgs)
  | allocCancelled (task : ℕ)
  | allocDone (task : ℕ)
  | responded (task : ℕ) (resp : AllocateUdpRelayEndpointResponse)
  | handshakeStarted (task : ℕ) (args : HandshakeArgs)
  | handshakeCancelled (task : ℕ) (peerKey : NodePublic) (vni : ℕ)
  | handshakeDone (task : ℕ) (peerKey : NodePublic)
  | handed (task : ℕ) (peerKey : NodePublic) (msg : Message) (src : SocketAddr) (vni : ℕ)
  | serversSet (servers : List CandidatePeerRelay)
  | setRelay (peerKey : NodePublic) (peerDisco : DiscoPublic) (authorizationGeneration : ℕ)
      (relayServerKey : NodePublic) (relayServerGeneration : ℕ) (addr : SocketAddr) (vni : ℕ)
  | clearRelayServer (relayServerKey : NodePublic) (relayServerDisco : DiscoPublic)
      (relayServerGeneration : ℕ)
  | sendPongViaRelay (addr : SocketAddr) (vni : ℕ) (peerDisco : DiscoPublic) (txId : BitVec 96)
  deriving DecidableEq

/-- A counter of 32 bits that leaves out zero. -/
def nextGen (generation : ℕ) : ℕ :=
  if (generation + 1) % 2 ^ 32 = 0 then 1 else (generation + 1) % 2 ^ 32

namespace State

def new : State := ⟨∅, ∅, ∅, ∅, ∅, 0, 0, 0⟩

variable (s : State) (peerKey : NodePublic)

def hasActiveWorkFor : Bool :=
  s.allocWork.pairs.any (fun e => e.1.1 == peerKey) ||
    s.handshakeWork.pairs.any (fun e => e.1.1 == peerKey)

def cancelHandshake (serverDisco : DiscoPublic) : State × List Effect :=
  match s.handshakeWork.lookup (peerKey, serverDisco) with
  | none => (s, [])
  | some work =>
    ({ s with
      handshakeWork := s.handshakeWork.erase (peerKey, serverDisco)
      handshakeBySdv := s.handshakeBySdv.erase ⟨serverDisco, work.vni⟩
      handshakeAwaitingPong := s.handshakeAwaitingPong.retain fun apv peer =>
        peer != peerKey || apv.vni != work.vni },
      [.handshakeCancelled work.task peerKey work.vni])

def cancelHandshakes (s : State) : List (NodePublic × DiscoPublic) → State × List Effect
  | [] => (s, [])
  | key :: keys =>
    let (s, cancelled) := s.cancelHandshake key.1 key.2
    let (s, rest) := s.cancelHandshakes keys
    (s, cancelled ++ rest)

def stopWork : State × List Effect :=
  let allocs := s.allocWork.pairs.filter fun e => e.1.1 == peerKey
  let works := s.handshakeWork.pairs.filter fun e => e.1.1 == peerKey
  ({ s with
    allocWork := s.allocWork.retain fun key _ => key.1 != peerKey
    handshakeWork := s.handshakeWork.retain fun key _ => key.1 != peerKey
    handshakeBySdv := s.handshakeBySdv.eraseAll (works.map fun e => ⟨e.1.2, e.2.vni⟩)
    handshakeAwaitingPong := s.handshakeAwaitingPong.retain fun _ peer => peer != peerKey },
    allocs.map (fun e => .allocCancelled e.2.task) ++
      works.map fun e => .handshakeCancelled e.2.task peerKey e.2.vni)

def stopServerWork (server : CandidatePeerRelay) : State × List Effect :=
  let stale : CandidatePeerRelay → Bool := fun candidate =>
    candidate.nodeKey == server.nodeKey &&
      candidate.authorizationGeneration == server.authorizationGeneration
  let allocs := s.allocWork.pairs.filter fun e => stale e.1.2
  let works := s.handshakeWork.pairs.filter fun e => stale e.2.relayServer
  let stopped := { s with allocWork := s.allocWork.retain fun key _ => !stale key.2 }
  let (s, cancelled) := stopped.cancelHandshakes (works.map Prod.fst)
  (s, allocs.map (fun e => .allocCancelled e.2.task) ++ cancelled)

end State

def relayServerCurrent (ctx : Context) (server : CandidatePeerRelay) : Bool :=
  server.authorizationGeneration != 0 &&
    ctx.peerAuthorizationGeneration server.nodeKey == some server.authorizationGeneration &&
    ctx.peerDiscoKey server.nodeKey == some server.discoKey

namespace State

variable (s : State) (ctx : Context)

def hasCurrentServer (server : CandidatePeerRelay) : Bool :=
  (s.serversByNodeKey.lookup server.nodeKey).any (fun current =>
    current.discoKey == server.discoKey &&
      current.authorizationGeneration == server.authorizationGeneration) &&
    relayServerCurrent ctx server

def stopServers (s : State) : List CandidatePeerRelay → State × List Effect
  | [] => (s, [])
  | server :: removed =>
    let (s, cancelled) := s.stopServerWork server
    let (s, rest) := s.stopServers removed
    (s, cancelled ++ .clearRelayServer server.nodeKey server.discoKey
      server.authorizationGeneration :: rest)

def handleServersUpdate (servers : List CandidatePeerRelay) : State × List Effect :=
  let listed := servers.filter fun server => server.isValid && relayServerCurrent ctx server
  let newSet := HashTable.ofList (listed.map fun server => (server.nodeKey, server))
  let removed := (s.serversByNodeKey.pairs.map (·.2)).filter fun old =>
    (newSet.lookup old.nodeKey).all fun new =>
      new.discoKey != old.discoKey || new.authorizationGeneration != old.authorizationGeneration
  let (s, out) := { s with serversByNodeKey := newSet }.stopServers removed
  (s, .serversSet (newSet.pairs.map (·.2)) :: out)

/-- One allocation after the other. The registry may refuse the task. -/
def allocateServers (s : State) (ctx : Context) (spawns : ℕ → Bool) (peerKey : NodePublic)
    (peerDisco : DiscoPublic) (authorizationGeneration : ℕ) :
    List CandidatePeerRelay → State × List Effect
  | [] => (s, [])
  | server :: servers =>
    let discoKeys := sortPair ctx.ourDiscoPublic peerDisco
    let allocGen := nextGen s.allocGeneration
    let s := { s with allocGeneration := allocGen }
    if spawns allocGen then
      let work : AllocWork := ⟨authorizationGeneration, discoKeys, allocGen, s.spawned⟩
      let (s', out) := { s with
        allocWork := s.allocWork.insert (peerKey, server) work
        spawned := s.spawned + 1 }.allocateServers ctx spawns peerKey peerDisco
          authorizationGeneration servers
      (s', .allocStarted s.spawned
        ⟨peerKey, peerDisco, authorizationGeneration, server, discoKeys, allocGen⟩ :: out)
    else s.allocateServers ctx spawns peerKey peerDisco authorizationGeneration servers

variable (spawns : ℕ → Bool) (peerKey : NodePublic) (peerDisco : DiscoPublic)
  (authorizationGeneration : ℕ)

def allocateAllServers : State × List Effect :=
  s.allocateServers ctx spawns peerKey peerDisco authorizationGeneration
    (s.serversByNodeKey.pairs.map (·.2))

/-- The end of `handle_new_server_endpoint`: the handshake is started and registered. -/
def startHandshake (se : ServerEndpoint) (server : CandidatePeerRelay) : State × List Effect :=
  let handshakeGen := nextGen s.handshakeGeneration
  let s := { s with handshakeGeneration := handshakeGen }
  if spawns handshakeGen then
    ({ s with
      handshakeWork := s.handshakeWork.insert (peerKey, se.serverDisco)
        ⟨authorizationGeneration, server, handshakeGen, se.vni, se.lamportId, s.spawned⟩
      handshakeBySdv := s.handshakeBySdv.insert ⟨se.serverDisco, se.vni⟩ peerKey
      spawned := s.spawned + 1 },
      [.handshakeStarted s.spawned
        ⟨peerKey, peerDisco, authorizationGeneration, server, se, handshakeGen⟩])
  else (s, [])

/-- The second check of `handle_new_server_endpoint`: work of the same peer on the same server. -/
def replaceOwn (se : ServerEndpoint) (server : CandidatePeerRelay) : State × List Effect :=
  if (s.handshakeWork.lookup (peerKey, se.serverDisco)).any fun existing =>
      se.lamportId ≤ existing.lamportId then (s, [])
  else
    let (s, cancelled) := s.cancelHandshake peerKey se.serverDisco
    let (s, started) := s.startHandshake spawns peerKey peerDisco authorizationGeneration se server
    (s, cancelled ++ started)

def handleNewServerEndpoint (se : ServerEndpoint) (server : Option CandidatePeerRelay) :
    State × List Effect :=
  if ctx.peerAuthorizationGeneration peerKey ≠ some authorizationGeneration ∨
      ctx.peerDiscoKey peerKey ≠ some peerDisco then (s, [])
  else
    match server.or ((s.handshakeWork.lookup (peerKey, se.serverDisco)).map (·.relayServer)) with
    | none => (s, [])
    | some server =>
      if !s.hasCurrentServer ctx server then (s, [])
      else
        match s.handshakeBySdv.lookup ⟨se.serverDisco, se.vni⟩ with
        | none => s.replaceOwn spawns peerKey peerDisco authorizationGeneration se server
        | some existingPeer =>
          if (s.handshakeWork.lookup (existingPeer, se.serverDisco)).any fun existing =>
              se.lamportId ≤ existing.lamportId then (s, [])
          else
            let (s, cancelled) := s.cancelHandshake existingPeer se.serverDisco
            let (s, out) := s.replaceOwn spawns peerKey peerDisco authorizationGeneration se server
            (s, cancelled ++ out)

def handleAllocWorkDone (result : AllocWorkResult) : State × List Effect :=
  match s.allocWork.lookup (result.peerKey, result.server) with
  | none => (s, [])
  | some work =>
    if work.authorizationGeneration ≠ result.authorizationGeneration then (s, [])
    else
      let s := { s with allocWork := s.allocWork.erase (result.peerKey, result.server) }
      if ctx.peerAuthorizationGeneration result.peerKey ≠ some result.authorizationGeneration ∨
          ctx.peerDiscoKey result.peerKey ≠ some result.peerDisco ∨
          s.hasCurrentServer ctx result.server = false then (s, [.allocDone work.task])
      else
        match result.serverEndpoint with
        | none => (s, [.allocDone work.task])
        | some se =>
          let (s, out) := s.handleNewServerEndpoint ctx spawns result.peerKey result.peerDisco
            result.authorizationGeneration se (some result.server)
          (s, .allocDone work.task :: out)

def handleHandshakeWorkDone (result : HandshakeWorkResult) : State × List Effect :=
  match s.handshakeWork.lookup (result.peerKey, result.serverDisco) with
  | none => (s, [])
  | some work =>
    if work.authorizationGeneration ≠ result.authorizationGeneration ∨
        work.handshakeGeneration ≠ result.handshakeGeneration ∨
        work.relayServer ≠ result.relayServer then (s, [])
    else
      let s := { s with
        handshakeBySdv := s.handshakeBySdv.erase ⟨result.serverDisco, result.vni⟩
        handshakeWork := s.handshakeWork.erase (result.peerKey, result.serverDisco)
        handshakeAwaitingPong := s.handshakeAwaitingPong.retain fun _ peer =>
          peer != result.peerKey }
      match result.pongFrom with
      | none => (s, [.handshakeDone work.task result.peerKey])
      | some pongFrom =>
        if ctx.peerAuthorizationGeneration result.peerKey ≠ some result.authorizationGeneration ∨
            ctx.peerDiscoKey result.peerKey ≠ some result.peerDisco ∨
            s.hasCurrentServer ctx result.relayServer = false then
          (s, [.handshakeDone work.task result.peerKey])
        else (s, [.handshakeDone work.task result.peerKey,
          .setRelay result.peerKey result.peerDisco result.authorizationGeneration
            result.relayServer.nodeKey result.relayServer.authorizationGeneration pongFrom
            result.vni])

/-- A message that names its source is for the authorization that the source has. -/
def accepts (msg : RelayDiscoMsg) : Bool :=
  match msg.sourceNodeKey with
  | none => true
  | some source =>
    match msg.authorizationGeneration with
    | none => false
    | some generation => ctx.peerAuthorizationGeneration source == some generation

def authorized (work : HandshakeWork) : Bool :=
  ctx.peerAuthorizationGeneration peerKey == some work.authorizationGeneration &&
    s.hasCurrentServer ctx work.relayServer

/-- A probe goes to the first handshake of the awaiting peer with its number. -/
def routeProbe (msg : RelayDiscoMsg) : List Effect :=
  match s.handshakeAwaitingPong.lookup ⟨msg.src, msg.vni⟩ with
  | none => []
  | some peerKey =>
    match s.handshakeWork.pairs.find? fun e =>
      e.1.1 == peerKey && (e.2.vni == msg.vni && s.authorized ctx peerKey e.2) with
    | none => []
    | some (_, work) => [.handed work.task peerKey msg.msg msg.src msg.vni]

def handleRxDiscoMsg (msg : RelayDiscoMsg) : State × List Effect :=
  if !accepts ctx msg then (s, [])
  else
    match msg.msg with
    | .allocateUdpRelayEndpointResponse resp =>
      match msg.relayServerNodeKey with
      | none => (s, [])
      | some relayServerNodeKey =>
        if msg.sourceNodeKey ≠ some relayServerNodeKey then (s, [])
        else
          let sorted := sortPair resp.endpoint.clientDisco.1 resp.endpoint.clientDisco.2
          match s.allocWork.pairs.find? fun e =>
            ctx.peerAuthorizationGeneration e.1.1 == some e.2.authorizationGeneration &&
              e.1.2.nodeKey == relayServerNodeKey && s.hasCurrentServer ctx e.1.2 &&
              e.2.discoKeys == sorted with
          | none => (s, [])
          | some (_, work) => (s, [.responded work.task resp])
    | .bindUdpRelayEndpointChallenge _ =>
      match s.handshakeBySdv.lookup ⟨msg.disco, msg.vni⟩ with
      | none => (s, [])
      | some peerKey =>
        match s.handshakeWork.lookup (peerKey, msg.disco) with
        | none => (s, [])
        | some work =>
          if !s.authorized ctx peerKey work ||
              (s.handshakeAwaitingPong.lookup ⟨msg.src, msg.vni⟩).isSome then (s, [])
          else ({ s with
            handshakeAwaitingPong := s.handshakeAwaitingPong.insert ⟨msg.src, msg.vni⟩ peerKey },
            [.handed work.task peerKey msg.msg msg.src msg.vni])
    | .ping ping =>
      (s, (if 0 < msg.vni then [.sendPongViaRelay msg.src msg.vni msg.disco ping.txId] else []) ++
        s.routeProbe ctx msg)
    | .pong _ => (s, s.routeProbe ctx msg)
    | _ => (s, [])

def dispatch : RelayEvent → State × List Effect
  | .startDiscovery peerKey peerDisco authorizationGeneration =>
    if ctx.peerAuthorizationGeneration peerKey = some authorizationGeneration ∧
        s.hasActiveWorkFor peerKey = false then
      s.allocateAllServers ctx spawns peerKey peerDisco authorizationGeneration
    else (s, [])
  | .cancelWork peerKey => s.stopWork peerKey
  | .serversUpdate servers => s.handleServersUpdate ctx servers
  | .newServerEndpoint peerKey peerDisco authorizationGeneration se server =>
    s.handleNewServerEndpoint ctx spawns peerKey peerDisco authorizationGeneration se server
  | .discoMsg msg => s.handleRxDiscoMsg ctx msg
  | .derpHomeChange nodeKey region =>
    match s.serversByNodeKey.lookup nodeKey with
    | none => (s, [])
    | some server => ({ s with
      serversByNodeKey := s.serversByNodeKey.insert nodeKey
        { server with derpHomeRegion := region } }, [])
  | .allocWorkDone result => s.handleAllocWorkDone ctx spawns result
  | .handshakeWorkDone result => s.handleHandshakeWorkDone ctx result

end State

end Rustscale.RelayManager
