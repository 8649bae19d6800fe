import Mathlib.Data.List.AList
import Rustscale.Disco.Message

/-! The relay server: endpoints for pairs of clients, the handshake that binds their addresses, and
the packets forwarded between them. Times are in nanoseconds. -/
namespace Rustscale.Udprelay
open Octets Bytes Disco Function

instance neZeroTwo : NeZero 2 := ⟨two_ne_zero⟩

/-- The header of relayed packets, without options. -/
structure GeneveHeader where
  version : Byte
  control : Bool
  protocol : ℕ
  vni : ℕ

def geneveProtocolDisco : ℕ := 0x7A11

def GeneveHeader.decode (buf : List Byte) : Option (GeneveHeader × List Byte) :=
  if buf.length < 8 then none
  else some (⟨get buf 0 >>> 6, get buf 1 &&& 0x80 != 0, num 2 buf 2, num 3 buf 4⟩, buf.drop 8)

/-- A control frame; a number of more than 24 bits panics. -/
def encodeGeneveControl (vni : ℕ) (payload : List Byte) : Option (List Byte) :=
  if 0x00FFFFFF < vni then none
  else some ([0, 0x80] ++ toBytes .big 2 geneveProtocolDisco ++ toBytes .big 3 vni ++ [0] ++ payload)

/-- An address with a port. -/
inductive SocketAddr where
  | v4 (ip : BitVec 32) (port : BitVec 16)
  | v6 (ip : BitVec 128) (port : BitVec 16) (flowinfo scopeId : BitVec 32)
  deriving DecidableEq

/-- The keyed hash, and the boxes between the server and the holder of a key, which may fail. -/
structure Crypto where
  mac : BitVec 256 → List Byte → BitVec 256
  sealBox : DiscoPublic → BitVec 192 → List Byte → Option (List Byte)
  openBox : DiscoPublic → List Byte → Option (List Byte)

/-- The address as 16 bytes and the port; flow and scope are left out. -/
def encodeAddrPort : SocketAddr → List Byte
  | .v4 ip port => word (as16 (.v4 ip)) ++ word port
  | .v6 ip port _ _ => word ip ++ word port

def macInput (src : SocketAddr) (msg : BindUdpRelayEndpointCommon) : List Byte :=
  word msg.vni ++ word msg.generation ++ word msg.remoteKey ++ encodeAddrPort src

def computeMacFromBindMsg (crypto : Crypto) (key : BitVec 256) (src : SocketAddr)
    (msg : BindUdpRelayEndpointCommon) : BitVec 256 := crypto.mac key (macInput src msg)

/-- What happened at an endpoint. -/
inductive EndpointEvent where
  | opened (slot : Fin 2) (key : DiscoPublic) (src : SocketAddr) (plaintext : List Byte)
  | started (slot : Fin 2) (generation : BitVec 32)
  | challenged (secret : BitVec 256) (src : SocketAddr) (common : BindUdpRelayEndpointCommon)
  | sealed (key : DiscoPublic) (plaintext : List Byte)
  | bound (slot : Fin 2) (src : SocketAddr) (secret : BitVec 256)
      (common : BindUdpRelayEndpointCommon)
  | forwarded (src dst : SocketAddr) (packet : List Byte)
  deriving DecidableEq

/-- The part of an endpoint behind its lock. -/
structure EndpointInner where
  closed : Bool
  inProgressGeneration : Fin 2 → BitVec 32
  boundAddrPorts : Fin 2 → Option SocketAddr
  lastSeen : Fin 2 → ℕ

namespace EndpointInner

def new (now : ℕ) : EndpointInner := ⟨false, fun _ => 0, fun _ => none, fun _ => now⟩

def isBound (ep : EndpointInner) : Bool :=
  (ep.boundAddrPorts 0).isSome && (ep.boundAddrPorts 1).isSome

/-- A time before another one is no time ago. -/
def isExpired (ep : EndpointInner) (now bindLifetime steadyStateLifetime allocatedAt : ℕ) : Bool :=
  if !ep.isBound then decide (now - allocatedAt > bindLifetime)
  else decide (now - ep.lastSeen 0 > steadyStateLifetime) ||
    decide (now - ep.lastSeen 1 > steadyStateLifetime)

end EndpointInner

/-- An endpoint for two clients, known by their keys and by a number. -/
structure RelayEndpoint where
  discoPubKeys : DiscoPublic × DiscoPublic
  lamportId : ℕ
  vni : ℕ
  allocatedAt : ℕ
  inner : EndpointInner

/-- What the handler of a packet gives. -/
structure Handled where
  reply : Option (List Byte × SocketAddr)
  inner : EndpointInner
  log : List EndpointEvent

namespace RelayEndpoint

variable (crypto : Crypto) (e : RelayEndpoint) (src : SocketAddr) (slot : Fin 2)

def key : DiscoPublic :=
  if slot = 0 then e.discoPubKeys.1 else e.discoPubKeys.2

def dropped : Option Handled := some ⟨none, e.inner, []⟩

/-- A client starts a handshake. Reading the first of no secrets panics. -/
def handleBind (common : BindUdpRelayEndpointCommon) (serverDisco : DiscoPublic)
    (macSecrets : List (BitVec 256)) (nonce : BitVec 192) : Option Handled :=
  if common.vni.toNat ≠ e.vni ∨ common.remoteKey ≠ e.key (1 - slot) ∨ common.generation = 0 then
    e.dropped
  else do
    let inner := { e.inner with
      inProgressGeneration :=
        update e.inner.inProgressGeneration slot common.generation }
    let challengeCommon : BindUdpRelayEndpointCommon :=
      ⟨BitVec.ofNat 32 e.vni, common.generation, e.key (1 - slot), 0⟩
    let secret ← macSecrets.head?
    let mac := computeMacFromBindMsg crypto secret src challengeCommon
    let log := [.started slot common.generation, .challenged secret src challengeCommon]
    let marshaled :=
      (Message.bindUdpRelayEndpointChallenge { challengeCommon with challenge := mac }).marshal
    match crypto.sealBox (e.key slot) nonce marshaled with
    | none => return ⟨none, inner, log⟩
    | some sealed =>
      let reply ← encodeGeneveControl e.vni (magic ++ word serverDisco ++ sealed)
      return ⟨some (reply, src), inner, log ++ [.sealed (e.key slot) marshaled]⟩

def handleAnswer (common : BindUdpRelayEndpointCommon) (macSecrets : List (BitVec 256)) (now : ℕ) :
    Option Handled :=
  let generation := e.inner.inProgressGeneration slot
  if common.vni.toNat ≠ e.vni ∨ common.remoteKey ≠ e.key (1 - slot) ∨ generation = 0 ∨
      generation ≠ common.generation then
    e.dropped
  else
    match macSecrets.find? fun secret =>
      computeMacFromBindMsg crypto secret src common == common.challenge with
    | none => e.dropped
    | some secret =>
      let inner := { e.inner with
        inProgressGeneration := update e.inner.inProgressGeneration slot 0
        boundAddrPorts := update e.inner.boundAddrPorts slot (some src)
        lastSeen := update e.inner.lastSeen slot now }
      some ⟨none, inner, [.bound slot src secret common]⟩

def handleDiscoControlMsg (msg : Message) (serverDisco : DiscoPublic)
    (macSecrets : List (BitVec 256)) (now : ℕ) (nonce : BitVec 192) : Option Handled :=
  if e.inner.closed then e.dropped
  else
    match msg with
    | .bindUdpRelayEndpoint common =>
      e.handleBind crypto src slot common serverDisco macSecrets nonce
    | .bindUdpRelayEndpointAnswer common => e.handleAnswer crypto src slot common macSecrets now
    | _ => e.dropped

def senderIndex (sender : DiscoPublic) : Option (Fin 2) :=
  if sender = e.discoPubKeys.1 then some 0
  else if sender = e.discoPubKeys.2 then some 1
  else none

def handleSealedDiscoControlMsg (envelope : List Byte) (serverDisco : DiscoPublic)
    (macSecrets : List (BitVec 256)) (now : ℕ) (nonce : BitVec 192) : Option Handled :=
  match (source envelope).bind e.senderIndex with
  | none => e.dropped
  | some slot =>
    match crypto.openBox (e.key slot) (envelope.drop (6 + 32)) with
    | none => e.dropped
    | some plaintext =>
      let log := [.opened slot (e.key slot) src plaintext]
      match Message.parse plaintext with
      | .error _ => some ⟨none, e.inner, log⟩
      | .ok msg => do
        let h ← e.handleDiscoControlMsg crypto src slot msg serverDisco macSecrets now nonce
        return { h with log := log ++ h.log }

def sourceSlot : Option (Fin 2) :=
  if some src = e.inner.boundAddrPorts 0 then some 0
  else if some src = e.inner.boundAddrPorts 1 then some 1
  else none

/-- Forward a packet from one bound address to the other. The counters of packets and bytes are left
out. -/
def handleDataPacket (packet : List Byte) (now : ℕ) : Option Handled :=
  if !e.inner.isBound || e.inner.closed then e.dropped
  else
    match e.sourceSlot src with
    | none => e.dropped
    | some slot => do
      let dst ← e.inner.boundAddrPorts (1 - slot)
      let inner := { e.inner with lastSeen := update e.inner.lastSeen slot now }
      return ⟨some (packet, dst), inner, [.forwarded src dst packet]⟩

end RelayEndpoint

inductive UdprelayError where
  | serverClosed
  | serverNotReady (retryAfter : ℕ)
  | vniExhausted
  | clientEqualsServer
  deriving DecidableEq

def serverRetryAfter : ℕ := 3000000000

/-- What a client is told of its endpoint. -/
structure ServerEndpoint where
  serverDisco : DiscoPublic
  clientDisco : DiscoPublic × DiscoPublic
  lamportId : ℕ
  addrPorts : List SocketAddr
  vni : ℕ
  bindLifetime : ℕ
  steadyStateLifetime : ℕ
  deriving DecidableEq

/-- The settings of a server. -/
structure ServerInner where
  discoPublic : DiscoPublic
  bindLifetime : ℕ
  steadyStateLifetime : ℕ
  macSecretRotationInterval : ℕ
  minVni : ℕ
  maxVni : ℕ
  localAddr : SocketAddr

/-- The part behind the lock. The maps hold the places of endpoints in memory. -/
structure ServerState where
  macSecrets : List (BitVec 256)
  macSecretRotatedAt : Option ℕ
  lamportId : ℕ
  nextVni : ℕ
  endpointsByVni : AList fun _ : ℕ => ℕ
  endpointsByDisco : AList fun _ : DiscoPublic × DiscoPublic => ℕ
  serverClosed : Bool
  staticAddrPorts : List SocketAddr
  dynamicAddrPorts : List SocketAddr

/-- The server: its maps, and every endpoint that was ever made. -/
structure Server where
  closed : Bool
  state : ServerState
  endpoints : List RelayEndpoint

variable (c : ServerInner)

def Server.new : Server where
  closed := false
  state :=
    { macSecrets := []
      macSecretRotatedAt := none
      lamportId := 0
      nextVni := c.minVni
      endpointsByVni := ∅
      endpointsByDisco := ∅
      serverClosed := false
      staticAddrPorts := [c.localAddr]
      dynamicAddrPorts := [] }
  endpoints := []

def sortedPair (a b : DiscoPublic) : DiscoPublic × DiscoPublic := if a ≤ b then (a, b) else (b, a)

variable (state : ServerState)

def getAllAddrPorts : List SocketAddr :=
  state.staticAddrPorts ++ state.dynamicAddrPorts

def followingVni (minVni maxVni vni : ℕ) : ℕ := if vni = maxVni then minVni else vni + 1

/-- The first free number in some rounds, and where the cursor is left. -/
def searchVni (used : ℕ → Bool) (minVni maxVni : ℕ) : ℕ → ℕ → Option ℕ × ℕ
  | 0, cursor => (none, cursor)
  | rounds + 1, cursor =>
    if used cursor then searchVni used minVni maxVni rounds (followingVni minVni maxVni cursor)
    else (some cursor, followingVni minVni maxVni cursor)

/-- The number of rounds has 32 bits; without them the subtraction or the addition panics. -/
def getNextVni : Option (Option ℕ × ServerState) :=
  if c.maxVni < c.minVni ∨ 2 ^ 32 ≤ c.maxVni - c.minVni + 1 then none
  else
    let (vni, cursor) := searchVni (fun vni => (state.endpointsByVni.lookup vni).isSome) c.minVni
      c.maxVni (c.maxVni - c.minVni + 1) state.nextVni
    some (vni, { state with nextVni := cursor })

def describe (pair : DiscoPublic × DiscoPublic) (lamportId vni : ℕ) : ServerEndpoint where
  serverDisco := c.discoPublic
  clientDisco := pair
  lamportId := lamportId
  addrPorts := getAllAddrPorts state
  vni := vni
  bindLifetime := c.bindLifetime
  steadyStateLifetime := c.steadyStateLifetime

/-- The counter has 64 bits, and panics when it is full. -/
def Server.insert (c : ServerInner) (s : Server) (pair : DiscoPublic × DiscoPublic) (vni now : ℕ) :
    Option (ServerEndpoint × Server) :=
  if 2 ^ 64 ≤ s.state.lamportId + 1 then none
  else
    let lamportId := s.state.lamportId + 1
    let e : RelayEndpoint := ⟨pair, lamportId, vni, now, .new now⟩
    let state := { s.state with
      lamportId
      endpointsByDisco := s.state.endpointsByDisco.insert pair s.endpoints.length
      endpointsByVni := s.state.endpointsByVni.insert vni s.endpoints.length }
    some (describe c state pair lamportId vni, { s with state, endpoints := s.endpoints ++ [e] })

def Server.allocateEndpoint (s : Server) (discoA discoB : DiscoPublic) (now : ℕ) :
    Option (Except UdprelayError ServerEndpoint × Server) :=
  if s.state.serverClosed || s.closed then some (.error .serverClosed, s)
  else if s.state.staticAddrPorts.isEmpty && s.state.dynamicAddrPorts.isEmpty then
    some (.error (.serverNotReady serverRetryAfter), s)
  else if discoA = c.discoPublic ∨ discoB = c.discoPublic then
    some (.error .clientEqualsServer, s)
  else
    let pair := sortedPair discoA discoB
    match s.state.endpointsByDisco.lookup pair with
    | some id => do
      let existing ← s.endpoints[id]?
      return (.ok (describe c s.state pair existing.lamportId existing.vni), s)
    | none => do
      let (vni, state) ← getNextVni c s.state
      match vni with
      | none => return (.error .vniExhausted, { s with state })
      | some vni =>
        let (endpoint, s) ← Server.insert c { s with state } pair vni now
        return (.ok endpoint, s)

/-- The last secret is old enough, or there was none. -/
def rotationDue (now interval : ℕ) : Bool :=
  !state.macSecretRotatedAt.any fun last => now - last < interval

/-- Draw a new secret if it is due. The one before it is kept. -/
def maybeRotateMacSecret (now interval : ℕ) (fresh : BitVec 256) : ServerState :=
  if !rotationDue state now interval then state
  else
    let macSecrets :=
      match state.macSecrets with
      | [] => [fresh]
      | [current] => [fresh, current]
      | current :: _ :: rest => fresh :: current :: rest
    { state with macSecrets, macSecretRotatedAt := some now }

end Rustscale.Udprelay
