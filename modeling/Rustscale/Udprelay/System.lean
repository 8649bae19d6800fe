import Rustscale.Lib.Machine
import Rustscale.Udprelay.Server

/-! The threads of a relay server, one critical section at a time: the read loop, and the calls that
allocate, collect, rotate, disable, enable and close. -/
namespace Rustscale.Udprelay
open Octets Bytes Disco

/-- Who closed an endpoint. -/
inductive Closer where
  | gc
  | disable
  | close
  deriving DecidableEq

/-- What is logged of a run. -/
inductive Event where
  | received (src : SocketAddr) (packet : List Byte)
  | drew (secret : BitVec 256)
  | advertised (addrPorts : List SocketAddr)
  | allocated (id : ℕ) (pair : DiscoPublic × DiscoPublic) (vni lamportId : ℕ)
  | endpoint (id : ℕ) (event : EndpointEvent)
  | sent (id : ℕ) (dst : SocketAddr) (packet : List Byte)
  | closed (id : ℕ) (closer : Closer)
  | panicked
  deriving DecidableEq

/-- From `admitted` on the read loop holds the delivery gate for reading. -/
inductive Reader where
  | idle
  | received (src : SocketAddr) (packet : List Byte)
  | admitted (src : SocketAddr) (packet : List Byte)
  | checked (src : SocketAddr) (packet : List Byte)
  | control (id : ℕ) (src : SocketAddr) (payload : List Byte)
  | armed (id : ℕ) (src : SocketAddr) (payload : List Byte) (macSecrets : List (BitVec 256))
      (now : ℕ)
  | data (id : ℕ) (src : SocketAddr) (packet : List Byte)
  | replying (id : ℕ) (dst : SocketAddr) (packet : List Byte)
  | dead

def Reader.holdsGate : Reader → Bool
  | .idle => false
  | .received .. => false
  | .dead => false
  | _ => true

/-- A call in the middle of its work on the endpoints holds the lock of the state. -/
inductive Drain where
  | gc (now : ℕ) (todo : List ((DiscoPublic × DiscoPublic) × ℕ))
      (removed : List ((DiscoPublic × DiscoPublic) × ℕ))
  | disable (todo : List ℕ)
  | close (todo : List ℕ)

/-- A call of `disable_and_drain` that holds the delivery gate for writing. -/
inductive Writer where
  | none
  | entered
  | drained
  deriving DecidableEq

/-- The server with its read loop and the calls that are in progress. -/
structure System where
  server : Server
  reader : Reader
  drain : Option Drain
  writer : Writer
  enabling : ℕ
  closing : ℕ

/-- One critical section of the read loop or of a call. -/
inductive Action where
  | receive (ip : BitVec 32) (port : BitVec 16) (packet : List Byte)
  | enter
  | check
  | fetch
  | takeSecrets (now : ℕ) (fresh : BitVec 256)
  | handleControl (nonce : BitVec 192)
  | handleData (now : ℕ)
  | send
  | allocate (discoA discoB : DiscoPublic) (now : ℕ)
  | setStaticAddrPorts (addrPorts : List SocketAddr)
  | getMacSecrets (now : ℕ) (fresh : BitVec 256)
  | gc (now : ℕ)
  | visit (k : ℕ)
  | finish
  | disableGate
  | disable
  | disableDone
  | enableTest
  | enableStore
  | closeStore
  | close

namespace System

def new (c : ServerInner) : System := ⟨.new c, .idle, none, .none, 0, 0⟩

variable (c : ServerInner) (s : System) (id : ℕ) (state : ServerState)

def withState : System :=
  { s with server := { s.server with state } }

def withInner (e : RelayEndpoint) (inner : EndpointInner) : System :=
  { s with server := { s.server with endpoints := s.server.endpoints.set id { e with inner } } }

/-- The endpoint of a packet, by its number. The first part of `handle_packet`. -/
def lookup (s : System) (src : SocketAddr) (packet : List Byte) : Reader :=
  match GeneveHeader.decode packet with
  | none => .idle
  | some (gh, payload) =>
    match s.server.state.endpointsByVni.lookup gh.vni with
    | none => .idle
    | some id =>
      if gh.control then
        if gh.protocol ≠ geneveProtocolDisco then .idle else .control id src payload
      else .data id src packet

/-- The steps of the read loop after an endpoint has handled a packet. -/
def handled (e : RelayEndpoint) : Option Handled → System × List Event
  | none => ({ s with reader := .dead }, [.panicked])
  | some h =>
    let reader := match h.reply with
      | none => .idle
      | some (packet, dst) => .replying id dst packet
    ({ s.withInner id e h.inner with reader }, h.log.map (.endpoint id))

def readStep (crypto : Crypto) (c : ServerInner) (s : System) :
    Action → Option (System × List Event)
  | .receive ip port packet =>
    match s.reader with
    | .idle =>
      if packet = [] then none
      else some ({ s with reader := .received (.v4 ip port) packet }, [.received (.v4 ip port) packet])
    | _ => none
  | .enter =>
    match s.reader, s.writer with
    | .received src packet, .none => some ({ s with reader := .admitted src packet }, [])
    | _, _ => none
  | .check =>
    match s.reader, s.drain with
    | .admitted src packet, none =>
      let reader := if s.server.state.serverClosed then .idle else .checked src packet
      some ({ s with reader }, [])
    | _, _ => none
  | .fetch =>
    match s.reader, s.drain with
    | .checked src packet, none => some ({ s with reader := s.lookup src packet }, [])
    | _, _ => none
  | .takeSecrets now fresh =>
    match s.reader, s.drain with
    | .control id src payload, none =>
      let due := rotationDue s.server.state now c.macSecretRotationInterval
      let state := maybeRotateMacSecret s.server.state now c.macSecretRotationInterval fresh
      some ({ s.withState state with reader := .armed id src payload state.macSecrets now },
        if due then [.drew fresh] else [])
    | _, _ => none
  | .handleControl nonce =>
    match s.reader with
    | .armed id src payload macSecrets now => do
      let e ← s.server.endpoints[id]?
      return s.handled id e
        (e.handleSealedDiscoControlMsg crypto src payload c.discoPublic macSecrets now nonce)
    | _ => none
  | .handleData now =>
    match s.reader with
    | .data id src packet => do
      let e ← s.server.endpoints[id]?
      return s.handled id e (e.handleDataPacket src packet now)
    | _ => none
  | .send =>
    match s.reader with
    | .replying id dst packet => some ({ s with reader := .idle }, [.sent id dst packet])
    | _ => none
  | _ => none

def closeEndpoint (closer : Closer) : Option (System × List Event) := do
  let e ← s.server.endpoints[id]?
  return (s.withInner id e { e.inner with closed := true }, [.closed id closer])

/-- One endpoint of those that a call still has to look at. A map is walked in any order. -/
def visitStep (k : ℕ) : Option (System × List Event) :=
  match s.drain with
  | none => none
  | some (.gc now todo removed) => do
    let (pair, id) ← todo[k]?
    let e ← s.server.endpoints[id]?
    let rest := todo.eraseIdx k
    if e.inner.isExpired now c.bindLifetime c.steadyStateLifetime e.allocatedAt then
      ({ s with drain := some (.gc now rest (removed ++ [(pair, e.vni)])) }).closeEndpoint id .gc
    else
      return ({ s with drain := some (.gc now rest removed) }, [])
  | some (.disable todo) => do
    let id ← todo[k]?
    ({ s with drain := some (.disable (todo.eraseIdx k)) }).closeEndpoint id .disable
  | some (.close todo) => do
    let id ← todo[k]?
    ({ s with drain := some (.close (todo.eraseIdx k)) }).closeEndpoint id .close

def removeAll (removed : List ((DiscoPublic × DiscoPublic) × ℕ)) : ServerState :=
  removed.foldl (fun state entry => { state with
    endpointsByDisco := state.endpointsByDisco.erase entry.1
    endpointsByVni := state.endpointsByVni.erase entry.2 }) state

def cleared : ServerState :=
  { state with macSecrets := [], endpointsByVni := ∅, endpointsByDisco := ∅ }

/-- The end of a critical section, once all its endpoints have been looked at. -/
def finishStep : Option (System × List Event) :=
  let state := s.server.state
  match s.drain with
  | some (.gc _ [] removed) => some ({ s.withState (removeAll state removed) with drain := none }, [])
  | some (.disable []) =>
    some ({ s.withState { cleared state with macSecretRotatedAt := none } with
      drain := none
      writer := .drained }, [])
  | some (.close []) => some ({ s.withState (cleared state) with drain := none }, [])
  | _ => none

/-- What a fresh allocation tells its caller, with the place of the endpoint in memory. -/
def told (before server : Server) : Except UdprelayError ServerEndpoint → List Event
  | .ok endpoint =>
    if before.endpoints.length < server.endpoints.length then
      [.allocated before.endpoints.length endpoint.clientDisco endpoint.vni endpoint.lamportId]
    else []
  | .error _ => []

/-- A call that takes the lock of the state waits until it is free. -/
def callStep : Action → Option (System × List Event)
  | .allocate discoA discoB now => do
    let (r, server) ← s.server.allocateEndpoint c discoA discoB now
    return ({ s with server }, told s.server server r)
  | .setStaticAddrPorts addrPorts =>
    some (s.withState { s.server.state with staticAddrPorts := addrPorts }, [.advertised addrPorts])
  | .getMacSecrets now fresh =>
    let due := rotationDue s.server.state now c.macSecretRotationInterval
    let state := maybeRotateMacSecret s.server.state now c.macSecretRotationInterval fresh
    some (s.withState state, if due then [.drew fresh] else [])
  | .gc now =>
    let todo := s.server.state.endpointsByDisco.entries.map fun entry => (entry.1, entry.2)
    some ({ s with drain := some (.gc now todo []) }, [])
  | .disable =>
    if s.writer = .entered then
      let todo := s.server.state.endpointsByVni.entries.map (·.2)
      some ({ s.withState { s.server.state with serverClosed := true } with
        drain := some (.disable todo) }, [])
    else none
  | .enableStore =>
    if 0 < s.enabling then
      some ({ s.withState { s.server.state with serverClosed := false } with
        enabling := s.enabling - 1 }, [])
    else none
  | .close =>
    if 0 < s.closing then
      let todo := s.server.state.endpointsByVni.entries.map (·.2)
      some ({ s.withState { s.server.state with serverClosed := true } with
        drain := some (.close todo)
        closing := s.closing - 1 }, [])
    else none
  | _ => none

/-- The parts of calls that do without the lock of the state. -/
def freeStep : Action → Option (System × List Event)
  | .disableGate =>
    if s.writer = .none ∧ s.reader.holdsGate = false then some ({ s with writer := .entered }, [])
    else none
  | .disableDone =>
    if s.writer = .drained then some ({ s with writer := .none }, []) else none
  | .enableTest =>
    if s.server.closed then some (s, []) else some ({ s with enabling := s.enabling + 1 }, [])
  | .closeStore =>
    some ({ s with server := { s.server with closed := true }, closing := s.closing + 1 }, [])
  | _ => none

def step (crypto : Crypto) (c : ServerInner) (s : System) (a : Action) :
    Option (System × List Event) :=
  match a with
  | .receive .. | .enter | .check | .fetch | .takeSecrets .. | .handleControl .. | .handleData .. |
    .send => s.readStep crypto c a
  | .visit k => s.visitStep c k
  | .finish => s.finishStep
  | .disableGate | .disableDone | .enableTest | .closeStore => s.freeStep a
  | .allocate .. | .setStaticAddrPorts .. | .getMacSecrets .. | .gc .. | .disable | .enableStore |
    .close => if s.drain.isSome then none else s.callStep c a

end System

def machine (crypto : Crypto) (c : ServerInner) : Machine System Action Event :=
  ⟨.new c, System.step crypto c⟩

end Rustscale.Udprelay
