import Rustscale.IpAddr
import Rustscale.Lib.Bytes
import Rustscale.Lib.Checks

/-! Messages of the discovery protocol: their bytes, and reading them back. -/
namespace Rustscale.Disco
open Octets Bytes Checks

/-- A key as the number of its 32 bytes; keys are ordered as their bytes are. -/
abbrev DiscoPublic := BitVec 256

abbrev NodePublic := BitVec 256

def word {w : ℕ} (x : BitVec w) : List Byte := toBytes .big (w / 8) x.toNat

def wordAt (w : ℕ) (body : List Byte) (off : ℕ) : BitVec w := BitVec.ofNat w (num (w / 8) body off)

@[simp] theorem length_word {w : ℕ} (x : BitVec w) : (word x).length = w / 8 := by simp [word]

section
variable {w : ℕ}

theorem wordAt_skip {off : ℕ} {front rest : List Byte} (h : front.length ≤ off) :
    wordAt w (front ++ rest) off = wordAt w rest (off - front.length) := by
  rw [wordAt, num_append_right h, wordAt]

theorem wordAt_word (rest : List Byte) (x : BitVec w) (hw : 8 * (w / 8) = w) :
    wordAt w (word x ++ rest) 0 = x := by
  have hx : x.toNat < 256 ^ (w / 8) := by
    rw [show 256 = 2 ^ 8 from rfl, ← pow_mul, hw]
    exact x.isLt
  rw [wordAt, word, num_toBytes rest hx, BitVec.ofNat_toNat, BitVec.setWidth_eq]

theorem wordAt_last (x : BitVec w) (hw : 8 * (w / 8) = w) : wordAt w (word x) 0 = x := by
  have h := wordAt_word [] x hw
  rwa [List.append_nil] at h

theorem word_injective (hw : 8 * (w / 8) = w) {x y : BitVec w} (h : word x = word y) : x = y := by
  rw [← wordAt_last x hw, h, wordAt_last y hw]

end

def epLength : ℕ := 18

structure AddrPort where
  ip : IpAddr
  port : BitVec 16
  deriving DecidableEq

/-- An address of either family as 16 bytes, an IPv4 one as mapped. -/
def as16 : IpAddr → BitVec 128
  | .v4 a => BitVec.ofNat 128 (0xFFFF * 2 ^ 32 + a.toNat)
  | .v6 a => a

def mapFrom16 (a : BitVec 128) : IpAddr :=
  if a.toNat / 2 ^ 32 = 0xFFFF then .v4 (BitVec.ofNat 32 a.toNat) else .v6 a

def AddrPort.encode (a : AddrPort) : List Byte := word (as16 a.ip) ++ word a.port

def AddrPort.decodeFrom (buf : List Byte) : AddrPort :=
  ⟨mapFrom16 (wordAt 128 buf 0), wordAt 16 buf 16⟩

def addrPorts (buf : List Byte) : List AddrPort :=
  (List.range (buf.length / epLength)).map fun i =>
    AddrPort.decodeFrom (slice buf (i * epLength) epLength)

structure Ping where
  txId : BitVec 96
  nodeKey : NodePublic
  padding : ℕ
  deriving DecidableEq

structure Pong where
  txId : BitVec 96
  src : AddrPort
  deriving DecidableEq

/-- The fields that the three messages of a bind handshake share. -/
structure BindUdpRelayEndpointCommon where
  vni : BitVec 32
  generation : BitVec 32
  remoteKey : DiscoPublic
  challenge : BitVec 256
  deriving DecidableEq

/-- A relay endpoint as a server describes it to a client. -/
structure UdpRelayEndpoint where
  serverDisco : DiscoPublic := 0
  clientDisco : DiscoPublic × DiscoPublic := (0, 0)
  lamportId : BitVec 64 := 0
  vni : BitVec 32 := 0
  bindLifetime : ℕ := 0
  steadyStateLifetime : ℕ := 0
  addrPorts : List AddrPort := []
  deriving DecidableEq

structure AllocateUdpRelayEndpointRequest where
  clientDisco : DiscoPublic × DiscoPublic := (0, 0)
  generation : BitVec 32 := 0
  deriving DecidableEq

structure AllocateUdpRelayEndpointResponse where
  generation : BitVec 32 := 0
  endpoint : UdpRelayEndpoint := {}
  deriving DecidableEq

/-- The messages between nodes and relays that this protocol knows. -/
inductive Message where
  | ping (m : Ping)
  | pong (m : Pong)
  | callMeMaybe (myNumber : List AddrPort)
  | bindUdpRelayEndpoint (common : BindUdpRelayEndpointCommon)
  | bindUdpRelayEndpointChallenge (common : BindUdpRelayEndpointCommon)
  | bindUdpRelayEndpointAnswer (common : BindUdpRelayEndpointCommon)
  | callMeMaybeVia (endpoint : UdpRelayEndpoint)
  | allocateUdpRelayEndpointRequest (m : AllocateUdpRelayEndpointRequest)
  | allocateUdpRelayEndpointResponse (m : AllocateUdpRelayEndpointResponse)
  deriving DecidableEq

/-- Why bytes are not a message. -/
inductive DiscoError where
  | short
  | unknownType (type : Byte)
  deriving DecidableEq

variable (ver : Byte) (body : List Byte) (c : BindUdpRelayEndpointCommon)

def BindUdpRelayEndpointCommon.encode : List Byte :=
  word c.vni ++ word c.generation ++ word c.remoteKey ++ word c.challenge

def UdpRelayEndpoint.encode (e : UdpRelayEndpoint) : List Byte :=
  word e.serverDisco ++ word e.clientDisco.1 ++ word e.clientDisco.2 ++ word e.lamportId ++
    word e.vni ++ toBytes .big 8 e.bindLifetime ++ toBytes .big 8 e.steadyStateLifetime ++
    e.addrPorts.flatMap AddrPort.encode

/-- The key of a ping is left out if it is zero. -/
def Ping.encode (m : Ping) : List Byte :=
  word m.txId ++ (if m.nodeKey = 0 then [] else word m.nodeKey) ++ List.replicate m.padding 0

/-- The payload without its envelope: type, version and body. -/
def Message.marshal : Message → List Byte
  | .ping m => [1, 0] ++ m.encode
  | .pong m => [2, 0] ++ word m.txId ++ m.src.encode
  | .callMeMaybe l => [3, 0] ++ l.flatMap AddrPort.encode
  | .bindUdpRelayEndpoint c => [4, 0] ++ c.encode
  | .bindUdpRelayEndpointChallenge c => [5, 0] ++ c.encode
  | .bindUdpRelayEndpointAnswer c => [6, 0] ++ c.encode
  | .callMeMaybeVia e => [7, 0] ++ e.encode
  | .allocateUdpRelayEndpointRequest m =>
    [8, 0] ++ word m.clientDisco.1 ++ word m.clientDisco.2 ++ word m.generation
  | .allocateUdpRelayEndpointResponse m => [9, 0] ++ word m.generation ++ m.endpoint.encode

def parsePing : Except DiscoError Message := do
  ensure (12 ≤ body.length) .short
  if 44 ≤ body.length then
    return .ping ⟨wordAt 96 body 0, wordAt 256 body 12, body.length - 12 - 32⟩
  else
    return .ping ⟨wordAt 96 body 0, 0, body.length - 12⟩

def parsePong : Except DiscoError Message := do
  ensure (30 ≤ body.length) .short
  return .pong ⟨wordAt 96 body 0, AddrPort.decodeFrom (slice body 12 epLength)⟩

def parseCallMeMaybe : Except DiscoError Message :=
  if body.length % epLength ≠ 0 ∨ ver ≠ 0 ∨ body = [] then
    return .callMeMaybe []
  else
    return .callMeMaybe (addrPorts body)

def BindUdpRelayEndpointCommon.decodeFrom : Except DiscoError BindUdpRelayEndpointCommon := do
  ensure (72 ≤ body.length) .short
  return ⟨wordAt 32 body 0, wordAt 32 body 4, wordAt 256 body 8, wordAt 256 body 40⟩

def UdpRelayEndpoint.decodeFrom : Except DiscoError UdpRelayEndpoint := do
  ensure (124 + epLength ≤ body.length ∧ (body.length - 124) % epLength = 0) .short
  return {
    serverDisco := wordAt 256 body 0
    clientDisco := (wordAt 256 body 32, wordAt 256 body 64)
    lamportId := wordAt 64 body 96
    vni := wordAt 32 body 104
    bindLifetime := num 8 body 108
    steadyStateLifetime := num 8 body 116
    addrPorts := Disco.addrPorts (body.drop 124) }

def parseCallMeMaybeVia : Except DiscoError Message :=
  if ver ≠ 0 then return .callMeMaybeVia {}
  else return .callMeMaybeVia (← UdpRelayEndpoint.decodeFrom body)

def parseAllocateUdpRelayEndpointRequest : Except DiscoError Message :=
  if ver ≠ 0 then
    return .allocateUdpRelayEndpointRequest {}
  else do
    ensure (68 ≤ body.length) .short
    return .allocateUdpRelayEndpointRequest
      ⟨(wordAt 256 body 0, wordAt 256 body 32), wordAt 32 body 64⟩

def parseAllocateUdpRelayEndpointResponse : Except DiscoError Message :=
  if ver ≠ 0 then
    return .allocateUdpRelayEndpointResponse {}
  else do
    ensure (4 ≤ body.length) .short
    return .allocateUdpRelayEndpointResponse
      ⟨wordAt 32 body 0, ← UdpRelayEndpoint.decodeFrom (body.drop 4)⟩

def Message.parse (payload : List Byte) : Except DiscoError Message :=
  let decodeFrom := BindUdpRelayEndpointCommon.decodeFrom
  match payload with
  | type :: ver :: body =>
    if type = 1 then parsePing body
    else if type = 2 then parsePong body
    else if type = 3 then parseCallMeMaybe ver body
    else if type = 4 then return .bindUdpRelayEndpoint (← decodeFrom body)
    else if type = 5 then return .bindUdpRelayEndpointChallenge (← decodeFrom body)
    else if type = 6 then return .bindUdpRelayEndpointAnswer (← decodeFrom body)
    else if type = 7 then parseCallMeMaybeVia ver body
    else if type = 8 then parseAllocateUdpRelayEndpointRequest ver body
    else if type = 9 then parseAllocateUdpRelayEndpointResponse ver body
    else .error (.unknownType type)
  | _ => .error .short

def magic : List Byte := [0x54, 0x53, 0xF0, 0x9F, 0x92, 0xAC]

def looksLikeDiscoWrapper (p : List Byte) : Bool :=
  decide (6 + 32 + 24 ≤ p.length) && p.take 6 == magic

def source (p : List Byte) : Option DiscoPublic :=
  if looksLikeDiscoWrapper p then some (wordAt 256 p 6) else none

theorem BindUdpRelayEndpointCommon.decodeFrom_encode : decodeFrom c.encode = .ok c := by
  simp [decodeFrom, encode, List.append_assoc, wordAt_skip, wordAt_word, wordAt_last, pure, Except.pure]

theorem parse_marshal_challenge :
    Message.parse (Message.bindUdpRelayEndpointChallenge c).marshal =
      .ok (.bindUdpRelayEndpointChallenge c) := by
  simp [Message.parse, Message.marshal, BindUdpRelayEndpointCommon.decodeFrom_encode, pure,
    Except.pure]

end Rustscale.Disco
