import Rustscale.Lib.Checks
import Rustscale.Tun.Checksum

/-! Splitting a virtio-net frame into the packets that it stands for. -/
namespace Rustscale.Tun
open Octets Bytes Checks

/-- An error of the splitter. `panic` is an index or a subtraction out of range. -/
inductive SplitError where
  | invalid (message : String)
  | panic
  deriving DecidableEq

def virtioNetHdrLen : ℕ := 10
def virtioNetHdrFNeedsCsum : Byte := 1
def gsoNone : Byte := 0
def gsoTcpv4 : Byte := 1
def gsoUdpL4 : Byte := 3
def gsoTcpv6 : Byte := 4

/-- The header in front of a packet from the device. -/
structure VirtioHdr where
  flags : Byte
  gsoType : Byte
  hdrLen : BitVec 16
  gsoSize : BitVec 16
  csumStart : BitVec 16
  csumOffset : BitVec 16

variable (e : Endian) (raw data : List Byte)

def index (i : ℕ) : Except SplitError Byte := okOr data[i]? .panic

def native16 (i : ℕ) : Except SplitError (BitVec 16) := do
  let a ← index data i
  let b ← index data (i + 1)
  return BitVec.ofNat 16 (ofBytes e [a, b])

def virtioHeader : Except SplitError VirtioHdr := do
  ensure (virtioNetHdrLen ≤ raw.length) (.invalid "short virtio header")
  let flags ← index raw 0
  let gsoType ← index raw 1
  let hdrLen ← native16 e raw 2
  let gsoSize ← native16 e raw 4
  let csumStart ← native16 e raw 6
  let csumOffset ← native16 e raw 8
  return { flags, gsoType, hdrLen, gsoSize, csumStart, csumOffset }

def add (a b : ℕ) : Except SplitError ℕ :=
  if a + b < 2 ^ 64 then .ok (a + b) else .error (.invalid "packet offset overflow")

/-- An unchecked subtraction of the source. -/
def sub (a b : ℕ) : Except SplitError ℕ := if b ≤ a then .ok (a - b) else .error .panic

def getRange (start stop : ℕ) : Option (List Byte) :=
  if start ≤ stop ∧ stop ≤ data.length then some (slice data start (stop - start)) else none

def range (offset len : ℕ) : Except SplitError (List Byte) := do
  okOr (getRange data offset (← add offset len)) (.invalid "short packet")

/-- Write big-endian bytes: `put16` and `put32`. -/
def put (n : ℕ) (data : List Byte) (offset value : ℕ) : Except SplitError (List Byte) := do
  ensure ((← add offset n) ≤ data.length) (.invalid "short packet")
  return writeAt data offset (toBytes .big n value)

def put16 := put 2
def put32 := put 4

def be (n : ℕ) (data : List Byte) (offset : ℕ) : Except SplitError ℕ := do
  return ofBytes .big (← range data offset n)

def be16 := be 2
def be32 := be 4

/-- Packet storage, of which the first `len` packets are present. -/
structure TunPacketBatch where
  storage : List (List Byte)
  len : ℕ

namespace TunPacketBatch

def maxPackets : ℕ := 128

def clear (batch : TunPacketBatch) : TunPacketBatch := { batch with len := 0 }

def packets (batch : TunPacketBatch) : List (List Byte) := batch.storage.take batch.len

def setLen (len : ℕ) : EStateM SplitError TunPacketBatch Unit :=
  modify fun batch => { batch with len }

def grow (i : ℕ) (batch : TunPacketBatch) : TunPacketBatch :=
  { batch with storage := batch.storage ++ List.replicate (i + 1 - batch.storage.length) [] }

def packetMut (i : ℕ) : EStateM SplitError TunPacketBatch Unit := do
  lift (ensure (i < maxPackets) (.invalid "too many TUN packets"))
  modify (grow i)

def fill (i : ℕ) (out : List Byte) : EStateM SplitError TunPacketBatch Unit := do
  let batch ← get
  if i < batch.storage.length then
    set { batch with storage := batch.storage.set i out }
  else
    throw .panic

end TunPacketBatch

variable (input : List Byte)

/-- The packet as it is, or with its checksum completed. -/
def singleBytes (flags : Byte) (cs csumAt : ℕ) : Except SplitError (List Byte) := do
  if flags &&& virtioNetHdrFNeedsCsum ≠ 0 then
    let initial ← be16 input csumAt
    let out ← put16 input csumAt 0
    let len ← sub out.length cs
    let sum := checksum e (← range out cs len) initial
    put16 out csumAt (65535 - sum)
  else
    return input

def copySingle (flags : Byte) (cs csumAt : ℕ) : EStateM SplitError TunPacketBatch Unit := do
  TunPacketBatch.packetMut 0
  let out ← lift (singleBytes e input flags cs csumAt)
  TunPacketBatch.fill 0 out
  TunPacketBatch.setLen 1

def splitNone (header : VirtioHdr) (cs csumAt : ℕ) : EStateM SplitError TunPacketBatch Unit := do
  lift (ensure (header.hdrLen.toNat ≤ input.length ∧ cs ≤ input.length)
    (.invalid "invalid header length"))
  copySingle e input header.flags cs csumAt

/-- What a split needs of the headers. -/
structure Gso where
  input : List Byte
  v4 : Bool
  tcp : Bool
  ipHeaderLen : ℕ
  addressOffset : ℕ
  addressLen : ℕ
  cs : ℕ
  csumAt : ℕ
  headerLen : ℕ
  gsoSize : ℕ
  count : ℕ
  sequence : ℕ
  baseId : ℕ

def Gso.putIp (g : Gso) (index total : ℕ) (out : List Byte) : Except SplitError (List Byte) := do
  if g.v4 then
    let out ← put16 out 2 total
    let out ← put16 out 4 ((g.baseId + index) % 2 ^ 16)
    let out ← put16 out 10 0
    let ipSum := 65535 - checksum e (← range out 0 g.ipHeaderLen) 0
    put16 out 10 ipSum
  else
    let ipv6PayloadLen ←
      okOr (if g.ipHeaderLen ≤ total then some (total - g.ipHeaderLen) else none)
        (.invalid "IPv6 bounds")
    ensure (ipv6PayloadLen < 2 ^ 16) (.invalid "segment too large")
    put16 out 4 ipv6PayloadLen

/-- The fields of a segment's transport header, but its checksum. -/
def Gso.putTransport (g : Gso) (index transportLen : ℕ) (out : List Byte) :
    Except SplitError (List Byte) := do
  if g.tcp then
    let out ← put32 out (← add g.cs 4) ((g.sequence + g.gsoSize * index) % 2 ^ 32)
    if index + 1 < g.count then
      let at' ← add g.cs 13
      let flags ← okOr out[at']? (.invalid "short TCP header")
      return writeAt out at' [flags &&& ~~~0x09]
    else
      return out
  else
    put16 out (← add g.cs 4) transportLen

def Gso.protocol (g : Gso) : Byte := if g.tcp then 6 else 17

def Gso.putChecksum (g : Gso) (transportLen : ℕ) (out : List Byte) :
    Except SplitError (List Byte) := do
  let out ← put16 out g.csumAt 0
  let source ← range g.input g.addressOffset g.addressLen
  let destination ← range g.input (← add g.addressOffset g.addressLen) g.addressLen
  let sum := 65535 - checksum e (← range out g.cs transportLen)
    (pseudo e g.protocol source destination transportLen)
  put16 out g.csumAt sum

/-- The payload of a segment, its length and that of its transport part. -/
def Gso.bounds (g : Gso) (index : ℕ) : Except SplitError (List Byte × ℕ × ℕ) := do
  ensure (index * g.gsoSize < 2 ^ 64) (.invalid "segment offset overflow")
  let dataStart ← add g.headerLen (index * g.gsoSize)
  let dataEnd := min (← add dataStart g.gsoSize) g.input.length
  let data ← okOr (getRange g.input dataStart dataEnd) (.invalid "segment bounds")
  let total ← add g.headerLen data.length
  let transportLen ← okOr (if g.cs ≤ total then some (total - g.cs) else none)
    (.invalid "transport bounds")
  ensure (total < 2 ^ 16) (.invalid "segment too large")
  ensure (transportLen < 2 ^ 16) (.invalid "segment too large")
  return (data, total, transportLen)

def Gso.build (g : Gso) (index : ℕ) (data : List Byte) (total transportLen : ℕ) :
    Except SplitError (List Byte) := do
  let out := (← range g.input 0 g.headerLen) ++ data
  let out ← g.putIp e index total out
  let out ← g.putTransport index transportLen out
  g.putChecksum e transportLen out

/-- One round of the loop. A segment that fails leaves its slot as it was. -/
def Gso.segment (g : Gso) (index : ℕ) : EStateM SplitError TunPacketBatch Unit := do
  let (data, total, transportLen) ← lift (g.bounds index)
  TunPacketBatch.packetMut index
  let out ← lift (g.build e index data total transportLen)
  TunPacketBatch.fill index out

def Gso.segmentsFrom (e : Endian) (g : Gso) : ℕ → ℕ → EStateM SplitError TunPacketBatch Unit
  | _, 0 => return
  | index, n + 1 => do
    g.segment e index
    g.segmentsFrom e (index + 1) n

def ipHeader (gsoType : Byte) (cs : ℕ) (first : Byte) : Except SplitError (ℕ × ℕ × ℕ) :=
  if first >>> 4 = 4 then do
    ensure (gsoType = gsoTcpv4 ∨ gsoType = gsoUdpL4) (.invalid "IP/GSO mismatch")
    let ihl := (first &&& 0x0f).toNat * 4
    ensure ((20 ≤ ihl ∧ ihl ≤ 60) ∧ ihl ≤ input.length) (.invalid "invalid IPv4 header length")
    return (ihl, 12, 4)
  else if first >>> 4 = 6 then do
    ensure (gsoType = gsoTcpv6 ∨ gsoType = gsoUdpL4) (.invalid "IP/GSO mismatch")
    ensure (40 ≤ input.length) (.invalid "short IPv6")
    ensure (40 ≤ cs) (.invalid "invalid IPv6 transport offset")
    return (40, 8, 16)
  else
    .error (.invalid "IP/GSO mismatch")

def checkOffsets (version : Byte) (ipHeaderLen cs csumAt expectedChecksum transportHeaderLen : ℕ) :
    Except SplitError Unit := do
  ensure (version = 4 → cs = ipHeaderLen) (.invalid "invalid transport checksum offset")
  ensure (csumAt = expectedChecksum) (.invalid "invalid transport checksum offset")
  ensure ((← add csumAt 2) ≤ (← add cs transportHeaderLen))
    (.invalid "invalid transport checksum offset")

def divCeil (a b : ℕ) : Except SplitError ℕ :=
  if b = 0 then .error .panic else .ok ((a + b - 1) / b)

def splitGso (header : VirtioHdr) (cs csumAt headerLen transportHeaderLen : ℕ) :
    EStateM SplitError TunPacketBatch Unit := do
  let first ← lift (okOr input.head? (.invalid "empty packet"))
  let version := first >>> 4
  let (ipHeaderLen, addressOffset, addressLen) ← lift (ipHeader input header.gsoType cs first)
  let tcp := decide (header.gsoType = gsoTcpv4 ∨ header.gsoType = gsoTcpv6)
  let expectedChecksum ← lift (add cs (if tcp then 16 else 6))
  lift (checkOffsets version ipHeaderLen cs csumAt expectedChecksum transportHeaderLen)
  lift (ensure (tcp → 20 ≤ transportHeaderLen) (.invalid "short TCP"))
  let payloadLen ← lift (sub input.length headerLen)
  let gsoSize := header.gsoSize.toNat
  if payloadLen < gsoSize then
    copySingle e input header.flags cs csumAt
  else do
    let count ← lift (divCeil payloadLen gsoSize)
    lift (ensure (count ≠ 0) (.invalid "empty GSO payload"))
    lift (ensure (count ≤ TunPacketBatch.maxPackets) (.invalid "too many GSO segments"))
    let sequence ← lift do if tcp then be32 input (← add cs 4) else return 0
    let baseId ← lift do if version = 4 then be16 input 4 else return 0
    let g : Gso :=
      { input, v4 := version = 4, tcp, ipHeaderLen, addressOffset, addressLen, cs, csumAt,
        headerLen, gsoSize, count, sequence, baseId }
    g.segmentsFrom e 0 count
    TunPacketBatch.setLen count

/-- The length of the transport header. `hdr_len` is not used for it. -/
def transportHeader (gsoType : Byte) (cs : ℕ) : Except SplitError ℕ := do
  if gsoType = gsoUdpL4 then
    return 8
  else
    let byte ← okOr input[← add cs 12]? (.invalid "short TCP header")
    let len := (byte >>> 4).toNat * 4
    ensure (20 ≤ len ∧ len ≤ 60) (.invalid "invalid TCP header length")
    return len

def splitVirtioInner : EStateM SplitError TunPacketBatch Unit := do
  let header ← lift (virtioHeader e raw)
  let input ← lift (okOr (getRange raw virtioNetHdrLen raw.length) (.invalid "short virtio frame"))
  let known := header.gsoType = gsoNone ∨ header.gsoType = gsoTcpv4 ∨ header.gsoType = gsoUdpL4 ∨
    header.gsoType = gsoTcpv6
  lift (ensure known (.invalid "unsupported virtio GSO type"))
  lift (ensure (header.gsoType ≠ gsoNone → header.gsoSize ≠ 0) (.invalid "zero GSO size"))
  let cs := header.csumStart.toNat
  let csumAt ← lift (add cs header.csumOffset.toNat)
  lift do ensure ((← add csumAt 2) ≤ input.length) (.invalid "checksum offset out of bounds")
  if header.gsoType = gsoNone then
    splitNone e input header cs csumAt
  else do
    let transportHeaderLen ← lift (transportHeader input header.gsoType cs)
    let headerLen ← lift (add cs transportHeaderLen)
    lift (ensure (headerLen ≤ input.length) (.invalid "packet shorter than headers"))
    splitGso e input header cs csumAt headerLen transportHeaderLen

/-- Split one virtio-net frame. An error leaves no packets. -/
def splitVirtio (batch : TunPacketBatch) : EStateM.Result SplitError TunPacketBatch Unit :=
  match (splitVirtioInner e raw).run batch.clear with
  | .ok () batch => .ok () batch
  | .error err batch => .error err batch.clear

end Rustscale.Tun
