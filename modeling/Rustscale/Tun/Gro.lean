import Mathlib.Data.List.AList
import Rustscale.Tun.Split

/-! Planning which TCP packets are written as one frame. -/
namespace Rustscale.Tun
open Octets Bytes Checks

def maxGroIovecs : ℕ := 1024
def protoTcp : Byte := 6
def tcpAck : Byte := 0x10
def tcpPsh : Byte := 0x08

/-- The payload of a packet that is merged into another. -/
structure PayloadFragment where
  packet : ℕ
  start : ℕ
  stop : ℕ
  deriving DecidableEq

/-- A write to the device: a header, a packet, and the payloads that follow. -/
structure GroOutput where
  header : List Byte
  head : ℕ
  fragments : List PayloadFragment
  deriving DecidableEq

def GroOutput.iovecCount (o : GroOutput) : ℕ := 2 + o.fragments.length

/-- Addresses are filled up to 16 bytes. -/
structure TcpFlowKey where
  src : List Byte
  dst : List Byte
  srcPort : ℕ
  dstPort : ℕ
  ack : ℕ
  v6 : Bool
  deriving DecidableEq

/-- What is read of a packet that may be merged. -/
structure TcpMeta where
  key : TcpFlowKey
  ipLen : ℕ
  tcpLen : ℕ
  payload : ℕ
  seq : ℕ
  psh : Bool

/-- What the planner keeps of an output that more packets may join. -/
structure TcpItem where
  key : TcpFlowKey
  output : ℕ
  sentSeq : ℕ
  payloadLen : ℕ
  gsoSize : ℕ
  ipLen : ℕ
  tcpLen : ℕ
  psh : Bool

/-- Where a packet fits, if at all. -/
inductive Coalesce where
  | prepend
  | no
  | append
  deriving DecidableEq

/-- The planning state. The pools of the source only keep allocations. -/
structure TcpGroState where
  flows : AList fun _ : TcpFlowKey => List TcpItem
  outputs : List GroOutput

def addressAt (v6 : Bool) : ℕ × ℕ := if v6 then (8, 16) else (12, 4)

/-- The length of the IP header of a packet that may be merged. -/
def ipLenOf (v6 : Bool) : ℕ := if v6 then 40 else 20

variable (output : GroOutput) (e : Endian) (packet : List Byte)

def tcpVersion : Option Bool :=
  if get packet 0 >>> 4 = 4 ∧ get packet 0 &&& 0x0f = 5 ∧ get packet 9 = protoTcp then
    if num 2 packet 2 ≠ packet.length ∨ get packet 6 &&& 0x20 ≠ 0 ∨ get packet 6 <<< 3 ≠ 0 ∨
        get packet 7 ≠ 0 then
      none
    else
      some false
  else if get packet 0 >>> 4 = 6 ∧ 60 ≤ packet.length ∧ get packet 6 = protoTcp then
    if num 2 packet 4 ≠ packet.length - 40 then none else some true
  else
    none

def tcpMeta : Option TcpMeta := do
  guard (packet.length ≤ 65535 ∧ 40 ≤ packet.length)
  let v6 ← tcpVersion packet
  let ipLen := ipLenOf v6
  let tcpLen := (get packet (ipLen + 12) >>> 4).toNat * 4
  guard ((20 ≤ tcpLen ∧ tcpLen ≤ 60) ∧ ipLen + tcpLen ≤ packet.length)
  let flags := get packet (ipLen + 13)
  guard (flags = tcpAck ∨ flags = tcpAck ||| tcpPsh)
  let payload := packet.length - ipLen - tcpLen
  guard (payload ≠ 0)
  let (address, size) := addressAt v6
  return {
    key := {
      src := slice packet address size ++ List.replicate (16 - size) 0
      dst := slice packet (address + size) size ++ List.replicate (16 - size) 0
      srcPort := num 2 packet ipLen
      dstPort := num 2 packet (ipLen + 2)
      ack := num 4 packet (ipLen + 8)
      v6 }
    ipLen
    tcpLen
    payload
    seq := num 4 packet (ipLen + 4)
    psh := decide (flags &&& tcpPsh ≠ 0) }

def ipHeadersMatch (head : List Byte) (v6 : Bool) : Bool :=
  if v6 then
    get packet 0 = get head 0 ∧ get packet 1 >>> 4 = get head 1 >>> 4 ∧ get packet 7 = get head 7
  else
    get packet 1 = get head 1 ∧ get packet 6 >>> 5 = get head 6 >>> 5 ∧ get packet 8 = get head 8

def tcpChecksumValid (ipLen : ℕ) (v6 : Bool) : Bool :=
  let (address, size) := addressAt v6
  let length := packet.length - ipLen
  decide (length < 2 ^ 16) &&
    65535 - checksum e (packet.drop ipLen) (pseudo e protoTcp (slice packet address size)
      (slice packet (address + size) size) length) == 0

variable (m : TcpMeta) (packets : List (List Byte))

def packetAt (i : ℕ) : List Byte := packets.getD i []

def pushScalar (outputs : List GroOutput) (packet : ℕ) : List GroOutput :=
  outputs ++ [{ header := List.replicate virtioNetHdrLen 0, head := packet, fragments := [] }]

def TcpMeta.item (output : ℕ) : TcpItem where
  key := m.key
  output := output
  sentSeq := m.seq
  payloadLen := m.payload % 2 ^ 16
  gsoSize := m.payload % 2 ^ 16
  ipLen := m.ipLen % 2 ^ 8
  tcpLen := m.tcpLen % 2 ^ 8
  psh := m.psh

def tcpOptions (ipLen tcpLen : ℕ) : List Byte :=
  slice packet (ipLen + 20) (tcpLen - 20)

def canCoalesce (item : TcpItem) (packets : List (List Byte)) : Coalesce :=
  let head := packetAt packets output.head
  if output.iovecCount ≥ maxGroIovecs then .no
  else if m.tcpLen ≠ item.tcpLen ∨ ipHeadersMatch packet head m.key.v6 = false ∨
      m.ipLen + m.tcpLen + item.payloadLen + m.payload > 65535 then .no
  else if m.tcpLen > 20 ∧
      tcpOptions packet m.ipLen m.tcpLen ≠ tcpOptions head item.ipLen item.tcpLen then .no
  else if m.seq = (item.sentSeq + item.payloadLen) % 2 ^ 32 then
    if item.psh ∨ item.payloadLen % item.gsoSize ≠ 0 ∨ m.payload > item.gsoSize then .no
    else .append
  else if (m.seq + m.payload) % 2 ^ 32 = item.sentSeq then
    if m.psh ∨ m.payload < item.gsoSize ∨ (m.payload > item.gsoSize ∧ output.iovecCount > 2) then
      .no
    else .prepend
  else .no

/-- An output of its own that later packets may join or not, or a part of an item's output. -/
inductive Choice where
  | fresh
  | scalar
  | join (index : ℕ) (item : TcpItem) (output : GroOutput) (mode : Coalesce)

/-- From the last item before `i` to the first. Items whose only packet is corrupt are dropped. -/
def search (e : Endian) (packets : List (List Byte)) (packet : List Byte) (m : TcpMeta)
    (outputs : List GroOutput) : ℕ → List TcpItem → List TcpItem × Choice
  | 0, items => (items, .fresh)
  | i + 1, items =>
    match items[i]?, items[i]?.bind fun item => outputs[item.output]? with
    | some item, some output =>
      let mode := canCoalesce output packet m item packets
      if mode = .no then
        search e packets packet m outputs i items
      else if output.fragments = [] ∧
          tcpChecksumValid e (packetAt packets output.head) item.ipLen item.key.v6 = false then
        search e packets packet m outputs i (items.eraseIdx i)
      else if tcpChecksumValid e packet m.ipLen m.key.v6 = false then
        (items, .scalar)
      else
        (items, .join i item output mode)
    | _, _ => search e packets packet m outputs i items

/-- The output that a packet is part of from now on. -/
def mergeOutput (packet : ℕ) (m : TcpMeta) (item : TcpItem) (mode : Coalesce)
    (packets : List (List Byte)) : GroOutput :=
  if mode = .prepend then
    { output with
      head := packet
      fragments := { packet := output.head, start := item.ipLen + item.tcpLen,
                     stop := (packetAt packets output.head).length } :: output.fragments }
  else
    { output with
      fragments := output.fragments ++ [{ packet, start := m.ipLen + m.tcpLen,
                                          stop := m.ipLen + m.tcpLen + m.payload }] }

def mergeItem (item : TcpItem) (mode : Coalesce) : TcpItem :=
  let item := if mode = .prepend then { item with sentSeq := m.seq }
    else { item with psh := m.psh || item.psh }
  { item with
    payloadLen := (item.payloadLen + m.payload % 2 ^ 16) % 2 ^ 16
    gsoSize := max item.gsoSize (m.payload % 2 ^ 16) }

variable (st : TcpGroState)

def TcpGroState.items (key : TcpFlowKey) : List TcpItem :=
  (st.flows.lookup key).getD []

def tcpGro (packet : ℕ) (m : TcpMeta) : TcpGroState :=
  let items := st.items m.key
  match search e packets (packetAt packets packet) m st.outputs items.length items with
  | (items, .fresh) =>
    { flows := st.flows.insert m.key (items ++ [m.item st.outputs.length])
      outputs := pushScalar st.outputs packet }
  | (items, .scalar) =>
    { flows := st.flows.insert m.key items, outputs := pushScalar st.outputs packet }
  | (items, .join index item output mode) =>
    { flows := st.flows.insert m.key (items.set index (mergeItem m item mode))
      outputs := st.outputs.set item.output (mergeOutput output packet m item mode packets) }

def planPacket (index : ℕ) : TcpGroState :=
  match tcpMeta (packetAt packets index) with
  | none => { st with outputs := pushScalar st.outputs index }
  | some m => tcpGro e packets st index m

def planned (e : Endian) (packets : List (List Byte)) : ℕ → TcpGroState
  | 0 => { flows := ∅, outputs := [] }
  | n + 1 => planPacket e packets (planned e packets n) n

def vnetTcpHeader (item : TcpItem) : List Byte :=
  [virtioNetHdrFNeedsCsum, if item.key.v6 then gsoTcpv6 else gsoTcpv4] ++
    toBytes e 2 (item.ipLen + item.tcpLen) ++ toBytes e 2 item.gsoSize ++ toBytes e 2 item.ipLen ++
    toBytes e 2 16

def account (item : TcpItem) (packet : List Byte) : List Byte :=
  let total := (item.ipLen + item.tcpLen + item.payloadLen) % 2 ^ 16
  let packet :=
    if item.psh then
      writeAt packet (item.ipLen + 13) [get packet (item.ipLen + 13) ||| tcpPsh]
    else packet
  let packet :=
    if item.key.v6 then
      writeAt packet 4 (toBytes .big 2 (total - item.ipLen))
    else
      fillChecksum 10 (fun d => checksum e (d.take item.ipLen) 0)
        (writeAt packet 2 (toBytes .big 2 total))
  let (address, size) := addressAt item.key.v6
  let seed := checksum e [] (pseudo e protoTcp (slice packet address size)
    (slice packet (address + size) size) (total - item.ipLen))
  writeAt packet (item.ipLen + 16) (toBytes .big 2 seed)

def applyItem (s : List GroOutput × List (List Byte)) (item : TcpItem) :
    List GroOutput × List (List Byte) :=
  match s.1[item.output]? with
  | none => s
  | some output =>
    if output.fragments = [] then s
    else (s.1.set item.output { output with header := vnetTcpHeader e item },
      s.2.set output.head (account e item (packetAt s.2 output.head)))

/-- The order in which a hash map gives its values. -/
structure HashOrder where
  visit : List (List TcpItem) → List (List TcpItem)
  perm : ∀ values, (visit values).Perm values

def applyAccounting (order : HashOrder) (st : TcpGroState) (packets : List (List Byte)) :
    List GroOutput × List (List Byte) :=
  (order.visit (st.flows.entries.map (·.2))).flatten.foldl (applyItem e) (st.outputs, packets)

def plan (order : HashOrder) (packets : List (List Byte)) : List GroOutput × List (List Byte) :=
  applyAccounting e order (planned e packets packets.length) packets

def addFragment (s : ℕ × List (List Byte)) (fragment : PayloadFragment) :
    Except String (ℕ × List (List Byte)) := do
  let packet ← okOr packets[fragment.packet]? "GRO fragment packet index out of bounds"
  let bytes ← okOr (getRange packet fragment.start fragment.stop)
    "GRO fragment range out of bounds"
  ensure (s.1 + bytes.length < 2 ^ 64) "VNET frame length overflow"
  ensure (s.1 + bytes.length ≤ 2 ^ 63 - 1) "VNET frame length exceeds ssize_t"
  return (s.1 + bytes.length, s.2 ++ [bytes])

def groWriteIovecs (slots : ℕ) (output : GroOutput) (packets : List (List Byte)) :
    Except String (List (List Byte) × ℕ) := do
  let count := output.iovecCount
  ensure (count ≤ maxGroIovecs ∧ count ≤ slots) "too many VNET iovecs"
  ensure (count ≤ 2 ^ 31 - 1) "iov count exceeds C int"
  let head ← okOr packets[output.head]? "GRO head packet index out of bounds"
  ensure (virtioNetHdrLen + head.length < 2 ^ 64) "VNET frame length overflow"
  ensure (virtioNetHdrLen + head.length ≤ 2 ^ 63 - 1) "VNET frame length exceeds ssize_t"
  let (total, parts) ←
    output.fragments.foldlM (addFragment packets) (virtioNetHdrLen + head.length, [])
  return (output.header :: head :: parts, total)

end Rustscale.Tun
