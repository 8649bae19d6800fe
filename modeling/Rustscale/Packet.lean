import Rustscale.IpAddr

/-! Headers of raw IP packets, as far as the packet filter reads them. -/
namespace Rustscale.Packet
open Octets

def unknown : ℕ := 0
def icmpV4 : ℕ := 1
def tcp : ℕ := 6
def udp : ℕ := 17
def fragment : ℕ := 44
def icmpV6 : ℕ := 58
def sctp : ℕ := 132
def tsmp : ℕ := 99

def synFlag : Byte := 0x02#8
def ackFlag : Byte := 0x10#8

def icmpV4ErrorTypes : List ℕ := [3, 4, 11, 12]
def icmpV6ErrorTypes : List ℕ := [1, 2, 3, 4]

/-- What the filter reads of a packet. -/
structure PacketInfo where
  version : ℕ
  proto : ℕ
  src : IpAddr
  dst : IpAddr
  srcPort : ℕ
  dstPort : ℕ
  tcpFlags : Byte
  isTcpSyn : Bool
  isIcmpEchoReply : Bool
  isIcmpError : Bool
  deriving DecidableEq

def PacketInfo.ofHeader (version proto : ℕ) (src dst : IpAddr) : PacketInfo :=
  { version, proto, src, dst, srcPort := 0, dstPort := 0, tcpFlags := 0, isTcpSyn := false,
    isIcmpEchoReply := false, isIcmpError := false }

variable (buf : List Byte)

/-- Byte `i` of a buffer. The parsers read only bytes they know to be there. -/
def byteAt (i : ℕ) : Byte := buf.getD i 0

def u16At (i : ℕ) : ℕ := (byteAt buf i).toNat * 256 + (byteAt buf (i + 1)).toNat

def bareSyn (flags : Byte) : Bool := flags &&& (synFlag ||| ackFlag) == synFlag

/-- Fill in the transport fields from the bytes of the transport header. -/
def fillTransportInfo (info : PacketInfo) (proto : ℕ) (transport : List Byte) : PacketInfo :=
  if proto = tcp then
    if 14 ≤ transport.length then
      { info with
        srcPort := u16At transport 0, dstPort := u16At transport 2,
        tcpFlags := byteAt transport 13, isTcpSyn := bareSyn (byteAt transport 13) }
    else info
  else if proto = udp ∨ proto = sctp then
    if 4 ≤ transport.length then
      { info with srcPort := u16At transport 0, dstPort := u16At transport 2 }
    else info
  else if proto = icmpV4 ∧ transport ≠ [] then
    { info with
      isIcmpEchoReply := (byteAt transport 0).toNat == 0,
      isIcmpError := icmpV4ErrorTypes.contains (byteAt transport 0).toNat }
  else if proto = icmpV6 ∧ transport ≠ [] then
    { info with
      isIcmpEchoReply := (byteAt transport 0).toNat == 129,
      isIcmpError := icmpV6ErrorTypes.contains (byteAt transport 0).toNat }
  else info

def addrAt (i : ℕ) (isIpv6 : Bool) : IpAddr :=
  .fromOctets (fun k => byteAt buf (i + k)) isIpv6

def headerLen : ℕ := (byteAt buf 0 &&& 0x0F#8).toNat * 4

def parseV4 : Option PacketInfo :=
  if buf.length < 20 then none
  else if headerLen buf < 20 ∨ buf.length < headerLen buf then none
  else
    let proto := (byteAt buf 9).toNat
    some (fillTransportInfo (.ofHeader 4 proto (addrAt buf 12 false) (addrAt buf 16 false)) proto
      (buf.drop (headerLen buf)))

def fragOffset (offset : ℕ) : BitVec 16 :=
  ((byteAt buf (offset + 2)).setWidth 16 <<< 5) ||| ((byteAt buf (offset + 3)).setWidth 16 >>> 3)

/-- Hop-by-hop options, routing, destination options and authentication. -/
def isExtension (nextHeader : ℕ) : Prop :=
  nextHeader = 0 ∨ nextHeader = 43 ∨ nextHeader = 60 ∨ nextHeader = 51

instance (nextHeader : ℕ) : Decidable (isExtension nextHeader) :=
  inferInstanceAs (Decidable (_ ∨ _))

def extLen (nextHeader offset : ℕ) : ℕ :=
  if nextHeader = 51 then ((byteAt buf (offset + 1)).toNat + 2) * 4
  else ((byteAt buf (offset + 1)).toNat + 1) * 8

/-- The loop over the extension headers: the protocol it stops at and where. -/
def extHeaders (buf : List Byte) (nextHeader offset : ℕ) : ℕ × ℕ :=
  if isExtension nextHeader then
    if buf.length < offset + 2 then (nextHeader, offset)
    else
      extHeaders buf (byteAt buf offset).toNat (offset + extLen buf nextHeader offset)
  else if nextHeader = fragment then
    if buf.length < offset + 8 then (nextHeader, offset)
    else if fragOffset buf offset ≠ 0 then (nextHeader, offset)
    else extHeaders buf (byteAt buf offset).toNat (offset + 8)
  else (nextHeader, offset)
termination_by buf.length - offset
decreasing_by all_goals grind [extLen]

def parseV6 : Option PacketInfo :=
  if buf.length < 40 then none
  else
    let next := extHeaders buf (byteAt buf 6).toNat 40
    let info := PacketInfo.ofHeader 6 next.1 (addrAt buf 8 true) (addrAt buf 24 true)
    some (if next.2 < buf.length then fillTransportInfo info next.1 (buf.drop next.2) else info)

def parsePacket : Option PacketInfo :=
  if buf.isEmpty then none
  else
    match (byteAt buf 0 >>> 4).toNat with
    | 4 => parseV4 buf
    | 6 => parseV6 buf
    | _ => none

/-- What the peer map reads of a packet. -/
structure Parsed where
  ipVersion : ℕ := 0
  ipProto : ℕ := unknown
  src : IpAddr := .v4 0
  dst : IpAddr := .v4 0
  srcPort : ℕ := 0
  dstPort : ℕ := 0
  tcpFlags : Byte := 0
  deriving DecidableEq

namespace Parsed

def fillTransport (q : Parsed) (transport : List Byte) : Parsed :=
  if q.ipProto = tcp then
    if 14 ≤ transport.length then
      { q with
        srcPort := u16At transport 0, dstPort := u16At transport 2,
        tcpFlags := byteAt transport 13 }
    else q
  else if (q.ipProto = udp ∨ q.ipProto = sctp) ∧ 4 ≤ transport.length then
    { q with srcPort := u16At transport 0, dstPort := u16At transport 2 }
  else q

def decode4 (q : Parsed) (b : List Byte) : Parsed :=
  if b.length < 20 then q
  else if headerLen b < 20 ∨ b.length < headerLen b then q
  else
    fillTransport
      { q with
        ipProto := (byteAt b 9).toNat, src := addrAt b 12 false, dst := addrAt b 16 false }
      (b.drop (headerLen b))

def decode6 (q : Parsed) (b : List Byte) : Parsed :=
  if b.length < 40 then q
  else
    let next := extHeaders b (byteAt b 6).toNat 40
    let q := { q with ipProto := next.1, src := addrAt b 8 true, dst := addrAt b 24 true }
    if next.2 < b.length then fillTransport q (b.drop next.2) else q

/-- A packet that is cut short keeps its version, and the unspecified addresses. -/
def decode (buf : List Byte) : Parsed :=
  if buf.isEmpty then {}
  else
    match (byteAt buf 0 >>> 4).toNat with
    | 4 => decode4 { ipVersion := 4 } buf
    | 6 => decode6 { ipVersion := 6 } buf
    | _ => {}

theorem fillTransport_header (q : Parsed) (transport : List Byte) :
    (fillTransport q transport).ipVersion = q.ipVersion ∧
      (fillTransport q transport).src = q.src := by
  unfold fillTransport
  split_ifs <;> exact ⟨rfl, rfl⟩

end Parsed

def transportOffset : ℕ :=
  if (byteAt buf 0 >>> 4).toNat = 4 then headerLen buf
  else (extHeaders buf (byteAt buf 6).toNat 40).2

def PacketInfo.Coherent (q : PacketInfo) : Prop :=
  q.version = 4 ∧ q.src.isIpv6 = false ∧ q.dst.isIpv6 = false ∨
    q.version = 6 ∧ q.src.isIpv6 = true ∧ q.dst.isIpv6 = true

def v4FragOffset : ℕ := u16At buf 6 % 8192

/-- The headers of an IPv6 packet, each with the place the one before it says. -/
inductive HeaderAt (buf : List Byte) : (proto offset : ℕ) → Prop
  | first : HeaderAt buf (byteAt buf 6).toNat 40
  | extension {proto offset : ℕ} (h : HeaderAt buf proto offset) (he : isExtension proto)
      (hlen : offset + 2 ≤ buf.length) :
      HeaderAt buf (byteAt buf offset).toNat (offset + extLen buf proto offset)
  | fragment {offset : ℕ} (h : HeaderAt buf fragment offset) (hlen : offset + 8 ≤ buf.length) :
      HeaderAt buf (byteAt buf offset).toNat (offset + 8)

/-- A packet is the first fragment of its datagram, or the whole of it. -/
def FirstFragment : Prop :=
  if (byteAt buf 0 >>> 4).toNat = 4 then v4FragOffset buf = 0
  else ∀ offset, HeaderAt buf fragment offset → offset + 8 ≤ buf.length → fragOffset buf offset = 0

section Fill
variable (info : PacketInfo) (proto : ℕ) (transport : List Byte)

theorem fillTransportInfo_header :
    (fillTransportInfo info proto transport).version = info.version ∧
      (fillTransportInfo info proto transport).proto = info.proto ∧
      (fillTransportInfo info proto transport).src = info.src ∧
      (fillTransportInfo info proto transport).dst = info.dst := by
  unfold fillTransportInfo
  split_ifs <;> exact ⟨rfl, rfl, rfl, rfl⟩

theorem fillTransportInfo_isTcpSyn (h : info.isTcpSyn = false) :
    (fillTransportInfo info tcp transport).isTcpSyn =
      (decide (14 ≤ transport.length) && bareSyn (byteAt transport 13)) := by
  unfold fillTransportInfo
  rw [if_pos rfl]
  split_ifs with hlen
  · simp [hlen]
  · simp [hlen, h]

end Fill

theorem byteAt_drop (n i : ℕ) : byteAt (buf.drop n) i = byteAt buf (n + i) := by
  simp [byteAt, List.getD_eq_getElem?_getD]

variable {buf : List Byte} {q : PacketInfo}

section
variable (h : parsePacket buf = some q)
include h

theorem parsePacket_eq_some : ∃ proto src dst,
      q = fillTransportInfo (.ofHeader (byteAt buf 0 >>> 4).toNat proto src dst) proto
        (buf.drop (transportOffset buf)) ∧
      (PacketInfo.ofHeader (byteAt buf 0 >>> 4).toNat proto src dst).Coherent ∧
      ((byteAt buf 0 >>> 4).toNat ≠ 4 → proto = (extHeaders buf (byteAt buf 6).toNat 40).1) := by
  unfold parsePacket at h
  split_ifs at h
  split at h
  · next h4 =>
    unfold parseV4 at h
    split_ifs at h
    cases h
    rw [h4]
    refine ⟨_, _, _, by rw [transportOffset, if_pos h4], Or.inl ⟨rfl, ?_, ?_⟩, by simp⟩ <;>
      simp [addrAt, PacketInfo.ofHeader]
  · next h6 =>
    have hoff : transportOffset buf = (extHeaders buf (byteAt buf 6).toNat 40).2 := by
      rw [transportOffset, h6, if_neg (by decide)]
    unfold parseV6 at h
    split_ifs at h
    simp only [Option.some.injEq] at h
    rw [h6]
    refine ⟨(extHeaders buf (byteAt buf 6).toNat 40).1, addrAt buf 8 true, addrAt buf 24 true, ?_,
      Or.inr ⟨rfl, ?_, ?_⟩, fun _ => rfl⟩
    · rw [← h, hoff]
      split_ifs with hlt
      · rfl
      · -- past the end of the buffer there is nothing to fill in
        rw [List.drop_eq_nil_of_le (not_lt.mp hlt)]
        unfold fillTransportInfo
        split_ifs <;> simp_all
    all_goals simp [addrAt, PacketInfo.ofHeader]
  · cases h

theorem parsePacket_coherent : q.Coherent := by
  obtain ⟨proto, src, dst, rfl, hc, -⟩ := parsePacket_eq_some h
  obtain ⟨hv, -, hs, hd⟩ := fillTransportInfo_header
    (.ofHeader (byteAt buf 0 >>> 4).toNat proto src dst) proto (buf.drop (transportOffset buf))
  unfold PacketInfo.Coherent
  rw [hv, hs, hd]
  exact hc

theorem parsePacket_version : q.version = (byteAt buf 0 >>> 4).toNat := by
  obtain ⟨proto, src, dst, rfl, -⟩ := parsePacket_eq_some h
  exact (fillTransportInfo_header _ _ _).1

theorem parsePacket_isTcpSyn (ht : q.proto = tcp) :
    q.isTcpSyn = (decide (transportOffset buf + 14 ≤ buf.length) &&
      bareSyn (byteAt buf (transportOffset buf + 13))) := by
  obtain ⟨proto, src, dst, rfl, -⟩ := parsePacket_eq_some h
  obtain rfl : proto = tcp := (fillTransportInfo_header _ _ _).2.1.symm.trans ht
  rw [fillTransportInfo_isTcpSyn _ _ rfl, byteAt_drop, List.length_drop]
  congr 1
  simp only [decide_eq_decide]
  omega

end

section Fragments
variable {buf : List Byte}

theorem extHeaders_fragment {offset : ℕ} (hlen : offset + 8 ≤ buf.length) :
    extHeaders buf fragment offset = if fragOffset buf offset ≠ 0 then (fragment, offset)
      else extHeaders buf (byteAt buf offset).toNat (offset + 8) := by
  rw [extHeaders, if_neg (by decide), if_pos rfl, if_neg (not_lt.mpr hlen)]

/-- The walk passes every header of a packet that it does not end as a fragment. -/
theorem extHeaders_of_headerAt (hend : (extHeaders buf (byteAt buf 6).toNat 40).1 ≠ fragment)
    {proto offset : ℕ} (h : HeaderAt buf proto offset) :
    extHeaders buf proto offset = extHeaders buf (byteAt buf 6).toNat 40 := by
  induction h with
  | first => rfl
  | extension h he hlen ih => rw [← ih, eq_comm, extHeaders, if_pos he, if_neg (not_lt.mpr hlen)]
  | fragment h hlen ih =>
    rw [← ih, extHeaders_fragment hlen]
    split_ifs with hoff
    · rw [← ih, extHeaders_fragment hlen, if_pos hoff] at hend
      exact absurd rfl hend
    · rfl

theorem firstFragment_of_walk (h6 : (byteAt buf 0 >>> 4).toNat ≠ 4)
    (hend : (extHeaders buf (byteAt buf 6).toNat 40).1 ≠ fragment) : FirstFragment buf := by
  rw [FirstFragment, if_neg h6]
  intro offset h hlen
  by_contra hoff
  rw [← extHeaders_of_headerAt hend h, extHeaders_fragment hlen, if_pos hoff] at hend
  exact hend rfl

/-- A parsed packet not seen as a fragment is a first one, unless it is IPv4 with an offset. -/
theorem firstFragment_iff {q : PacketInfo} (h : parsePacket buf = some q)
    (hq : q.proto ≠ fragment) : FirstFragment buf ↔ (q.version = 4 → v4FragOffset buf = 0) := by
  rw [parsePacket_version h]
  by_cases h4 : (byteAt buf 0 >>> 4).toNat = 4
  · simp [FirstFragment, h4]
  · obtain ⟨proto, src, dst, rfl, -, hproto⟩ := parsePacket_eq_some h
    rw [(fillTransportInfo_header _ _ _).2.1] at hq
    exact ⟨fun _ h => absurd h h4, fun _ => firstFragment_of_walk h4 (hproto h4 ▸ hq)⟩

end Fragments

end Rustscale.Packet
