import Rustscale.Lib.Chunks
import Rustscale.Udprelay.Server

/-! Batches of UDP datagrams: runs of equal ones are one message that the kernel cuts at a segment
size, and what the kernel has put together is cut on receipt. -/
namespace Rustscale.UdpBatch
open Octets
open Udprelay (SocketAddr)

def maxBatch : ℕ := 128

def maxGsoSegments : ℕ := 64

def neverGsoEqualTailSentinel : List Byte := [0x07]

def sentinelTailBatchThreshold : ℕ := 8

def maxIpv4Payload : ℕ := 65507

def maxIpv6Payload : ℕ := 65527

def groPacketCapacity : ℕ := 65536

def groTailSlots : ℕ := 2

/-- A run of datagrams for one `sendmmsg` header. -/
structure PlannedMessage where
  first : ℕ
  datagrams : ℕ
  segmentSize : Option ℕ
  appendSentinel : Bool
  deriving DecidableEq

/-- The inner loop of `plan`: the number of datagrams of a message, and whether the last is shorter.
-/
def coalesce (neverGsoEqualTail : Bool) (maxDatagrams maxPayload segmentLen : ℕ) :
    List (List Byte) → ℕ → ℕ → Bool → ℕ × Bool
  | [], count, _, hasSmallerTail => (count, hasSmallerTail)
  | next :: rest, count, total, hasSmallerTail =>
    if count < maxDatagrams ∧ hasSmallerTail = false ∧ 1 ≤ segmentLen ∧ segmentLen ≤ 65535 then
      let nextLen := next.length
      let sentinelCanBeSmaller := !neverGsoEqualTail || neverGsoEqualTailSentinel.length < nextLen
      if nextLen = 0 ∨ segmentLen < nextLen ∨ maxPayload < total + nextLen ∨
          sentinelCanBeSmaller = false then (count, hasSmallerTail)
      else coalesce neverGsoEqualTail maxDatagrams maxPayload segmentLen rest (count + 1)
        (total + nextLen) (nextLen < segmentLen)
    else (count, hasSmallerTail)

def maxPayload (addr : SocketAddr) : ℕ :=
  match addr with
  | .v4 _ _ => maxIpv4Payload
  | .v6 _ _ _ _ => maxIpv6Payload

/-- The outer loop of `plan`, from a datagram on. -/
def planFrom (addr : SocketAddr) (neverGsoEqualTail : Bool) (first : ℕ) :
    List (List Byte) → List PlannedMessage
  | [] => []
  | datagram :: rest =>
    let segmentLen := datagram.length
    -- one segment and one byte are kept for a sentinel
    let (maxDatagrams, payload) :=
      if neverGsoEqualTail then
        (maxGsoSegments - 1, maxPayload addr - neverGsoEqualTailSentinel.length)
      else (maxGsoSegments, maxPayload addr)
    let (count, hasSmallerTail) :=
      coalesce neverGsoEqualTail maxDatagrams payload segmentLen rest 1 segmentLen false
    let segmentSize := if 1 < count ∧ 1 ≤ segmentLen ∧ segmentLen ≤ 65535
      then some (segmentLen % 2 ^ 16) else none
    ⟨first, count, segmentSize, neverGsoEqualTail && segmentSize.isSome && !hasSmallerTail⟩ ::
      planFrom addr neverGsoEqualTail (first + count) (rest.drop (count - 1))
termination_by datagrams => datagrams.length
decreasing_by simp only [List.length_drop, List.length_cons]; omega

def plan (addr : SocketAddr) (datagrams : List (List Byte)) (neverGsoEqualTail : Bool) :
    List PlannedMessage :=
  planFrom addr neverGsoEqualTail 0 datagrams

namespace PlannedMessage

variable (m : PlannedMessage) (datagrams : List (List Byte))

def slice : List (List Byte) :=
  (datagrams.drop m.first).take m.datagrams

def sentinel : List (List Byte) :=
  if m.appendSentinel then [neverGsoEqualTailSentinel] else []

def wireBytes : ℕ :=
  ((m.slice datagrams).map List.length).sum +
    (if m.appendSentinel then 1 else 0) * neverGsoEqualTailSentinel.length

def iovecs : List (List Byte) :=
  m.slice datagrams ++ m.sentinel

end PlannedMessage

/-- What the kernel is given: buffers, and the segment size as control data. -/
structure MmsgHdr where
  iovecs : List (List Byte)
  segmentSize : Option ℕ

inductive IoError where
  | invalidInput
  | wouldBlock
  | os
  | invalidData (message : String)
  deriving DecidableEq

/-- How many datagrams were sent, and how many bytes. -/
structure SendOutcome where
  datagrams : ℕ
  wireBytes : ℕ
  deriving DecidableEq

/-- Each datagram as a message; `sendmmsg` is the answer of the kernel. -/
def send (sendmmsg : List MmsgHdr → ℤ) (datagrams : List (List Byte)) : Except IoError ℕ :=
  if datagrams = [] ∨ maxBatch < datagrams.length then .error .invalidInput
  else
    let sent := sendmmsg (datagrams.map fun datagram => ⟨[datagram], none⟩)
    if 0 < sent then .ok sent.toNat
    else if sent = 0 then .error .wouldBlock
    else .error .os

def sendGso (sendmmsg : List MmsgHdr → ℤ) (addr : SocketAddr) (datagrams : List (List Byte))
    (neverGsoEqualTail : Bool) : Except IoError SendOutcome :=
  if datagrams = [] ∨ maxBatch < datagrams.length then .error .invalidInput
  else if neverGsoEqualTail = true ∧ datagrams.length < sentinelTailBatchThreshold then
    (send sendmmsg datagrams).map fun sent =>
      ⟨sent, ((datagrams.take sent).map List.length).sum⟩
  else
    let messages := plan addr datagrams neverGsoEqualTail
    let sent := sendmmsg (messages.map fun m => ⟨m.iovecs datagrams, m.segmentSize⟩)
    if 0 < sent then
      let sentMessages := messages.take sent.toNat
      .ok ⟨(sentMessages.map PlannedMessage.datagrams).sum,
        (sentMessages.map fun m => m.wireBytes datagrams).sum⟩
    else if sent = 0 then .error .wouldBlock
    else .error .os

def divCeil (a b : ℕ) : ℕ := (a + b - 1) / b

def kernelSegments (segmentSize : Option ℕ) (data : List Byte) : List (List Byte) :=
  match segmentSize with
  | none => [data]
  | some size => Chunks.chunks size (divCeil data.length size) data

/-- A message of `recvmmsg`, with the segment size from its control data. -/
structure GroMessage where
  data : List Byte
  truncated : Bool
  source : SocketAddr
  groSize : Option ℕ

def validateGroSegments (length segmentSize : ℕ) : Except IoError ℕ :=
  if length = 0 then .error (.invalidData "UDP_GRO control accompanied an empty payload")
  else
    let segments := divCeil length segmentSize
    if maxGsoSegments < segments then
      .error (.invalidData "UDP_GRO control exceeds the Linux segment limit")
    else .ok segments

def validateMessage (m : GroMessage) (capacity : ℕ) : Except IoError Unit :=
  if capacity < m.data.length then
    .error (.invalidData "kernel returned UDP length larger than receive buffer")
  else if m.truncated then .error (.invalidData "truncated UDP packet or ancillary data")
  else .ok ()

def groSegments (groSize : Option ℕ) (length : ℕ) : Except IoError ℕ :=
  match groSize with
  | some size => validateGroSegments length size
  | none => .ok 1

/-- The loop over the segments of a message. -/
def splitSegments (groSize : Option ℕ) (data : List Byte) : ℕ → ℕ → List (List Byte)
  | 0, _ => []
  | segments + 1, start =>
    let stop :=
      match groSize with
      | none => data.length
      | some size => min (start + size) data.length
    (data.drop start).take (stop - start) :: splitSegments groSize data segments stop

def splitGroTail (output : List (List Byte × SocketAddr)) :
    List GroMessage → Except IoError (List (List Byte × SocketAddr))
  | [] => .ok output
  | m :: messages => do
    validateMessage m groPacketCapacity
    let segments ← groSegments m.groSize m.data.length
    if maxBatch < output.length + segments then
      .error (.invalidData "splitting UDP GRO packet would overflow batch")
    else splitGroTail (output ++ (splitSegments m.groSize m.data segments 0).map (·, m.source)) messages

end Rustscale.UdpBatch
