import Rustscale.Wg.PlaintextBatch

/-! The tunnel of a peer around the WireGuard engine: scalar decapsulation, and the speculative
preflight, open and commit. -/
namespace Rustscale.Wg
open Octets

/-- What the engine says to a datagram; a packet for the tunnel may be of either IP version. -/
inductive TunnResult where
  | done
  | err
  | writeToNetwork (buf : List Byte)
  | writeToTunnel (buf : List Byte)
  deriving DecidableEq

def TunnResult.writes : TunnResult → Bool
  | .done => false
  | .err => false
  | .writeToNetwork _ => true
  | .writeToTunnel _ => true

/-- The WireGuard engine. Calls with an empty datagram send what is queued, and come to an end. -/
structure Engine where
  Tunn : Type
  Prepared : Type
  Opened : Type
  decapsulate : Tunn → List Byte → TunnResult × Tunn
  preflightData : Tunn → List Byte → Option Prepared
  openPreparedData : Tunn → List Byte → Prepared → Buffer → Except Buffer Opened
  intoPlaintext : Opened → Buffer
  validateOpenedData : Tunn → Opened → Bool
  commitOpenedData : Tunn → Opened → Except Buffer (Buffer × Option ℕ) × Tunn
  pending : Tunn → ℕ
  pending_decapsulate : ∀ t, (decapsulate t []).1.writes = true →
    pending (decapsulate t []).2 < pending t

/-- A tunnel: the engine and the number of its pipeline. -/
structure WgTunn (E : Engine) where
  tunn : E.Tunn
  pipelineInstanceId : ℕ

/-- What a datagram gives: at most one packet, and answers for the network. -/
structure DecapResult where
  plaintext : Option (List Byte)
  replies : List (List Byte)
  deriving DecidableEq

/-- An opened packet. The engine's token is taken out when it is used. -/
structure WgOpenedPacket (E : Engine) where
  opened : Option E.Opened
  slot : ℕ
  batchId : ℕ
  batchEpoch : ℕ
  tunnelInstanceId : ℕ

/-- Whether an opened packet was taken. -/
inductive WgCommitResult where
  | accepted
  | dropped
  | stale
  deriving DecidableEq

variable {E : Engine}

/-- The loop of `decapsulate` from the second call on. -/
def drain (t : E.Tunn) (result : DecapResult) : DecapResult × E.Tunn :=
  match _ : (E.decapsulate t []).1 with
  | .writeToNetwork buf =>
    drain (E.decapsulate t []).2 { result with replies := result.replies ++ [buf] }
  | .writeToTunnel buf => drain (E.decapsulate t []).2 { result with plaintext := some buf }
  | .done => (result, (E.decapsulate t []).2)
  | .err => (result, (E.decapsulate t []).2)
termination_by E.pending t
decreasing_by all_goals exact E.pending_decapsulate t (by rw [‹(E.decapsulate t []).1 = _›]; rfl)

/-- The loop of `decapsulate_into` from the second call on. -/
def drainInto (t : E.Tunn) (plaintext : WgPlaintextBatch) (replies : List (List Byte)) :
    Except WgError (List (List Byte)) × E.Tunn × WgPlaintextBatch :=
  match _ : (E.decapsulate t []).1 with
  | .writeToNetwork buf => drainInto (E.decapsulate t []).2 plaintext (replies ++ [buf])
  | .writeToTunnel buf =>
    match plaintext.pushCopy buf with
    | .error e => (.error e, (E.decapsulate t []).2, plaintext)
    | .ok plaintext => drainInto (E.decapsulate t []).2 plaintext replies
  | .done => (.ok replies, (E.decapsulate t []).2, plaintext)
  | .err => (.ok replies, (E.decapsulate t []).2, plaintext)
termination_by E.pending t
decreasing_by all_goals exact E.pending_decapsulate t (by rw [‹(E.decapsulate t []).1 = _›]; rfl)

namespace WgTunn

/-- Errors of the engine end the loop; the result is returned all the same. -/
def decapsulate (t : WgTunn E) (datagram : List Byte) : DecapResult × WgTunn E :=
  let (answer, tunn) := E.decapsulate t.tunn datagram
  let (result, tunn) : DecapResult × E.Tunn :=
    match answer with
    | .writeToNetwork buf => drain tunn ⟨none, [buf]⟩
    | .writeToTunnel buf => drain tunn ⟨some buf, []⟩
    | .done => (⟨none, []⟩, tunn)
    | .err => (⟨none, []⟩, tunn)
  (result, { t with tunn })

def decapsulateInto (t : WgTunn E) (datagram : List Byte) (plaintext : WgPlaintextBatch) :
    Except WgError (List (List Byte)) × WgTunn E × WgPlaintextBatch :=
  let (answer, tunn) := E.decapsulate t.tunn datagram
  let (result, tunn, plaintext) :
      Except WgError (List (List Byte)) × E.Tunn × WgPlaintextBatch :=
    match answer with
    | .writeToNetwork buf => drainInto tunn plaintext [buf]
    | .writeToTunnel buf =>
      match plaintext.pushCopy buf with
      | .error e => (.error e, tunn, plaintext)
      | .ok plaintext => drainInto tunn plaintext []
    | .done => (.ok [], tunn, plaintext)
    | .err => (.ok [], tunn, plaintext)
  (result, { t with tunn }, plaintext)

@[irreducible] def preflightData (t : WgTunn E) (datagram : List Byte) : Option E.Prepared :=
  if maxPipelinedEncryptedBody < datagram.length - 16 then none
  else E.preflightData t.tunn datagram

def openPreparedInto (t : WgTunn E) (datagram : List Byte) (prepared : E.Prepared)
    (plaintext : WgPlaintextBatch) : Option (WgOpenedPacket E) × WgPlaintextBatch :=
  match plaintext.takeOpenSlot (datagram.length - 16) with
  | .error _ => (none, plaintext)
  | .ok (slot, packet, plaintext) =>
    match E.openPreparedData t.tunn datagram prepared packet with
    | .error packet => (none, (plaintext.returnOpenSlot slot packet none).2)
    | .ok opened =>
      (some ⟨some opened, slot, plaintext.id, plaintext.epoch, t.pipelineInstanceId⟩, plaintext)

end WgTunn

namespace WgOpenedPacket

/-- The token is of this batch, and its slot is lent out. -/
def fits (opened : WgOpenedPacket E) (plaintext : WgPlaintextBatch) : Bool :=
  opened.batchId == plaintext.id && opened.batchEpoch == plaintext.epoch &&
    opened.slot < plaintext.packets.length && opened.slot < plaintext.reserved

def abort (opened : WgOpenedPacket E) (plaintext : WgPlaintextBatch) : WgPlaintextBatch :=
  match opened.opened with
  | none => plaintext
  | some vendor =>
    if opened.fits plaintext then
      (plaintext.returnOpenSlot opened.slot (E.intoPlaintext vendor) none).2
    else plaintext

end WgOpenedPacket

namespace WgTunn

/-- The result, and what the tunnel, the token and the batch are afterwards. -/
def commitOpened (t : WgTunn E) (opened : WgOpenedPacket E) (plaintext : WgPlaintextBatch) :
    WgCommitResult × WgTunn E × WgOpenedPacket E × WgPlaintextBatch :=
  match opened.opened with
  | none => (.stale, t, opened, plaintext)
  | some vendor =>
    let spent := { opened with opened := none }
    if opened.tunnelInstanceId ≠ t.pipelineInstanceId ∨ opened.fits plaintext = false then
      (.stale, t, spent, opened.abort plaintext)
    else
      let (answer, tunn) := E.commitOpenedData t.tunn vendor
      match answer with
      | .ok (packet, some len) =>
        let (installed, plaintext) := plaintext.returnOpenSlot opened.slot packet (some len)
        (if installed then .accepted else .dropped, { t with tunn }, spent, plaintext)
      | .ok (packet, none) =>
        (.dropped, { t with tunn }, spent, (plaintext.returnOpenSlot opened.slot packet none).2)
      | .error packet =>
        (.stale, { t with tunn }, spent, (plaintext.returnOpenSlot opened.slot packet none).2)

def preflightOpened (t : WgTunn E) (opened : WgOpenedPacket E) (plaintext : WgPlaintextBatch) :
    Bool :=
  match opened.opened with
  | none => false
  | some vendor =>
    opened.tunnelInstanceId == t.pipelineInstanceId && opened.fits plaintext &&
      E.validateOpenedData t.tunn vendor

end WgTunn

/-- An engine without encryption: a number, taken once, and a packet. -/
def plain : Engine where
  Tunn := List Byte
  Prepared := Byte
  Opened := Byte × List Byte
  decapsulate
    | t, [] => (.done, t)
    | t, n :: body =>
      if n ∈ t then (.err, t)
      else (if body = [] then .done else .writeToTunnel body, n :: t)
  preflightData
    | _, [] => none
    | t, n :: _ => if n ∈ t then none else some n
  openPreparedData
    | _, [], _, buf => .error buf
    | _, m :: body, n, buf => if m = n then .ok (n, body) else .error buf
  intoPlaintext o := some o.2
  validateOpenedData t o := decide (o.1 ∉ t)
  commitOpenedData t o :=
    if o.1 ∈ t then (.ok (some o.2, none), t)
    else (.ok (some o.2, if o.2 = [] then none else some o.2.length), o.1 :: t)
  pending _ := 0
  pending_decapsulate t h := by cases h

end Rustscale.Wg
