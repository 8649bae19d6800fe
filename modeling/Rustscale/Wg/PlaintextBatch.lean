import Rustscale.Lib.Octets

/-! The plaintext slots of a receive burst: packets are copied into them, or they are lent out and
come back with or without one. -/
namespace Rustscale.Wg
open Octets

/-- A byte vector. A vector that has never held a byte has no allocation. -/
abbrev Buffer : Type := Option (List Byte)

namespace Buffer

variable (b : Buffer)

def bytes : List Byte := b.getD []

/-- `capacity() != 0`. -/
def allocated : Bool := b.isSome

def grown (n : ℕ) (content : List Byte) : Buffer :=
  if b.allocated = false ∧ n = 0 then none else some content

def resize (n : ℕ) : Buffer :=
  b.grown n (b.bytes.take n ++ List.replicate (n - b.bytes.length) 0)

/-- `clear` and `extend_from_slice`. -/
def copyFrom (packet : List Byte) : Buffer := b.grown packet.length packet

def truncate (n : ℕ) : Buffer := b.map (·.take n)

end Buffer

inductive WgError where
  | tunnel
  | plaintextBatchFull
  | plaintextTooLarge
  deriving DecidableEq

def maxWgMsg : ℕ := 65536

def maxPipelinedEncryptedBody : ℕ := 2048

def maxPackets : ℕ := 128

/-- Buffers for decrypted packets; some are lent out before they are filled. -/
structure WgPlaintextBatch where
  packets : List Buffer
  len : ℕ
  reserved : ℕ
  id : ℕ
  epoch : ℕ

def swap {α : Type} (xs : List α) (i j : ℕ) (d : α) : List α :=
  (xs.set i (xs.getD j d)).set j (xs.getD i d)

namespace WgPlaintextBatch

def new (id : ℕ) : WgPlaintextBatch := ⟨[], 0, 0, id, 0⟩

variable (b : WgPlaintextBatch)

def initialized : List (List Byte) := (b.packets.take b.len).map Buffer.bytes

def clear : WgPlaintextBatch :=
  { b with len := 0, reserved := 0, epoch := (b.epoch + 1) % 2 ^ 64 }

/-- The slots, with one more if all of them are in use. -/
def extended (packets : List Buffer) (used : ℕ) : List Buffer :=
  if used = packets.length then packets ++ [none] else packets

def pushCopy (packet : List Byte) : Except WgError WgPlaintextBatch :=
  if maxWgMsg < packet.length then .error .plaintextTooLarge
  else if b.len = maxPackets then .error .plaintextBatchFull
  else
    let packets := extended b.packets b.len
    .ok { b with
      packets := packets.set b.len (Buffer.copyFrom (packets.getD b.len none) packet)
      len := b.len + 1 }

def takeOpenSlot (encryptedLen : ℕ) : Except WgError (ℕ × Buffer × WgPlaintextBatch) :=
  if maxPipelinedEncryptedBody < encryptedLen then .error .plaintextTooLarge
  else if b.reserved = maxPackets then .error .plaintextBatchFull
  else
    let packets := extended b.packets b.reserved
    let slot := b.reserved
    .ok (slot, Buffer.resize (packets.getD slot none) encryptedLen,
      { b with packets := packets.set slot none, reserved := b.reserved + 1 })

/-- Give up the reservation of the last slots that have come back. -/
def collapse (packets : List Buffer) (len : ℕ) : ℕ → ℕ
  | 0 => 0
  | reserved + 1 =>
    if len < reserved + 1 ∧ Buffer.allocated (packets.getD reserved none) = true then
      collapse packets len reserved
    else reserved + 1

/-- A slot comes back, with a packet of the given length or without one. -/
def returnOpenSlot (slot : ℕ) (packet : Buffer) (len : Option ℕ) : Bool × WgPlaintextBatch :=
  if slot < b.len ∨ b.reserved ≤ slot ∨ b.packets.length ≤ slot then (false, b)
  else
    match len with
    | some len =>
      let packets := b.packets.set slot (packet.truncate len)
      (true, { b with
        packets := if slot ≠ b.len then swap packets slot b.len none else packets
        len := b.len + 1 })
    | none =>
      let packets := b.packets.set slot packet
      (true, { b with packets, reserved := collapse packets b.len b.reserved })

end WgPlaintextBatch

end Rustscale.Wg
