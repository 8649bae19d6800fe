import Rustscale.Tka.Cbor
import Rustscale.Tka.Sig

/-! The wire form of node key signatures: maps with integer keys, without empty optional parts. -/
namespace Rustscale.Tka
open Checks Cbor

def presentBytes (o : Option Bytes) : Option Bytes := o.filter fun b => !b.isEmpty

def SigKind.toU8 : SigKind → ℕ
  | invalid => 0
  | direct => 1
  | rotation => 2
  | credential => 3

def SigKind.fromU64 : ℕ → Option SigKind
  | 0 => some invalid
  | 1 => some direct
  | 2 => some rotation
  | 3 => some credential
  | _ => none

/-- The fields of a signature that have been read so far. -/
structure NodeKeySignature.Slots where
  sigKind : Option SigKind := none
  pubkey : Option Bytes := none
  keyId : Option Bytes := none
  signature : Option Bytes := none
  nested : Option NodeKeySignature := none
  wrappingPubkey : Option Bytes := none

namespace NodeKeySignature

def toMap [Ciborium] (sig : NodeKeySignature) (nested : Option Value) : Value :=
  canonicalMap [(1, some (.int sig.sigKind.toU8)), (2, (presentBytes sig.pubkey).map .bytes),
    (3, (presentBytes sig.keyId).map .bytes), (4, (presentBytes sig.signature).map .bytes),
    (5, nested), (6, (presentBytes sig.wrappingPubkey).map .bytes)]

def toValue [Ciborium] : NodeKeySignature → Value
  | ⟨kind, pubkey, keyId, signature, none, wrapping⟩ =>
    toMap ⟨kind, pubkey, keyId, signature, none, wrapping⟩ none
  | ⟨kind, pubkey, keyId, signature, some nested, wrapping⟩ =>
    toMap ⟨kind, pubkey, keyId, signature, none, wrapping⟩ (some nested.toValue)

def Slots.finish (s : Slots) : Except DecodeError NodeKeySignature := do
  let sigKind ← okOr s.sigKind (.missingField 1)
  pure { sigKind, pubkey := s.pubkey, keyId := s.keyId, signature := s.signature,
         nested := s.nested, wrappingPubkey := s.wrappingPubkey }

/-- One pair of the map, given what its value is as a signature. -/
def field (nested : Except DecodeError NodeKeySignature) (s : Slots) (e : Value × Value) :
    Except DecodeError Slots := do
  match ← expectKey e.1 with
  | 1 => do
    let n ← expectUint e.2
    let kind ← okOr (SigKind.fromU64 n) (.invalidSigKind n)
    let slot ← setUnique s.sigKind kind
    pure { s with sigKind := slot }
  | 2 => do
    let pubkey ← expectBytes e.2
    let slot ← setUnique s.pubkey pubkey
    pure { s with pubkey := slot }
  | 3 => do
    let keyId ← expectBytes e.2
    let slot ← setUnique s.keyId keyId
    pure { s with keyId := slot }
  | 4 => do
    let signature ← expectBytes e.2
    let slot ← setUnique s.signature signature
    pure { s with signature := slot }
  | 5 => do
    let nested ← nested
    let slot ← setUnique s.nested nested
    pure { s with nested := slot }
  | 6 => do
    let wrapping ← expectBytes e.2
    let slot ← setUnique s.wrappingPubkey wrapping
    pure { s with wrappingPubkey := slot }
  | _ => pure s

mutual

def fromValue : Value → Except DecodeError NodeKeySignature
  | .map m => do
    let s ← fromEntries {} m
    s.finish
  | _ => .error .notAMap

def fromEntries (s : Slots) : List (Value × Value) → Except DecodeError Slots
  | [] => .ok s
  | (k, v) :: rest => do
    let s ← field (fromValue v) s (k, v)
    fromEntries s rest

end

variable [Ciborium]

def encode (sig : NodeKeySignature) : Bytes := encodeValue sig.toValue

def decode (data : Bytes) : Except DecodeError NodeKeySignature := do
  let val ← decodeValue data
  fromValue val

end NodeKeySignature

end Rustscale.Tka
