import Rustscale.Lib.Checks
import Rustscale.Lib.Octets

/-! Keys, states and authority update messages (AUMs), with their structural validation. -/
namespace Rustscale.Tka
open Octets Checks

abbrev Bytes := List Byte

/-- The hash of a message: 32 bytes. -/
structure AumHash where
  bytes : Bytes
  length_eq : bytes.length = 32
  deriving DecidableEq

namespace AumHash

def fromSlice (bytes : Bytes) : Option AumHash :=
  if h : bytes.length = 32 then some ⟨bytes, h⟩ else none

/-- Hashes are ordered as byte arrays. -/
instance : Ord AumHash := ⟨fun a b => compare a.bytes b.bytes⟩

def base32Groups (value : ℕ) : ℕ → List Char
  | 0 => []
  | n + 1 =>
    base32Groups (value / 32) n ++ ["ABCDEFGHIJKLMNOPQRSTUVWXYZ234567".toList.getD (value % 32) 'A']

/-- RFC 4648 base32 without padding: 256 bits and four zero bits make 52 characters. -/
def display (h : AumHash) : String :=
  String.ofList (base32Groups (h.bytes.foldl (fun n b => n * 256 + b.toNat) 0 * 16) 52)

@[simp] theorem fromSlice_bytes (h : AumHash) : fromSlice h.bytes = some h := by
  simp [fromSlice, h.length_eq]

theorem ext_bytes {a b : AumHash} (h : a.bytes = b.bytes) : a = b := by
  cases a
  cases b
  simpa using h

end AumHash

/-- Metadata as a map, its entries sorted by key. -/
structure Metadata where
  entries : List (String × String)
  sorted : entries.Pairwise fun a b => a.1 < b.1
  deriving DecidableEq

inductive KeyKind where
  | invalid
  | key25519
  deriving DecidableEq, Repr

/-- A signing key with its votes. -/
structure Key where
  kind : KeyKind
  votes : ℕ
  publicKey : Bytes
  metadata : Option Metadata
  deriving DecidableEq

namespace Key

def id (k : Key) : Except String Bytes :=
  match k.kind with
  | .key25519 => .ok k.publicKey
  | .invalid => .error "invalid key kind"

def hasId (k : Key) (keyId : Bytes) : Bool :=
  match k.id with
  | .ok id => id == keyId
  | .error _ => false

def metaBytes (k : Key) : ℕ :=
  match k.metadata with
  | none => 0
  | some m => (m.entries.map fun e => e.1.utf8ByteSize + e.2.utf8ByteSize).sum

def validate (k : Key) : Except String Unit := do
  ensure (k.kind == .key25519) "unrecognized key kind"
  ensure (k.publicKey.length == 32) s!"ed25519 public key has length {k.publicKey.length}, want 32"
  ensure (!(k.votes == 0 || decide (4096 < k.votes))) s!"key votes {k.votes} outside 1..=4096"
  ensure (!decide (512 < k.metaBytes)) s!"key metadata too large ({k.metaBytes} > 512)"

end Key

/-- What an authority trusts after a chain of messages. -/
structure State where
  lastAumHash : Option Bytes
  disablementValues : List Bytes
  keys : List Key
  stateId1 : ℕ
  stateId2 : ℕ
  deriving DecidableEq

namespace State

def key (s : State) (keyId : Bytes) : Option Key := s.keys.find? fun k => k.hasId keyId

def checkDisablementValues (before : List Bytes) : List Bytes → Except String Unit
  | [] => .ok ()
  | value :: rest => do
    ensure (value.length == 32)
      s!"disablement value {before.length} has length {value.length}, want 32"
    ensure (!before.contains value) s!"disablement value {before.length} is duplicated"
    checkDisablementValues (before ++ [value]) rest

def checkKeys (before : List Key) : List Key → Except String Unit
  | [] => .ok ()
  | key :: rest => do
    key.validate.mapError fun error => s!"key {before.length}: {error}"
    let id ← key.id
    ensure (!before.any fun other => other.hasId id) s!"key {before.length} is duplicated"
    checkKeys (before ++ [key]) rest

def validateCheckpoint (s : State) : Except String Unit := do
  ensure s.lastAumHash.isNone "checkpoint state cannot specify a last AUM hash"
  ensure (!(s.disablementValues.isEmpty || decide (32 < s.disablementValues.length)))
    "checkpoint must contain 1..=32 disablement values"
  checkDisablementValues [] s.disablementValues
  ensure (!(s.keys.isEmpty || decide (512 < s.keys.length))) "checkpoint must contain 1..=512 keys"
  checkKeys [] s.keys

end State

inductive AumKind where
  | invalid
  | addKey
  | removeKey
  | noOp
  | updateKey
  | checkpoint
  deriving DecidableEq, Repr

structure Signature where
  keyId : Bytes
  signature : Bytes
  deriving DecidableEq

/-- An authority update message. -/
structure Aum where
  messageKind : AumKind
  prevAumHash : Option Bytes
  key : Option Key
  keyId : Option Bytes
  state : Option State
  votes : Option ℕ
  metadata : Option Metadata
  signatures : List Signature
  deriving DecidableEq

namespace Aum

def parent (a : Aum) : Option AumHash := a.prevAumHash.bind AumHash.fromSlice

def checkSignatures (index : ℕ) : List Signature → Except String Unit
  | [] => .ok ()
  | sig :: rest => do
    ensure (!(sig.keyId.length != 32 || sig.signature.length != 64))
      s!"signature {index} has malformed key ID or signature"
    checkSignatures (index + 1) rest

def checkKind (a : Aum) : Except String Unit :=
  match a.messageKind with
  | .addKey => do
    ensure a.key.isSome "AddKey AUM must contain a key"
    ensure (!(a.keyId.isSome || a.state.isSome || a.votes.isSome || a.metadata.isSome))
      "AddKey AUM may only specify a key"
  | .removeKey => do
    ensure (!(a.keyId.all List.isEmpty)) "RemoveKey AUM must specify a key ID"
    ensure (!(a.key.isSome || a.state.isSome || a.votes.isSome || a.metadata.isSome))
      "RemoveKey AUM may only specify a key ID"
  | .updateKey => do
    ensure (!(a.keyId.all List.isEmpty)) "UpdateKey AUM must specify a key ID"
    ensure (!(a.metadata.any fun m => m.entries.isEmpty))
      "UpdateKey AUM cannot contain empty metadata"
    ensure (!(a.votes.isNone && a.metadata.isNone)) "UpdateKey AUM must update votes or metadata"
    ensure (!(a.key.isSome || a.state.isSome))
      "UpdateKey AUM may only specify key ID, votes, and metadata"
  | .checkpoint => do
    ensure a.state.isSome "Checkpoint AUM must specify state"
    ensure (!(a.key.isSome || a.keyId.isSome || a.votes.isSome || a.metadata.isSome))
      "Checkpoint AUM may only specify state"
  | .noOp => .ok ()
  | .invalid => .error "invalid AUM kind"

def checkPrevHash (a : Aum) : Except String Unit :=
  match a.prevAumHash with
  | none => .ok ()
  | some parent =>
    ensure (parent.length == 32) s!"parent hash has length {parent.length}, want 32"

def validate (a : Aum) : Except String Unit := do
  a.checkPrevHash
  checkSignatures 0 a.signatures
  a.key.elim (.ok ()) Key.validate
  a.state.elim (.ok ()) State.validateCheckpoint
  a.checkKind

end Aum

/-- What the authority takes from its cryptographic libraries. -/
class Crypto where
  /-- BLAKE2s-256 of the canonical encoding of a message. -/
  digest : Aum → AumHash
  /-- Whether 32 bytes are the encoding of an ed25519 public key. -/
  isVerifyingKey : Bytes → Bool
  /-- Strict ed25519 verification of a signature on a digest under a public key. -/
  verifyStrict : (publicKey digest signature : Bytes) → Bool
  /-- ed25519 verification as the node key signatures use it. -/
  verify : (publicKey digest signature : Bytes) → Bool

namespace Aum
variable [Crypto]

def hash (a : Aum) : AumHash := Crypto.digest a

/-- The digest of the message without its signatures. -/
def sigHash (a : Aum) : Bytes := (Crypto.digest { a with signatures := [] }).bytes

end Aum

namespace State
variable [Crypto]

variable (s : State)

def withLastAum (aum : Aum) : State := { s with lastAumHash := some aum.hash.bytes }

/-- The keys with the first one of an id rewritten, or `none` if there is none. -/
def updateFirst (keyId : Bytes) (f : Key → Key) : List Key → Option (List Key × Key)
  | [] => none
  | k :: ks =>
    if k.hasId keyId then some (f k :: ks, f k)
    else (updateFirst keyId f ks).map fun r => (k :: r.1, r.2)

variable (update : Aum)

/-- The effect of a message on the state, apart from its hash. -/
def applyKind : Except String State :=
  match update.messageKind with
  | .noOp => .ok s
  | .checkpoint => do
    let checkpoint ← okOr update.state "missing checkpoint state"
    ensure (!(checkpoint.stateId1 != s.stateId1 || checkpoint.stateId2 != s.stateId2))
      "checkpoint state has incorrect state IDs"
    pure checkpoint
  | .addKey => do
    let key ← okOr update.key "missing key"
    let id ← key.id
    ensure (s.key id).isNone "key already exists"
    pure { s with keys := s.keys ++ [key] }
  | .removeKey => do
    let keyId ← okOr update.keyId "missing key ID"
    let index ← okOr (s.keys.findIdx? fun k => k.hasId keyId) "key not found"
    pure { s with keys := s.keys.eraseIdx index }
  | .updateKey => do
    let keyId ← okOr update.keyId "missing key ID"
    let updated ← okOr (updateFirst keyId (fun k =>
      { k with votes := update.votes.getD k.votes,
               metadata := update.metadata.orElse fun _ => k.metadata }) s.keys) "key not found"
    updated.2.validate.mapError fun error => s!"updated key is invalid: {error}"
    pure { s with keys := updated.1 }
  | .invalid => .error "invalid AUM kind"

def checkFollows : Except String Unit :=
  match s.lastAumHash with
  | none => .ok ()
  | some last => ensure (update.prevAumHash == some last) "parent AUM hash mismatch"

def applyVerified : Except String State := do
  s.checkFollows update
  let out ← s.applyKind update
  pure (out.withLastAum update)

end State

end Rustscale.Tka
