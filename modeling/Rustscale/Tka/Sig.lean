import Rustscale.Tka.Reach

/-! Node key signatures: one under a trusted key, wrapped in any number of rotations. -/
namespace Rustscale.Tka
open Checks Crypto

/-- Direct signatures, rotations of them, and credentials that sign for others. -/
inductive SigKind where
  | invalid
  | direct
  | rotation
  | credential
  deriving DecidableEq, Repr

/-- The signature of a node key; a rotation wraps another one. -/
structure NodeKeySignature where
  sigKind : SigKind
  pubkey : Option Bytes
  keyId : Option Bytes
  signature : Option Bytes
  nested : Option NodeKeySignature
  wrappingPubkey : Option Bytes

/-- Why a signature does not authorize a key. -/
inductive VerifyError where
  | signatureFailed
  | pubkeyMismatch
  | missingPubkey
  | missingSignature
  | missingNested
  | unexpectedNested
  | missingWrappingPubkey
  | rotationTooDeep
  | invalidSigKind
  | invalidKeyLength
  | invalidSignatureLength
  deriving DecidableEq

def VerifyError.display : VerifyError → String
  | signatureFailed => "signature verification failed"
  | pubkeyMismatch => "pubkey does not match node key"
  | missingPubkey => "missing pubkey"
  | missingSignature => "missing signature bytes"
  | missingNested => "missing nested signature for rotation"
  | unexpectedNested => "unexpected nested signature"
  | missingWrappingPubkey => "missing wrapping pubkey"
  | rotationTooDeep => "rotation chain exceeds maximum depth"
  | invalidSigKind => "invalid signature kind"
  | invalidKeyLength => "invalid key length"
  | invalidSignatureLength => "invalid signature length"

/-- The node keys rotated away, newest first, and the signature that established the chain. -/
structure RotationDetails where
  prevNodeKeys : List Bytes
  initialSig : Option NodeKeySignature

/-- BLAKE2s-256 of the canonical encoding of a node key signature. -/
class SigDigest where
  digest : NodeKeySignature → Bytes

def maxRotationDepth : ℕ := 15

namespace NodeKeySignature

def sigHash [SigDigest] (sig : NodeKeySignature) : Bytes :=
  SigDigest.digest { sig with signature := none }

def authorizingKeyId : NodeKeySignature → Option Bytes
  | ⟨_, _, keyId, _, none, _⟩ => keyId
  | ⟨_, _, _, _, some nested, _⟩ => nested.authorizingKeyId

/-- The wrapping key of this signature, else that of the nested one. -/
def wrappingPubkeyRecursive : NodeKeySignature → Except VerifyError Bytes
  | ⟨_, _, _, _, nested, wrappingPubkey⟩ =>
    match wrappingPubkey.filter fun wp => !wp.isEmpty with
    | some wp => .ok wp
    | none =>
      match nested with
      | some nested => nested.wrappingPubkeyRecursive
      | none => .error .missingWrappingPubkey

def detailsFrom : NodeKeySignature → RotationDetails
  | ⟨sigKind, pubkey, keyId, signature, nested, wrappingPubkey⟩ =>
    let keys := (pubkey.filter fun pk => !pk.isEmpty).toList
    if sigKind ≠ .rotation then
      ⟨keys, some ⟨sigKind, pubkey, keyId, signature, nested, wrappingPubkey⟩⟩
    else
      match nested with
      | none => ⟨keys, none⟩
      | some nested =>
        let rest := nested.detailsFrom
        ⟨keys ++ rest.prevNodeKeys, rest.initialSig⟩

def rotationDetails (sig : NodeKeySignature) : RotationDetails :=
  match sig.nested with
  | none => ⟨[], none⟩
  | some nested => nested.detailsFrom

section Verify
variable [Crypto] [SigDigest]

def parseVerifyingKey (bytes : Bytes) : Except VerifyError Unit :=
  ensure (bytes.length == 32 && isVerifyingKey bytes) .invalidKeyLength

def parseSignature (bytes : Bytes) : Except VerifyError Unit :=
  ensure (bytes.length == 64) .invalidSignatureLength

variable (sig : NodeKeySignature)

def checkPubkey (nodeKey : Bytes) : Except VerifyError Unit :=
  if sig.sigKind = .credential then .ok ()
  else
    match sig.pubkey with
    | some pk => ensure (pk == nodeKey) .pubkeyMismatch
    | none => .error .missingPubkey

/-- A direct or credential signature is strictly verified under the trusted key. -/
def verifyInitial (verificationKey : Bytes) : Except VerifyError Unit := do
  ensure sig.nested.isNone .unexpectedNested
  let sigBytes ← okOr sig.signature .missingSignature
  parseVerifyingKey verificationKey
  parseSignature sigBytes
  ensure (verifyStrict verificationKey sig.sigHash sigBytes) .signatureFailed

/-- A rotation is verified under the wrapping key of the signature nested in it. -/
def verifyRotation (nested : NodeKeySignature) : Except VerifyError Unit := do
  let wrapping ← nested.wrappingPubkeyRecursive
  parseVerifyingKey wrapping
  let sigBytes ← okOr sig.signature .missingSignature
  parseSignature sigBytes
  ensure (verify wrapping sig.sigHash sigBytes) .signatureFailed

def nestedPubkey (nested : NodeKeySignature) : Except VerifyError Bytes :=
  if nested.sigKind = .credential then .ok [] else okOr nested.pubkey .missingPubkey

def verifyInner : NodeKeySignature → (nodeKey verificationKey : Bytes) → (depth : ℕ) →
    Except VerifyError (Option RotationDetails)
  | ⟨sigKind, pubkey, keyId, signature, nested, wrappingPubkey⟩, nodeKey, verificationKey, depth =>
    let sig : NodeKeySignature := ⟨sigKind, pubkey, keyId, signature, nested, wrappingPubkey⟩
    if maxRotationDepth < depth then .error .rotationTooDeep
    else do
      sig.checkPubkey nodeKey
      match sigKind with
      | .direct => do
        sig.verifyInitial verificationKey
        pure none
      | .credential => do
        sig.verifyInitial verificationKey
        pure none
      | .rotation =>
        match nested with
        | none => .error .missingNested
        | some nested => do
          sig.verifyRotation nested
          let nodeKey ← nestedPubkey nested
          let _ ← nested.verifyInner nodeKey verificationKey (depth + 1)
          pure (some sig.rotationDetails)
      | .invalid => .error .invalidSigKind

def verifySignature (nodeKey verificationKey : Bytes) :
    Except VerifyError (Option RotationDetails) :=
  sig.verifyInner nodeKey verificationKey 0

end Verify

end NodeKeySignature

namespace NodeKeySignature

theorem induction {motive : NodeKeySignature → Prop}
    (step : ∀ sig, (∀ n, sig.nested = some n → motive n) → motive sig) : ∀ sig, motive sig
  | ⟨_, _, _, _, none, _⟩ => step _ nofun
  | ⟨_, _, _, _, some nested, _⟩ => step _ fun n hn => by
    cases hn
    exact induction step nested

/-- The signature and those nested in it, outermost first. -/
def layers : NodeKeySignature → List NodeKeySignature
  | ⟨sigKind, pubkey, keyId, signature, nested, wrappingPubkey⟩ =>
    ⟨sigKind, pubkey, keyId, signature, nested, wrappingPubkey⟩ ::
      match nested with
      | none => []
      | some nested => nested.layers

/-- The wrapping key of the outermost layer with one. -/
def committedKey (sig : NodeKeySignature) : Option Bytes :=
  sig.layers.findSome? fun layer => layer.wrappingPubkey.filter fun wp => !wp.isEmpty

theorem layers_eq (sig : NodeKeySignature) : sig.layers = sig :: sig.nested.elim [] layers := by
  obtain ⟨k, p, i, s, n, w⟩ := sig
  cases n <;> rfl

theorem authorizingKeyId_eq (sig : NodeKeySignature) :
    sig.authorizingKeyId = sig.nested.elim sig.keyId authorizingKeyId := by
  obtain ⟨k, p, i, s, n, w⟩ := sig
  cases n <;> rfl

theorem wrappingPubkeyRecursive_eq_ok {sig : NodeKeySignature} {w : Bytes}
    (h : sig.wrappingPubkeyRecursive = .ok w) : sig.committedKey = some w := by
  induction sig using induction with
  | step sig ih =>
    obtain ⟨k, p, i, s, n, wp⟩ := sig
    unfold committedKey
    rw [layers_eq, List.findSome?_cons]
    unfold wrappingPubkeyRecursive at h
    cases hwp : wp.filter fun wp => !wp.isEmpty with
    | some key =>
      simp only [hwp] at h
      exact congrArg some (Except.ok.inj h)
    | none =>
      simp only [hwp] at h
      cases n with
      | none => cases h
      | some n => exact ih n rfl h

theorem checkPubkey_eq_ok {sig : NodeKeySignature} {nodeKey : Bytes}
    (h : sig.checkPubkey nodeKey = .ok ()) (hk : sig.sigKind ≠ .credential) :
    sig.pubkey = some nodeKey := by
  unfold checkPubkey at h
  rw [if_neg hk] at h
  cases hp : sig.pubkey with
  | none =>
    rw [hp] at h
    cases h
  | some pk =>
    simp only [hp, ensure_eq_ok, beq_iff_eq] at h
    rw [h]

section Sound
variable [Crypto] [SigDigest]

/-- Every rotation is verified by the wrapping key of the layers inside it, the innermost signature
by `verificationKey`. -/
inductive Endorsed (keyId verificationKey : Bytes) : NodeKeySignature → Prop
  | initial {sig : NodeKeySignature} {sigBytes : Bytes}
      (kind : sig.sigKind = .direct ∨ sig.sigKind = .credential) (nested : sig.nested = none)
      (id : sig.keyId = some keyId) (bytes : sig.signature = some sigBytes)
      (verified : verifyStrict verificationKey sig.sigHash sigBytes = true) :
      Endorsed keyId verificationKey sig
  | rotation {sig n : NodeKeySignature} {w sigBytes : Bytes} (kind : sig.sigKind = .rotation)
      (nested : sig.nested = some n) (committed : n.committedKey = some w)
      (bytes : sig.signature = some sigBytes)
      (verified : verify w sig.sigHash sigBytes = true)
      (inner : Endorsed keyId verificationKey n) : Endorsed keyId verificationKey sig

def rotations (sig : NodeKeySignature) : ℕ :=
  sig.layers.countP fun layer => layer.sigKind = .rotation

/-- What an accepted signature satisfies, by kind. -/
theorem verifyInner_eq_ok {sig : NodeKeySignature} {nodeKey key : Bytes} {depth : ℕ}
    {r : Option RotationDetails} (h : sig.verifyInner nodeKey key depth = .ok r) :
    depth ≤ maxRotationDepth ∧ sig.checkPubkey nodeKey = .ok () ∧
      ((sig.sigKind = .direct ∨ sig.sigKind = .credential) ∧ sig.verifyInitial key = .ok () ∨
        sig.sigKind = .rotation ∧ ∃ n nk r', sig.nested = some n ∧
          sig.verifyRotation n = .ok () ∧ n.verifyInner nk key (depth + 1) = .ok r') := by
  obtain ⟨k, p, i, s, n, w⟩ := sig
  unfold verifyInner at h
  split_ifs at h with hdepth
  simp only [bind_eq_ok, exists_unit] at h
  obtain ⟨hpub, h⟩ := h
  refine ⟨not_lt.mp hdepth, hpub, ?_⟩
  cases k with
  | invalid => cases h
  | direct =>
    obtain ⟨_, h, -⟩ := bind_eq_ok.mp h
    exact Or.inl ⟨Or.inl rfl, h⟩
  | credential =>
    obtain ⟨_, h, -⟩ := bind_eq_ok.mp h
    exact Or.inl ⟨Or.inr rfl, h⟩
  | rotation =>
    cases n with
    | none => cases h
    | some n =>
      simp only [bind_eq_ok, exists_unit] at h
      obtain ⟨hrot, nk, -, r', hinner, -⟩ := h
      exact Or.inr ⟨rfl, n, nk, r', rfl, hrot, hinner⟩

/-- An accepted signature is endorsed by the key it names, within the rotation depth. -/
theorem verifyInner_sound {keyId key : Bytes} {sig : NodeKeySignature} :
    ∀ {nodeKey : Bytes} {depth : ℕ} {r : Option RotationDetails},
      sig.authorizingKeyId = some keyId → sig.verifyInner nodeKey key depth = .ok r →
      sig.Endorsed keyId key ∧ depth + sig.rotations ≤ maxRotationDepth := by
  induction sig using induction with
  | step sig ih =>
    intro nodeKey depth r hid h
    rw [authorizingKeyId_eq] at hid
    obtain ⟨hdepth, -, ⟨hk, hv⟩ | ⟨hk, n, nk, r', hn, hv, hinner⟩⟩ := verifyInner_eq_ok h
    · simp only [verifyInitial, bind_eq_ok, exists_unit, ensure_eq_ok, okOr_eq_ok,
        Option.isNone_iff_eq_none] at hv
      obtain ⟨hn, sigBytes, hs, -, -, hver⟩ := hv
      rw [hn] at hid
      refine ⟨.initial hk hn hid hs hver, ?_⟩
      have hne : sig.sigKind ≠ .rotation := by
        rcases hk with hk | hk
        all_goals
          rw [hk]
          decide
      simpa [rotations, layers_eq sig, hn, hne] using hdepth
    · simp only [verifyRotation, bind_eq_ok, exists_unit, ensure_eq_ok, okOr_eq_ok] at hv
      obtain ⟨w, hw, -, sigBytes, hs, -, hver⟩ := hv
      rw [hn] at hid
      obtain ⟨hend, hle⟩ := ih n hn hid hinner
      refine ⟨.rotation hk hn (wrappingPubkeyRecursive_eq_ok hw) hs hver hend, ?_⟩
      have hcount : sig.rotations = n.rotations + 1 := by
        simp [rotations, layers_eq sig, hn, hk]
      omega

end Sound

end NodeKeySignature

end Rustscale.Tka
