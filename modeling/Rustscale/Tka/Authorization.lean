import Rustscale.Tka.Codec

/-! Node keys are authorized by signatures as they come over the wire. -/
namespace Rustscale.Tka
open Checks Cbor

/-- Verify a marshaled node key signature against the current trusted keys. -/
def Authority.nodeKeyAuthorized [Ciborium] [Crypto] [SigDigest] (A : Authority)
    (nodeKey marshaledSignature : Bytes) : Except AuthorityError (Option RotationDetails) := do
  let signature ← (NodeKeySignature.decode marshaledSignature).mapError fun error =>
    .nodeAuthorization error.display
  ensure (signature.sigKind != .credential)
    (.nodeAuthorization "credential signatures cannot authorize nodes directly")
  let keyId ← okOr signature.authorizingKeyId
    (.nodeAuthorization "signature has no authorizing key ID")
  let key ← okOr (A.state.key keyId) (.nodeAuthorization "authorizing key is not trusted")
  (signature.verifySignature nodeKey key.publicKey).mapError fun error =>
    .nodeAuthorization error.display

section Authorized
variable [Ciborium] [Crypto] [SigDigest] {A : Authority} {nodeKey marshaled : Bytes}
  {r : Option RotationDetails}

/-- A node key is authorized only by a signature for it that is not a credential, with at most 15
rotations, each verified by the wrapping key inside it, around a signature verified by a trusted
key. -/
theorem nodeKeyAuthorized_sound (h : A.nodeKeyAuthorized nodeKey marshaled = .ok r) :
    ∃ sig key keyId, NodeKeySignature.decode marshaled = .ok sig ∧ sig.pubkey = some nodeKey ∧
      sig.sigKind ≠ .credential ∧ key ∈ A.state.keys ∧ key.id = .ok keyId ∧
      sig.Endorsed keyId key.publicKey ∧ sig.rotations ≤ 15 := by
  simp only [Authority.nodeKeyAuthorized, bind_eq_ok, mapError_eq_ok, exists_unit, ensure_eq_ok,
    okOr_eq_ok, bne_iff_ne] at h
  obtain ⟨sig, hsig, hk, keyId, hid, key, hkey, hv⟩ := h
  obtain ⟨hend, hle⟩ := NodeKeySignature.verifyInner_sound hid hv
  have hpub := NodeKeySignature.checkPubkey_eq_ok (NodeKeySignature.verifyInner_eq_ok hv).2.1 hk
  have hkid : key.id = .ok keyId := by
    have hhas := List.find?_some hkey
    unfold Key.hasId at hhas
    cases hki : key.id with
    | error e =>
      rw [hki] at hhas
      cases hhas
    | ok i =>
      simp only [hki, beq_iff_eq] at hhas
      rw [hhas]
  have h15 : maxRotationDepth = 15 := rfl
  exact ⟨sig, key, keyId, hsig, hpub, hk, List.mem_of_find?_eq_some hkey, hkid, hend, by omega⟩

end Authorized

section Toy
open Toy

namespace Toy

def toySimple (additional _argument : ℕ) : Option Simple :=
  if additional = 22 then some .null else some .other

scoped instance toyCiborium : Ciborium where
  intoWriter := write
  fromReader := fun data =>
    match read toySimple (maxNesting + 1) data with
    | some r => .ok r.1
    | none => .error "malformed"
  canonicalCmp := fun a b => compare a.toNat b.toNat

scoped instance toySigDigest : SigDigest := ⟨fun sig => toyBytes sig.layers.length⟩

end Toy

def toyRotation : NodeKeySignature :=
  { sigKind := .rotation, pubkey := some (toyBytes 5), keyId := none,
    signature := some (toyBytes 9 ++ toyBytes 2), wrappingPubkey := none,
    nested := some
      { sigKind := .direct, pubkey := some (toyBytes 4), keyId := some (toyBytes 7),
        signature := some (toyBytes 7 ++ toyBytes 1), wrappingPubkey := some (toyBytes 9),
        nested := none } }

set_option maxRecDepth 8000 in
/-- A rotation around a signature of the trusted key. -/
theorem nodeKeyAuthorized_sound_toy : ∃ sig key keyId, sig = toyRotation ∧
    sig.pubkey = some (toyBytes 5) ∧ key ∈ toyAuthority.state.keys ∧ key.id = .ok keyId ∧
    sig.Endorsed keyId key.publicKey ∧ sig.rotations ≤ 15 := by
  have hdecode : NodeKeySignature.decode toyRotation.encode = .ok toyRotation := rfl
  have hrun : toyAuthority.nodeKeyAuthorized (toyBytes 5) toyRotation.encode =
      .ok (some toyRotation.rotationDetails) := by
    rw [Authority.nodeKeyAuthorized, hdecode]
    rfl
  obtain ⟨sig, key, keyId, hsig, hpub, -, hmem, hid, hend, hle⟩ := nodeKeyAuthorized_sound hrun
  rw [hdecode] at hsig
  exact ⟨sig, key, keyId, (Except.ok.inj hsig).symm, hpub, hmem, hid, hend, hle⟩

end Toy

end Rustscale.Tka
