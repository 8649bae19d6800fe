import Rustscale.Udprelay.Lives

/-! What must have happened before a slot is bound, a packet is forwarded, or a packet is sent. -/
namespace Rustscale.Udprelay
open Octets Bytes Disco Machine List

variable (crypto : Crypto) (sealedBy : DiscoPublic → List Byte → Prop) (before log : List Event)

def drawnSecrets : List (BitVec 256) :=
  log.filterMap fun
    | .drew secret => some secret
    | _ => none

def challenges : List (BitVec 256 × SocketAddr × BindUdpRelayEndpointCommon) :=
  log.filterMap fun
    | .endpoint _ (.challenged secret src common) => some (secret, src, common)
    | _ => none

def sealedTexts : List (DiscoPublic × List Byte) :=
  log.filterMap fun
    | .endpoint _ (.sealed key plaintext) => some (key, plaintext)
    | _ => none

def lastTwo : List (BitVec 256) := (drawnSecrets log).reverse.take 2

def Event.isReceived : Event → Bool
  | .received _ _ => true
  | _ => false

variable (id : ℕ) (slot : Fin 2)

/-- The event is about the handshake or the binding of a slot. -/
def Event.concerns : Event → Bool
  | .endpoint id' (.started slot' _) => id' == id && slot' == slot
  | .endpoint id' (.bound slot' _ _ _) => id' == id && slot' == slot
  | _ => false

def Event.binds : Event → Bool
  | .endpoint id' (.bound slot' _ _ _) => id' == id && slot' == slot
  | _ => false

/-- The latest handshake of a client on its slot has this generation, with no answer accepted since.
-/
def InProgress (generation : BitVec 32) : Prop :=
  ∃ l l', log = l ++ .endpoint id (.started slot generation) :: l' ∧
    ∀ ev ∈ l', ev.concerns id slot = false

def BoundTo (src : SocketAddr) : Prop :=
  ∃ l l' secret common, log = l ++ .endpoint id (.bound slot src secret common) :: l' ∧
    ∀ ev ∈ l', ev.binds id slot = false

/-- The latest packet, since which the server had `secret` among its last two. -/
def ArrivedUnder (src : SocketAddr) (packet : List Byte) (secret : BitVec 256) : Prop :=
  ∃ l m m', log = l ++ .received src packet :: (m ++ m') ∧
    (∀ ev ∈ m ++ m', ev.isReceived = false) ∧ secret ∈ lastTwo (l ++ .received src packet :: m)

def keyOf (pair : DiscoPublic × DiscoPublic) (slot : Fin 2) : DiscoPublic :=
  if slot = 0 then pair.1 else pair.2

/-- What opens with a client's key was sealed by that client, or by the server for it. -/
def Authentic (key : DiscoPublic) (plaintext : List Byte) :
    Prop := sealedBy key plaintext ∨ (key, plaintext) ∈ sealedTexts log

def answerOf (plaintext : List Byte) : Option BindUdpRelayEndpointCommon :=
  match Message.parse plaintext with
  | .ok (.bindUdpRelayEndpointAnswer common) => some common
  | _ => none

/-- An answer with the hash of a challenge under a server secret has one that the server computed.
-/
def Unforged (src : SocketAddr) (plaintext : List Byte) : Prop :=
  ∀ common ∈ answerOf plaintext, ∀ secret ∈ drawnSecrets log,
    computeMacFromBindMsg crypto secret src common = common.challenge →
      ∃ ch ∈ challenges log, ch.1 = secret ∧ macInput ch.2.1 ch.2.2 = macInput src common

def Event.opening : Event → Option (DiscoPublic × SocketAddr × List Byte)
  | .endpoint _ (.opened _ key src plaintext) => some (key, src, plaintext)
  | _ => none

/-- Sealing is authentic and the hash cannot be forged. -/
def Trusted (new : List Event) : Prop :=
  ∀ ev ∈ new, ∀ o ∈ ev.opening, Authentic sealedBy log o.1 o.2.2 ∧ Unforged crypto log o.2.1 o.2.2

instance (crypto : Crypto) (sealedBy : DiscoPublic → List Byte → Prop)
    [∀ key plaintext, Decidable (sealedBy key plaintext)] (log new : List Event) :
    Decidable (Trusted crypto sealedBy log new) := by
  -- all secrets of the list, not all words of 256 bits
  have (src : SocketAddr) (plaintext : List Byte) : Decidable (Unforged crypto log src plaintext) :=
    have (common : BindUdpRelayEndpointCommon) := List.decidableBAll (fun secret =>
      computeMacFromBindMsg crypto secret src common = common.challenge →
        ∃ ch ∈ challenges log, ch.1 = secret ∧ macInput ch.2.1 ch.2.2 = macInput src common)
      (drawnSecrets log)
    inferInstanceAs (Decidable (∀ common ∈ answerOf plaintext, _))
  unfold Trusted Authentic
  infer_instance

/-- A message of the handshake came under a client's key, and names its endpoint. -/
def SentBy (key : DiscoPublic) (src : SocketAddr) (plaintext : List Byte)
    (common : BindUdpRelayEndpointCommon) : Prop :=
  ∃ pair lamportId, .allocated id pair common.vni.toNat lamportId ∈ before ∧
    key = keyOf pair slot ∧ common.remoteKey = keyOf pair (1 - slot) ∧
    .endpoint id (.opened slot key src plaintext) ∈ before ∧ sealedBy key plaintext

/-- The history of a handshake: the client has asked for it. -/
def StartEvidence (generation : BitVec 32) : Prop :=
  ∃ key src plaintext common, SentBy sealedBy before id slot key src plaintext common ∧
    Message.parse plaintext = .ok (.bindUdpRelayEndpoint common) ∧ common.generation = generation

/-- What must have come before an address is bound. -/
structure BindEvidence (crypto : Crypto) (sealedBy : DiscoPublic → List Byte → Prop)
    (before : List Event) (id : ℕ) (slot : Fin 2) (src : SocketAddr) (secret : BitVec 256)
    (common : BindUdpRelayEndpointCommon) : Prop where
  answer : ∃ key packet gh payload plaintext, ArrivedUnder before src packet secret ∧
    GeneveHeader.decode packet = some (gh, payload) ∧
    crypto.openBox key (payload.drop (6 + 32)) = some plaintext ∧
    SentBy sealedBy before id slot key src plaintext common ∧
    Message.parse plaintext = .ok (.bindUdpRelayEndpointAnswer common)
  echo : common.challenge = computeMacFromBindMsg crypto secret src common
  challenge : ∃ challenge, (secret, src, challenge) ∈ challenges before ∧
    challenge.vni = common.vni ∧ challenge.generation = common.generation ∧
    challenge.remoteKey = common.remoteKey
  generation : InProgress before id slot common.generation
  live : ∀ closer, .closed id closer ∉ before

/-- What must have come before a packet is forwarded. -/
structure ForwardEvidence (before : List Event) (id : ℕ) (src dst : SocketAddr)
    (packet : List Byte) : Prop where
  slots : ∃ slot, BoundTo before id slot src ∧ BoundTo before id (1 - slot) dst
  vni : ∃ pair vni lamportId gh payload, .allocated id pair vni lamportId ∈ before ∧
    GeneveHeader.decode packet = some (gh, payload) ∧ gh.vni = vni
  live : ∀ closer, .closed id closer ∉ before

/-- What must have come before a packet is sent. -/
structure SendEvidence (before : List Event) (id : ℕ) (dst : SocketAddr) (packet : List Byte) :
    Prop where
  decided : (∃ src, .endpoint id (.forwarded src dst packet) ∈ before) ∨
    ∃ secret common, .endpoint id (.challenged secret dst common) ∈ before
  enabled : .closed id .disable ∉ before

def Evidence : Event → Prop
  | .endpoint id (.started slot generation) => StartEvidence sealedBy before id slot generation
  | .endpoint id (.bound slot src secret common) =>
    BindEvidence crypto sealedBy before id slot src secret common
  | .endpoint id (.forwarded src dst packet) => ForwardEvidence before id src dst packet
  | .sent id dst packet => SendEvidence before id dst packet
  | .panicked => False
  | _ => True

section
variable {log new : List Event} {id : ℕ} {slot : Fin 2}

theorem InProgress.append {generation : BitVec 32} (h : InProgress log id slot generation)
    (hnew : ∀ ev ∈ new, ev.concerns id slot = false) :
    InProgress (log ++ new) id slot generation := by
  obtain ⟨l, l', rfl, hl⟩ := h
  refine ⟨l, l' ++ new, by simp, fun ev hev => ?_⟩
  rcases mem_append.mp hev with hev | hev
  · exact hl ev hev
  · exact hnew ev hev

theorem BoundTo.append {src : SocketAddr} (h : BoundTo log id slot src)
    (hnew : ∀ ev ∈ new, ev.binds id slot = false) : BoundTo (log ++ new) id slot src := by
  obtain ⟨l, l', secret, common, rfl, hl⟩ := h
  refine ⟨l, l' ++ new, secret, common, by simp, fun ev hev => ?_⟩
  rcases mem_append.mp hev with hev | hev
  · exact hl ev hev
  · exact hnew ev hev

theorem binds_of_concerns {ev : Event} (h : ev.concerns id slot = false) :
    ev.binds id slot = false := by
  cases ev with
  | endpoint id' ev =>
    cases ev with
    | bound => exact h
    | _ => rfl
  | _ => rfl

theorem drawnSecrets_append (log new : List Event) :
    drawnSecrets (log ++ new) = drawnSecrets log ++ drawnSecrets new := filterMap_append ..

theorem mem_challenges {secret : BitVec 256} {src : SocketAddr}
    {common : BindUdpRelayEndpointCommon} :
    (secret, src, common) ∈ challenges log ↔
      ∃ id, .endpoint id (.challenged secret src common) ∈ log := by
  simp only [challenges, mem_filterMap]
  constructor
  · rintro ⟨ev, hev, heq⟩
    split at heq <;> cases heq
    exact ⟨_, hev⟩
  · rintro ⟨id, hev⟩
    exact ⟨_, hev, rfl⟩

theorem mem_sealedTexts {key : DiscoPublic} {plaintext : List Byte} :
    (key, plaintext) ∈ sealedTexts log ↔ ∃ id, .endpoint id (.sealed key plaintext) ∈ log := by
  simp only [sealedTexts, mem_filterMap]
  constructor
  · rintro ⟨ev, hev, heq⟩
    split at heq <;> cases heq
    exact ⟨_, hev⟩
  · rintro ⟨id, hev⟩
    exact ⟨_, hev, rfl⟩

theorem lastTwo_subset {secret : BitVec 256} (h : secret ∈ lastTwo log) :
    secret ∈ drawnSecrets log := mem_reverse.mp (mem_of_mem_take h)

end

theorem append_word_inj {w : ℕ} (hw : 8 * (w / 8) = w) {x y : BitVec w} {l l' : List Byte}
    (h : word x ++ l = word y ++ l') : x = y ∧ l = l' := by
  obtain ⟨h1, h2⟩ := append_inj h (by simp)
  exact ⟨word_injective hw h1, h2⟩

theorem macInput_inj {ip ip' : BitVec 32} {port port' : BitVec 16}
    {msg msg' : BindUdpRelayEndpointCommon}
    (h : macInput (.v4 ip port) msg = macInput (.v4 ip' port') msg') :
    SocketAddr.v4 ip port = .v4 ip' port' ∧ msg.vni = msg'.vni ∧
      msg.generation = msg'.generation ∧ msg.remoteKey = msg'.remoteKey := by
  simp only [macInput, encodeAddrPort, append_assoc] at h
  obtain ⟨hvni, h⟩ := append_word_inj rfl h
  obtain ⟨hgen, h⟩ := append_word_inj rfl h
  obtain ⟨hkey, h⟩ := append_word_inj rfl h
  obtain ⟨hip, h⟩ := append_word_inj rfl h
  have hport := word_injective rfl h
  refine ⟨?_, hvni, hgen, hkey⟩
  have hlt := ip.isLt
  have hlt' := ip'.isLt
  have hnat := congrArg BitVec.toNat hip
  simp only [as16, BitVec.toNat_ofNat] at hnat
  obtain rfl : ip = ip' := BitVec.eq_of_toNat_eq (by omega)
  rw [hport]

end Rustscale.Udprelay
