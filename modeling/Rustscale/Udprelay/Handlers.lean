import Rustscale.Udprelay.Steps

/-! What an endpoint does with a packet. -/
namespace Rustscale.Udprelay
open Octets Bytes Disco RelayEndpoint Option Message Function

/-- Its number, and the key of the other client. -/
def Names (e : RelayEndpoint) (slot : Fin 2) (common : BindUdpRelayEndpointCommon) : Prop :=
  common.vni.toNat = e.vni ∧ common.remoteKey = e.key (1 - slot)

def challengeFor (e : RelayEndpoint) (slot : Fin 2) (generation : BitVec 32) :
    BindUdpRelayEndpointCommon := ⟨BitVec.ofNat 32 e.vni, generation, e.key (1 - slot), 0⟩

/-- What the handler of control messages can do. -/
inductive Controls (crypto : Crypto) (e : RelayEndpoint) (src : SocketAddr)
    (envelope : List Byte) (macSecrets : List (BitVec 256)) (now : ℕ) : Option Handled → Prop
  | dropped : Controls crypto e src envelope macSecrets now (some ⟨none, e.inner, []⟩)
  | ignored (slot : Fin 2) (plaintext : List Byte) : Controls crypto e src envelope macSecrets now
      (some ⟨none, e.inner, [.opened slot (e.key slot) src plaintext]⟩)
  | panicked (live : e.inner.closed = false) (cause : macSecrets = [] ∨ 0x00FFFFFF < e.vni) :
      Controls crypto e src envelope macSecrets now none
  | challenged (slot : Fin 2) (plaintext : List Byte) (common : BindUdpRelayEndpointCommon)
      (secret : BitVec 256) (reply : Option (List Byte × SocketAddr)) (rest : List EndpointEvent)
      (live : e.inner.closed = false)
      (parsed : parse plaintext = .ok (.bindUdpRelayEndpoint common))
      (names : Names e slot common) (secrets : secret ∈ macSecrets)
      (back : ∀ packet dst, reply = some (packet, dst) → dst = src)
      (sealed : rest = [] ∨ ∃ mac, rest = [.sealed (e.key slot) (bindUdpRelayEndpointChallenge
          { challengeFor e slot common.generation with challenge := mac }).marshal]) :
      Controls crypto e src envelope macSecrets now (some ⟨reply, { e.inner with
          inProgressGeneration :=
            update e.inner.inProgressGeneration slot common.generation },
        [.opened slot (e.key slot) src plaintext, .started slot common.generation,
          .challenged secret src (challengeFor e slot common.generation)] ++ rest⟩)
  | bound (slot : Fin 2) (plaintext : List Byte) (common : BindUdpRelayEndpointCommon)
      (secret : BitVec 256) (live : e.inner.closed = false)
      (opens : crypto.openBox (e.key slot) (envelope.drop (6 + 32)) = some plaintext)
      (parsed : parse plaintext = .ok (.bindUdpRelayEndpointAnswer common))
      (names : Names e slot common) (nonzero : common.generation ≠ 0)
      (generation : e.inner.inProgressGeneration slot = common.generation)
      (secrets : secret ∈ macSecrets)
      (verified : computeMacFromBindMsg crypto secret src common = common.challenge) :
      Controls crypto e src envelope macSecrets now (some ⟨none, { e.inner with
          inProgressGeneration := update e.inner.inProgressGeneration slot 0
          boundAddrPorts := update e.inner.boundAddrPorts slot (some src)
          lastSeen := update e.inner.lastSeen slot now },
        [.opened slot (e.key slot) src plaintext, .bound slot src secret common]⟩)

section
variable {crypto : Crypto} {e : RelayEndpoint} {src : SocketAddr} {envelope : List Byte}
  {macSecrets : List (BitVec 256)} {now : ℕ} {nonce : BitVec 192} {serverDisco : DiscoPublic}

def Handled.after (log : List EndpointEvent) (h : Handled) : Handled := { h with log := log ++ h.log }

variable {slot : Fin 2} {plaintext : List Byte} {common : BindUdpRelayEndpointCommon}

/-- A bind request is answered with a challenge. -/
theorem controls_handleBind (hlive : e.inner.closed = false)
    (hparse : parse plaintext = .ok (.bindUdpRelayEndpoint common)) :
    Controls crypto e src envelope macSecrets now
      ((e.handleBind crypto src slot common serverDisco macSecrets nonce).map
        (Handled.after [.opened slot (e.key slot) src plaintext])) := by
  unfold handleBind
  split_ifs with hc
  · exact .ignored slot plaintext
  · simp only [not_or, not_not] at hc
    obtain ⟨hvni, hkey, -⟩ := hc
    simp only [bind_eq_bind]
    cases macSecrets with
    | nil => exact .panicked hlive (.inl rfl)
    | cons secret secrets =>
      simp only [List.head?_cons, bind_some]
      split
      · exact .challenged slot plaintext common secret none [] hlive hparse ⟨hvni, hkey⟩
          (List.mem_cons_self ..) nofun (.inl rfl)
      · next sealed _ =>
        unfold encodeGeneveControl
        split_ifs with hbig
        · exact .panicked hlive (.inr hbig)
        · exact .challenged slot plaintext common secret _ _ hlive hparse ⟨hvni, hkey⟩
            (List.mem_cons_self ..) (fun _ _ h => (Prod.mk.inj (some.inj h)).2.symm)
            (.inr ⟨_, rfl⟩)

theorem controls_handleAnswer (hlive : e.inner.closed = false)
    (hopen : crypto.openBox (e.key slot) (envelope.drop (6 + 32)) = some plaintext)
    (hparse : parse plaintext = .ok (.bindUdpRelayEndpointAnswer common)) :
    Controls crypto e src envelope macSecrets now
      ((e.handleAnswer crypto src slot common macSecrets now).map
        (Handled.after [.opened slot (e.key slot) src plaintext])) := by
  unfold handleAnswer
  dsimp only
  split_ifs with hc
  · exact .ignored slot plaintext
  · simp only [not_or, not_not] at hc
    obtain ⟨hvni, hkey, hzero, hgen⟩ := hc
    split
    · exact .ignored slot plaintext
    · next secret hfind =>
      exact .bound slot plaintext common secret hlive hopen hparse ⟨hvni, hkey⟩ (hgen ▸ hzero) hgen
        (List.mem_of_find?_eq_some hfind) (by simpa using List.find?_some hfind)

/-- The handler is one of the cases of the control relation. -/
theorem controls_handleSealedDiscoControlMsg (crypto : Crypto) (e : RelayEndpoint)
    (src : SocketAddr) (envelope : List Byte) (serverDisco : DiscoPublic)
    (macSecrets : List (BitVec 256)) (now : ℕ) (nonce : BitVec 192) :
    Controls crypto e src envelope macSecrets now
      (e.handleSealedDiscoControlMsg crypto src envelope serverDisco macSecrets now nonce) := by
  unfold handleSealedDiscoControlMsg
  split
  · exact .dropped
  · next slot _ =>
    split
    · exact .dropped
    · next plaintext hopen =>
      dsimp only
      split
      · exact .ignored slot plaintext
      · next msg hparse =>
        have hmap : ∀ o : Option Handled, (do
            let h ← o
            return { h with log := [.opened slot (e.key slot) src plaintext] ++ h.log }) =
              o.map (Handled.after [.opened slot (e.key slot) src plaintext]) := by
          intro o
          cases o <;> rfl
        rw [hmap]
        unfold handleDiscoControlMsg
        split_ifs with hc
        · exact .ignored slot plaintext
        · have hlive : e.inner.closed = false := by simpa using hc
          split
          · exact controls_handleBind hlive hparse
          · exact controls_handleAnswer hlive hopen hparse
          · exact .ignored slot plaintext

/-- What the handler of data packets can do. -/
inductive Forwards (e : RelayEndpoint) (src : SocketAddr) (packet : List Byte) :
    Option Handled → Prop
  | dropped : Forwards e src packet (some ⟨none, e.inner, []⟩)
  | forwarded (slot : Fin 2) (dst : SocketAddr) (lastSeen : Fin 2 → ℕ)
      (live : e.inner.closed = false) (source : e.inner.boundAddrPorts slot = some src)
      (target : e.inner.boundAddrPorts (1 - slot) = some dst) :
      Forwards e src packet
        (some ⟨some (packet, dst), { e.inner with lastSeen }, [.forwarded src dst packet]⟩)

theorem sourceSlot_eq_some (h : e.sourceSlot src = some slot) :
    e.inner.boundAddrPorts slot = some src := by
  unfold sourceSlot at h
  split_ifs at h with h0 h1
  · cases h
    exact h0.symm
  · cases h
    exact h1.symm

theorem forwards_handleDataPacket (e : RelayEndpoint) (src : SocketAddr) (packet : List Byte)
    (now : ℕ) : Forwards e src packet (e.handleDataPacket src packet now) := by
  unfold handleDataPacket
  split_ifs with hc
  · exact .dropped
  · simp only [Bool.or_eq_true, Bool.not_eq_true', not_or, Bool.not_eq_false, Bool.not_eq_true,
      EndpointInner.isBound, Bool.and_eq_true, isSome_iff_exists] at hc
    obtain ⟨⟨⟨a, ha⟩, b, hb⟩, hclosed⟩ := hc
    split
    · exact .dropped
    · next slot hslot =>
      have hsrc := sourceSlot_eq_some hslot
      obtain ⟨dst, hdst⟩ : ∃ dst, e.inner.boundAddrPorts (1 - slot) = some dst := by
        fin_cases slot
        · exact ⟨b, hb⟩
        · exact ⟨a, ha⟩
      simp only [hdst, bind_eq_bind, bind_some]
      exact .forwarded slot dst _ hclosed hsrc hdst

end

/-- What an endpoint may do with the packet that the read loop gives it. -/
inductive HandleSpec (crypto : Crypto) (s : System) (e : RelayEndpoint) (id : ℕ) :
    Option Handled → Prop
  | control (src : SocketAddr) (payload : List Byte) (macSecrets : List (BitVec 256)) (now : ℕ)
      (r : Option Handled) (reader : s.reader = .armed id src payload macSecrets now)
      (controls : Controls crypto e src payload macSecrets now r) : HandleSpec crypto s e id r
  | data (src : SocketAddr) (packet : List Byte) (r : Option Handled)
      (reader : s.reader = .data id src packet) (forwards : Forwards e src packet r) :
      HandleSpec crypto s e id r

theorem Handles.spec {crypto : Crypto} {c : ServerInner} {s : System} {e : RelayEndpoint} {id : ℕ}
    {r : Option Handled} (h : Handles crypto c s e id r) : HandleSpec crypto s e id r := by
  cases h with
  | control src payload macSecrets now nonce hr =>
    exact .control src payload macSecrets now _ hr
      (controls_handleSealedDiscoControlMsg crypto e src payload _ macSecrets now nonce)
  | data src packet now hr =>
    exact .data src packet _ hr (forwards_handleDataPacket e src packet now)

theorem HandleSpec.closed_eq {crypto : Crypto} {s : System} {e : RelayEndpoint} {id : ℕ}
    {h : Handled} (hs : HandleSpec crypto s e id (some h)) : h.inner.closed = e.inner.closed := by
  cases hs with
  | control src payload macSecrets now _ hr hc => cases hc <;> rfl
  | data src packet _ hr hf => cases hf <;> rfl

end Rustscale.Udprelay
