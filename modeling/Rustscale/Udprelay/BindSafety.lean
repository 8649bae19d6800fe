import Rustscale.Udprelay.ReadLoop

/-! In every interleaving a slot is bound, and a packet forwarded, only for a logged reason. -/
namespace Rustscale.Udprelay
open Octets Bytes Disco Machine List Option

/-- Everything that a run keeps. -/
structure Safe (crypto : Crypto) (c : ServerInner) (sealedBy : DiscoPublic → List Byte → Prop)
    (log : List Event) (s : System) : Prop where
  live : Live c log s.server s.drain s.closing
  gate : Gate s
  secrets : Secrets log s.server
  slots : Slots log s.server.endpoints
  reader : Knows log s.server.endpoints s.reader
  replies : Replies log
  every : Every (Evidence crypto sealedBy) log

section
variable {crypto : Crypto} {c : ServerInner} {sealedBy : DiscoPublic → List Byte → Prop}
  {s s' : System} {log new : List Event}

variable {id : ℕ} {e : RelayEndpoint} {slot : Fin 2} {src : SocketAddr} {plaintext : List Byte}
  {common : BindUdpRelayEndpointCommon} {payload : List Byte} {macSecrets : List (BitVec 256)}
  {now : ℕ}

/-- Every endpoint was logged as allocated, with the pair, VNI and id it has. -/
theorem Live.allocated_mem (h : Live c log s.server s.drain s.closing)
    (he : s.server.endpoints[id]? = some e) :
    .allocated id e.discoPubKeys e.vni e.lamportId ∈ log := by
  have hmem : e.static ∈ allocations log := by
    rw [h.logged]
    exact mem_map_of_mem (mem_of_getElem? he)
  obtain ⟨ev, hev, heq⟩ := mem_filterMap.mp hmem
  cases ev with
  | allocated id' pair vni lamportId =>
    obtain ⟨rfl, rfl, rfl⟩ : pair = e.discoPubKeys ∧ vni = e.vni ∧ lamportId = e.lamportId := by
      simpa [RelayEndpoint.static] using heq
    obtain ⟨e', he', hes⟩ := h.places id' _ _ _ hev
    -- the counter tells endpoints apart
    have hlamport : e'.lamportId = e.lamportId := congrArg (·.2.2) hes
    have hnodup : (s.server.endpoints.map (·.lamportId)).Nodup :=
      h.allocated.lamport.imp fun hlt => hlt.ne
    obtain rfl : id' = id := by
      refine (getElem?_inj ?_ hnodup).mp ?_
      · rw [length_map]
        exact (List.getElem?_eq_some_iff.mp he').1
      · rw [getElem?_map, getElem?_map, he', he, map_some, map_some, hlamport]
    exact hev
  | _ => cases heq

section
variable (h : Safe crypto c sealedBy log s) (he : s.server.endpoints[id]? = some e)
include h he

/-- What opens under a client's key and is no challenge comes from that client. -/
theorem Safe.sentBy {msg : Message} (hparse : Message.parse plaintext = .ok msg)
    (hmsg : ∀ common, msg ≠ .bindUdpRelayEndpointChallenge common) (hnames : Names e slot common)
    (hauth : Authentic sealedBy log (e.key slot) plaintext) :
    SentBy sealedBy (log ++ [.endpoint id (.opened slot (e.key slot) src plaintext)]) id slot
      (e.key slot) src plaintext common := by
  have halloc := mem_append_left
    [.endpoint id (.opened slot (e.key slot) src plaintext)] (h.live.allocated_mem he)
  rw [← hnames.1] at halloc
  refine ⟨e.discoPubKeys, e.lamportId, halloc, rfl, hnames.2, by simp, ?_⟩
  rcases hauth with hsealed | hown
  · exact hsealed
  · -- what the server has sealed is a challenge
    obtain ⟨id', hmem⟩ := mem_sealedTexts.mp hown
    obtain ⟨common', hparse'⟩ := h.replies.challenge id' _ plaintext hmem
    rw [hparse, Except.ok.injEq] at hparse'
    exact absurd hparse' (hmsg common')

/-- An answer that passes the checks was sealed by the client, for a challenge sent to its address.
-/
theorem Safe.bindEvidence (hr : s.reader = .armed id src payload macSecrets now)
    {secret : BitVec 256} (hlive : e.inner.closed = false)
    (hopen : crypto.openBox (e.key slot) (payload.drop (6 + 32)) = some plaintext)
    (hparse : Message.parse plaintext = .ok (.bindUdpRelayEndpointAnswer common))
    (hnames : Names e slot common) (hzero : common.generation ≠ 0)
    (hgen : e.inner.inProgressGeneration slot = common.generation) (hsecret : secret ∈ macSecrets)
    (hverified : computeMacFromBindMsg crypto secret src common = common.challenge)
    (hauth : Authentic sealedBy log (e.key slot) plaintext)
    (hunforged : Unforged crypto log src plaintext) :
    BindEvidence crypto sealedBy (log ++ [.endpoint id (.opened slot (e.key slot) src plaintext)])
      id slot src secret common := by
  have hk := h.reader
  rw [hr] at hk
  obtain ⟨⟨packet, gh, ⟨⟨ip, port, rfl⟩, -⟩, hdec, hunder⟩, -⟩ := hk
  have hdrawn := (hunder secret hsecret).mem_drawnSecrets
  refine ⟨⟨e.key slot, packet, gh, payload, plaintext, ?_, hdec, hopen, ?_, hparse⟩,
    hverified.symm, ?_, ?_, ?_⟩
  · exact (hunder secret hsecret).append (by simp [Event.isReceived])
  · exact h.sentBy he hparse (by simp) hnames hauth
  · obtain ⟨⟨secret', src', challenge⟩, hmem, rfl, hinput⟩ :=
      hunforged common (by simp [answerOf, hparse]) secret hdrawn hverified
    obtain ⟨id', hch⟩ := mem_challenges.mp hmem
    obtain ⟨ip', port', rfl⟩ := h.replies.v4 id' _ _ _ hch
    obtain ⟨hsrc, hvni, hgen', hkey⟩ := macInput_inj hinput
    refine ⟨challenge, mem_challenges.mpr ⟨id', mem_append_left _ (hsrc ▸ hch)⟩, hvni, hgen', hkey⟩
  · refine InProgress.append ?_ (by simp [Event.concerns])
    rw [← hgen]
    exact (h.slots id e he slot).2 (hgen ▸ hzero)
  · intro closer hmem
    exact h.live.not_closed he hlive closer (by simpa using hmem)

theorem Safe.forwardEvidence {dst : SocketAddr} {packet : List Byte}
    (hr : s.reader = .data id src packet) (hlive : e.inner.closed = false)
    (hsrc : e.inner.boundAddrPorts slot = some src)
    (hdst : e.inner.boundAddrPorts (1 - slot) = some dst) :
    ForwardEvidence log id src dst packet := by
  have hk := h.reader
  rw [hr] at hk
  obtain ⟨e', gh, payload, he', hdec, hvni⟩ := hk
  obtain rfl := mem_unique he he'
  exact ⟨⟨slot, (h.slots id e he slot).1 src hsrc, (h.slots id e he _).1 dst hdst⟩,
    ⟨_, _, _, gh, payload, h.live.allocated_mem he, hdec, hvni⟩, h.live.not_closed he hlive⟩

theorem Safe.not_panicked : ¬HandleSpec crypto s e id none := by
  intro hs
  have hk := h.reader
  cases hs with
  | control src payload macSecrets now _ hr hc =>
    rw [hr] at hk
    obtain ⟨-, ⟨e', he', hvni⟩, hempty⟩ := hk
    obtain rfl := mem_unique he he'
    cases hc with
    | panicked hlive hcause =>
      rcases hcause with hnil | hbig
      · obtain ⟨x, hx, hc⟩ := hempty hnil
        obtain rfl := mem_unique he hx
        simp [hlive] at hc
      · omega
  | data src packet _ hr hf => cases hf

end

def Event.isFree : Event → Bool
  | .endpoint _ (.started _ _) => false
  | .endpoint _ (.bound _ _ _ _) => false
  | .endpoint _ (.forwarded _ _ _) => false
  | .sent _ _ _ => false
  | .panicked => false
  | _ => true

theorem evidence_of_isFree {ev : Event} (h : ev.isFree = true) (before : List Event) :
    Evidence crypto sealedBy before ev := by
  cases ev with
  | endpoint id ev =>
    cases ev with
    | started | bound | forwarded => cases h
    | opened | challenged | sealed => trivial
  | sent | panicked => cases h
  | received | drew | advertised | allocated | closed => trivial

section
variable (h : Safe crypto c sealedBy log s)
include h

/-- Handling a control message leaves evidence for whatever it binds. -/
theorem Safe.controls (he : s.server.endpoints[id]? = some e)
    (hr : s.reader = .armed id src payload macSecrets now) {r : Handled}
    (hc : Controls crypto e src payload macSecrets now (some r))
    (htrust : Trusted crypto sealedBy log (r.log.map (.endpoint id))) :
    Every (Evidence crypto sealedBy) (log ++ r.log.map (.endpoint id)) := by
  have hopened : ∀ slot plaintext, Every (Evidence crypto sealedBy)
      (log ++ [.endpoint id (.opened slot (e.key slot) src plaintext)]) :=
    fun slot plaintext => every_concat.mpr ⟨h.every, trivial⟩
  cases hc with
  | dropped =>
    rw [map_nil, append_nil]
    exact h.every
  | ignored slot plaintext => exact hopened slot plaintext
  | challenged slot plaintext common secret reply rest hlive hparse hnames _ _ hrest =>
    obtain ⟨hauth, -⟩ := htrust (.endpoint id (.opened slot (e.key slot) src plaintext)) (by simp)
      (e.key slot, src, plaintext) rfl
    have hstarted := every_concat.mpr ⟨hopened slot plaintext, show Evidence crypto sealedBy _
      (.endpoint id (.started slot common.generation)) from ⟨e.key slot, src, plaintext, common,
        h.sentBy he hparse (by simp) hnames hauth, hparse, rfl⟩⟩
    have hfree : ∀ ev ∈ (EndpointEvent.challenged secret src
        (challengeFor e slot common.generation) :: rest).map (Event.endpoint id), ∀ before,
          Evidence crypto sealedBy before ev := by
      intro ev hev before
      refine evidence_of_isFree ?_ before
      obtain ⟨y, hy, rfl⟩ := mem_map.mp hev
      rcases hrest with rfl | ⟨mac, rfl⟩
      · obtain rfl := mem_singleton.mp hy
        rfl
      · simp only [mem_cons, not_mem_nil, or_false] at hy
        rcases hy with rfl | rfl <;> rfl
    simpa using hstarted.append hfree
  | bound slot plaintext common secret hlive hopen hparse hnames hzero hgen hsecret hverified =>
    obtain ⟨hauth, hunforged⟩ := htrust (.endpoint id (.opened slot (e.key slot) src plaintext))
      (by simp) (e.key slot, src, plaintext) rfl
    have hbound := every_concat.mpr ⟨hopened slot plaintext, show Evidence crypto sealedBy _
      (.endpoint id (.bound slot src secret common)) from h.bindEvidence he hr hlive hopen hparse
        hnames hzero hgen hsecret hverified hauth hunforged⟩
    rwa [append_assoc] at hbound

theorem Safe.logs (hlog : Logs crypto s new) (htrust : Trusted crypto sealedBy log new) :
    Every (Evidence crypto sealedBy) (log ++ new) := by
  cases hlog with
  | outer _ houter =>
    refine h.every.append fun ev hmem before => evidence_of_isFree ?_ before
    have := houter ev hmem
    cases ev with
    | endpoint | sent | panicked => cases this
    | received | drew | advertised | allocated | closed => rfl
  | sent id dst packet hr =>
    have hk := h.reader
    rw [hr] at hk
    exact every_concat.mpr ⟨h.every, hk⟩
  | handled id e r he hs =>
    cases hs with
    | control src payload macSecrets now _ hr hc => exact h.controls he hr hc htrust
    | data src packet _ hr hf =>
      cases hf with
      | dropped =>
        rw [map_nil, append_nil]
        exact h.every
      | forwarded slot dst lastSeen hlive hsrc hdst =>
        exact every_concat.mpr ⟨h.every, h.forwardEvidence he hr hlive hsrc hdst⟩
  | panicked id e he hs => exact absurd hs (h.not_panicked he)

theorem Safe.moves (hm : Moves crypto c s s' new)
    (htrust : Trusted crypto sealedBy log new) : Safe crypto c sealedBy (log ++ new) s' where
  live := h.live.moves hm
  gate := h.gate.moves hm
  secrets := h.secrets.moves h.live hm
  slots := h.slots.moves hm
  reader := h.reader.moves h.live h.gate h.secrets hm
  replies := h.replies.moves h.reader hm
  every := h.logs hm.logs htrust

end

theorem safe_start (crypto : Crypto) (c : ServerInner)
    (sealedBy : DiscoPublic → List Byte → Prop) : Safe crypto c sealedBy [] (.new c) where
  live := live_start c
  gate := ⟨fun h => absurd rfl h, nofun⟩
  secrets := ⟨ nil_prefix, Nat.zero_le _, fun _ => .inl rfl⟩
  slots id e he := by simp [System.new, Server.new] at he
  reader := trivial
  replies := ⟨fun _ _ _ _ h => (not_mem_nil h).elim, fun _ _ _ h => (not_mem_nil h).elim⟩
  every := every_nil

end

/-- What is bound, started, forwarded and sent has its reason in the log. -/
structure BindSafety (crypto : Crypto) (sealedBy : DiscoPublic → List Byte → Prop)
    (log : List Event) (s : System) : Prop where
  slots : ∀ id e slot src, s.server.endpoints[id]? = some e →
    e.inner.boundAddrPorts slot = some src → BoundTo log id slot src
  started : ∀ before after id slot generation,
    log = before ++ .endpoint id (.started slot generation) :: after →
      StartEvidence sealedBy before id slot generation
  bound : ∀ before after id slot src secret common,
    log = before ++ .endpoint id (.bound slot src secret common) :: after →
      BindEvidence crypto sealedBy before id slot src secret common
  forwarded : ∀ before after id src dst packet,
    log = before ++ .endpoint id (.forwarded src dst packet) :: after →
      ForwardEvidence before id src dst packet
  sent : ∀ before after id dst packet, log = before ++ .sent id dst packet :: after →
    SendEvidence before id dst packet
  secrets : .panicked ∉ log

/-- If sealing is authentic and the hash is not forged, a slot is bound only by the answer to a
challenge, packets go only between the bound addresses, nothing is bound or taken for forwarding
once the endpoint was closed, and no secret is read where there is none. -/
theorem bindSafety_of_run (crypto : Crypto) (c : ServerInner)
    (sealedBy : DiscoPublic → List Byte → Prop) {log : List Event} {s : System}
    (run : Run (machine crypto c) (Trusted crypto sealedBy) log s) :
    BindSafety crypto sealedBy log s := by
  have h : Safe crypto c sealedBy log s :=
    run.invariant (Safe crypto c sealedBy) (safe_start crypto c sealedBy)
      fun _ _ _ _ _ h hstep htrust => h.moves (moves_of_step hstep) htrust
  refine ⟨fun id e slot src he hsrc => (h.slots id e he slot).1 src hsrc, ?_, ?_, ?_, ?_, ?_⟩
  · exact fun before after id slot generation heq => h.every before _ after heq
  · exact fun before after id slot src secret common heq => h.every before _ after heq
  · exact fun before after id src dst packet heq => h.every before _ after heq
  · exact fun before after id dst packet heq => h.every before _ after heq
  · intro hmem
    obtain ⟨before, after, heq⟩ := append_of_mem hmem
    exact h.every before _ after heq

/-- A frame with a message for the endpoint 1 that a client has sealed. -/
def controlFrame (key : DiscoPublic) (msg : Message) : List Byte :=
  [0, 0x80] ++ toBytes .big 2 geneveProtocolDisco ++ toBytes .big 3 1 ++ [0] ++
    (magic ++ word key ++ msg.marshal)

def loopback (port : BitVec 16) : SocketAddr := .v4 0x7F000001 port

/-- The read loop handles a control packet of a client at a port. -/
def deliver (key : DiscoPublic) (port : BitVec 16) (msg : Message) : List Action :=
  [.receive 0x7F000001 port (controlFrame key msg), .enter, .check, .fetch, .takeSecrets 0 7,
    .handleControl 0]

def answerFor (other : DiscoPublic) (port : BitVec 16) : BindUdpRelayEndpointCommon :=
  let common : BindUdpRelayEndpointCommon := ⟨1, 3, other, 0⟩
  { common with challenge := computeMacFromBindMsg plainCrypto 7 (loopback port) common }

/-- A client binds its slot at a port, in generation 3. -/
def handshake (key other : DiscoPublic) (port : BitVec 16) : List Action :=
  deliver key port (.bindUdpRelayEndpoint ⟨1, 3, other, 0⟩) ++ [.send] ++
    deliver key port (.bindUdpRelayEndpointAnswer (answerFor other port))

def dataFrame : List Byte := [0, 0, 0, 0, 0, 0, 1, 0, 42]

/-- A handshake that binds an address. -/
theorem bindSafety_of_run_handshake : ∃ log s,
    Run (machine plainCrypto smallRelay) (Trusted plainCrypto fun _ _ => True) log s ∧
    [.endpoint 0 (.bound 0 (loopback 100) 7 (answerFor 5 100))].Sublist log ∧
    BindSafety plainCrypto (fun _ _ => True) log s := by
  obtain ⟨log, s, run, hlog⟩ := exists_run
    (machine plainCrypto smallRelay) (Trusted plainCrypto fun _ _ => True)
    (.allocate 5 4 0 :: handshake 4 5 100)
    (fun log _ => [.endpoint 0 (.bound 0 (loopback 100) 7 (answerFor 5 100))].Sublist log)
    (by decide +kernel) (by decide +kernel)
  exact ⟨log, s, run, hlog, bindSafety_of_run plainCrypto smallRelay (fun _ _ => True) run⟩

/-- A generation is answered again on replay, and a packet taken for forwarding is sent after its
endpoint was collected. -/
theorem bind_replayed_and_sent_late :
    (∃ log s, Run (machine plainCrypto smallRelay) (Trusted plainCrypto fun _ _ => True) log s ∧
      [.endpoint 0 (.bound 0 (loopback 100) 7 (answerFor 5 100)),
        .endpoint 0 (.bound 0 (loopback 100) 7 (answerFor 5 100))].Sublist log) ∧
    ∃ log s, Run (machine plainCrypto smallRelay) (Trusted plainCrypto fun _ _ => True) log s ∧
      [.endpoint 0 (.forwarded (loopback 100) (loopback 200) dataFrame), .closed 0 .gc,
        .sent 0 (loopback 200) dataFrame].Sublist log := by
  constructor
  · exact exists_run _ _ (.allocate 5 4 0 :: handshake 4 5 100 ++ handshake 4 5 100) _
      (by decide +kernel) (by decide +kernel)
  · exact exists_run _ _ (.allocate 5 4 0 :: handshake 4 5 100 ++ handshake 5 4 200 ++
      [.receive 0x7F000001 100 dataFrame, .enter, .check, .fetch, .handleData 0, .gc 100, .visit 0,
        .finish, .send]) _ (by decide +kernel) (by decide +kernel)

end Rustscale.Udprelay
