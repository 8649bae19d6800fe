import Rustscale.Udprelay.Slots

/-! What the read loop knows of the packet in hand, and what clients were told. -/
namespace Rustscale.Udprelay
open Octets Bytes Disco Machine List Event GeneveHeader

def Arrived (log : List Event) (src : SocketAddr) (packet : List Byte) : Prop :=
  (∃ ip port, src = .v4 ip port) ∧ ∃ l l', log = l ++ .received src packet :: l' ∧
    ∀ ev ∈ l', ev.isReceived = false

def Knows (log : List Event) (endpoints : List RelayEndpoint) : Reader → Prop
  | .received src packet => Arrived log src packet
  | .admitted src packet => Arrived log src packet
  | .checked src packet => Arrived log src packet
  | .control id src payload => (∃ packet gh, Arrived log src packet ∧
      decode packet = some (gh, payload)) ∧
    ∃ e, endpoints[id]? = some e ∧ e.vni ≤ 0x00FFFFFF
  | .armed id src payload macSecrets _ => (∃ packet gh, Arrived log src packet ∧
      decode packet = some (gh, payload) ∧
      ∀ secret ∈ macSecrets, ArrivedUnder log src packet secret) ∧
    (∃ e, endpoints[id]? = some e ∧ e.vni ≤ 0x00FFFFFF) ∧
    (macSecrets = [] → ClosedAt endpoints id)
  | .data id _ packet => ∃ e gh payload, endpoints[id]? = some e ∧
    decode packet = some (gh, payload) ∧ gh.vni = e.vni
  | .replying id dst packet => SendEvidence log id dst packet
  | .idle => True
  | .dead => True

/-- Endpoints stay where they are, and closed ones stay closed. -/
def Extends (endpoints endpoints' : List RelayEndpoint) : Prop :=
  ∀ (id : ℕ) (e : RelayEndpoint), endpoints[id]? = some e → ∃ e' : RelayEndpoint,
    endpoints'[id]? = some e' ∧ e'.static = e.static ∧
      (e.inner.closed = true → e'.inner.closed = true)

theorem extends_refl (endpoints : List RelayEndpoint) : Extends endpoints endpoints :=
  fun _ e he => ⟨e, he, rfl, fun h => h⟩

section
variable {crypto : Crypto} {c : ServerInner} {s s' : System} {log new : List Event}
  {endpoints endpoints' : List RelayEndpoint}

variable {src : SocketAddr} {packet : List Byte} {secret : BitVec 256} {id : ℕ} {dst : SocketAddr}
  {e : RelayEndpoint} {r : Reader}

theorem Arrived.append (h : Arrived log src packet) (hnew : ∀ ev ∈ new, ev.isReceived = false) :
    Arrived (log ++ new) src packet := by
  obtain ⟨hv4, l, l', rfl, hl⟩ := h
  refine ⟨hv4, l, l' ++ new, by simp, fun ev hev => ?_⟩
  rcases mem_append.mp hev with hev | hev
  · exact hl ev hev
  · exact hnew ev hev

theorem ArrivedUnder.append (h : ArrivedUnder log src packet secret)
    (hnew : ∀ ev ∈ new, ev.isReceived = false) :
    ArrivedUnder (log ++ new) src packet secret := by
  obtain ⟨l, m, m', rfl, hl, hs⟩ := h
  refine ⟨l, m, m' ++ new, by simp, fun ev hev => ?_, hs⟩
  rw [← append_assoc] at hev
  rcases mem_append.mp hev with hev | hev
  · exact hl ev hev
  · exact hnew ev hev

theorem Arrived.under (h : Arrived log src packet) (hs : secret ∈ lastTwo log) :
    ArrivedUnder log src packet secret := by
  obtain ⟨-, l, l', rfl, hl⟩ := h
  exact ⟨l, l', [], by simp, by simpa using hl, hs⟩

theorem ArrivedUnder.mem_drawnSecrets (h : ArrivedUnder log src packet secret) :
    secret ∈ drawnSecrets log := by
  obtain ⟨l, m, m', rfl, -, hs⟩ := h
  have hsplit : l ++ received src packet :: (m ++ m') =
      (l ++ received src packet :: m) ++ m' := by simp
  rw [hsplit, drawnSecrets_append]
  exact mem_append_left _ (lastTwo_subset hs)

theorem SendEvidence.append (h : SendEvidence log id dst packet)
    (hnew : .closed id .disable ∉ new) : SendEvidence (log ++ new) id dst packet := by
  refine ⟨h.decided.imp ?_ ?_, ?_⟩
  · rintro ⟨src, hmem⟩
    exact ⟨src, mem_append_left _ hmem⟩
  · rintro ⟨secret, common, hmem⟩
    exact ⟨secret, common, mem_append_left _ hmem⟩
  · rw [mem_append, not_or]
    exact ⟨h.enabled, hnew⟩

theorem Extends.closedAt (h : Extends endpoints endpoints') (hc : ClosedAt endpoints id) :
    ClosedAt endpoints' id := by
  obtain ⟨e, he, hcl⟩ := hc
  obtain ⟨e', he', -, hcl'⟩ := h id e he
  exact ⟨e', he', hcl' hcl⟩

theorem Extends.vni (h : Extends endpoints endpoints') (he : endpoints[id]? = some e) :
    ∃ e', endpoints'[id]? = some e' ∧ e'.vni = e.vni := by
  obtain ⟨e', he', hs, -⟩ := h id e he
  exact ⟨e', he', congrArg (·.2.1) hs⟩

/-- What the read loop knows stays true while others move. -/
theorem Knows.append (h : Knows log endpoints r) (he : Extends endpoints endpoints')
    (hnew : ∀ ev ∈ new, ev.isReceived = false)
    (hdis : ∀ id, r.holdsGate = true → .closed id .disable ∉ new) :
    Knows (log ++ new) endpoints' r := by
  have hvni : ∀ {id : ℕ}, (∃ e : RelayEndpoint, endpoints[id]? = some e ∧ e.vni ≤ 0x00FFFFFF) →
      ∃ e : RelayEndpoint, endpoints'[id]? = some e ∧ e.vni ≤ 0x00FFFFFF := by
    rintro id ⟨e, hid, hle⟩
    obtain ⟨e', hid', heq⟩ := he.vni hid
    exact ⟨e', hid', heq ▸ hle⟩
  cases r with
  | received src packet | admitted src packet | checked src packet => exact Arrived.append h hnew
  | control id src payload =>
    obtain ⟨⟨packet, gh, harr, hdec⟩, hid⟩ := h
    exact ⟨⟨packet, gh, harr.append hnew, hdec⟩, hvni hid⟩
  | armed id src payload macSecrets now =>
    obtain ⟨⟨packet, gh, harr, hdec, hsecrets⟩, hid, hclosed⟩ := h
    exact ⟨⟨packet, gh, harr.append hnew, hdec, fun secret hs => (hsecrets secret hs).append hnew⟩,
      hvni hid, fun hnil => he.closedAt (hclosed hnil)⟩
  | data id src packet =>
    obtain ⟨e, gh, payload, hid, hdec, hgh⟩ := h
    obtain ⟨e', hid', heq⟩ := he.vni hid
    exact ⟨e', gh, payload, hid', hdec, hgh.trans heq.symm⟩
  | replying id dst packet => exact SendEvidence.append h (hdis id rfl)
  | idle | dead => trivial

theorem extends_set (he : endpoints[id]? = some e) {inner : EndpointInner}
    (hc : e.inner.closed = true → inner.closed = true) :
    Extends endpoints (endpoints.set id { e with inner }) := by
  intro id' x hx
  by_cases hid : id = id'
  · subst hid
    obtain rfl := Option.mem_unique he hx
    exact ⟨{ e with inner }, by simp [(List.getElem?_eq_some_iff.mp he).1], rfl, hc⟩
  · exact ⟨x, by rwa [getElem?_set_ne hid], rfl, fun h => h⟩

theorem Allocates.extends {server server' : Server} {pair : DiscoPublic × DiscoPublic} {now : ℕ}
    {r : Except UdprelayError ServerEndpoint} (ha : Allocates c server pair now r server') :
    Extends server.endpoints server'.endpoints := by
  cases ha with
  | refused | existing | exhausted => exact extends_refl _
  | fresh =>
    intro id e he
    exact ⟨e, List.getElem?_append_left (List.getElem?_eq_some_iff.mp he).1 ▸ he, rfl, fun h => h⟩

theorem GeneveHeader.vni_le {payload : List Byte} {gh : GeneveHeader}
    (h : decode packet = some (gh, payload)) : gh.vni ≤ 0x00FFFFFF := by
  unfold decode at h
  split_ifs at h
  rw [Option.some.injEq, Prod.mk.injEq] at h
  rw [← h.1]
  exact Nat.le_of_lt_succ (num_lt 3 packet 4)

theorem Knows.reads (h : Knows log s.server.endpoints s.reader)
    (hl : Live c log s.server s.drain s.closing) (hr : Reads s r new) :
    Knows (log ++ new) s.server.endpoints r := by
  cases hr with
  | receive ip port packet =>
    exact ⟨⟨ip, port, rfl⟩, log, [], rfl, nofun⟩
  | enter src packet hr | check src packet hr =>
    rw [hr] at h
    rwa [append_nil]
  | drop => trivial
  | control id src packet gh payload hr hd hdec hfound =>
    rw [hr] at h
    rw [append_nil]
    obtain ⟨e, he, heq, -⟩ := hl.allocated.byVni _ _ hfound
    exact ⟨⟨packet, gh, h, hdec⟩, e, he, heq ▸ vni_le hdec⟩
  | data id src packet gh payload hr hd hdec hfound =>
    obtain ⟨e, he, heq, -⟩ := hl.allocated.byVni _ _ hfound
    exact ⟨e, gh, payload, he, hdec, heq.symm⟩
  | send => trivial

section
variable (hl : Live c log s.server s.drain s.closing) (he : s.server.endpoints[id]? = some e)
include hl he

theorem Live.not_closed (hlive : e.inner.closed = false) (closer : Closer) :
    .closed id closer ∉ log := by
  intro hmem
  obtain ⟨e', he', hc⟩ := hl.closedLog id closer hmem
  obtain rfl := Option.mem_unique he he'
  simp [hlive] at hc

/-- A reply was forwarded or is a challenge, and its endpoint was not disabled. -/
theorem HandleSpec.sendEvidence {r : Handled} (hs : HandleSpec crypto s e id (some r))
    (hreply : r.reply = some (packet, dst)) :
    SendEvidence (log ++ r.log.map (.endpoint id)) id dst packet := by
  have henabled : e.inner.closed = false →
      .closed id .disable ∉ log ++ r.log.map (endpoint id) := by
    intro hlive hmem
    rcases mem_append.mp hmem with hmem | hmem
    · exact hl.not_closed he hlive _ hmem
    · simp at hmem
  cases hs with
  | control src payload macSecrets now _ hr hc =>
    cases hc with
    | dropped | ignored | bound => cases hreply
    | challenged slot plaintext common secret reply rest hlive _ _ _ hback _ =>
      obtain rfl := hback packet dst hreply
      exact ⟨.inr ⟨secret, challengeFor e slot common.generation, by simp⟩, henabled hlive⟩
  | data src packet' _ hr hf =>
    cases hf with
    | dropped => cases hreply
    | forwarded slot dst' lastSeen hlive =>
      cases hreply
      exact ⟨.inl ⟨src, by simp⟩, henabled hlive⟩

end

theorem isReceived_drawn (c : ServerInner) (s : System) (now : ℕ) (fresh : BitVec 256) :
    ∀ ev ∈ drawn c s now fresh, ev.isReceived = false := by
  unfold drawn
  split_ifs <;> simp [isReceived]

/-- Step: what the reader holds is known from the log. -/
theorem Knows.moves (h : Knows log s.server.endpoints s.reader)
    (hl : Live c log s.server s.drain s.closing) (hg : Gate s) (hs : Secrets log s.server)
    (hm : Moves crypto c s s' new) : Knows (log ++ new) s'.server.endpoints s'.reader := by
  have hquiet : ∀ {new : List Event}, (∀ ev ∈ new, ev.isReceived = false) → Silent new →
      Knows (log ++ new) s.server.endpoints s.reader := fun hnew hsilent =>
    h.append (extends_refl _) hnew fun id _ => hsilent.2 id .disable
  have hnil : Knows (log ++ []) s.server.endpoints s.reader := by rwa [append_nil]
  cases hm with
  | read r _ hr => exact h.reads hl hr
  | arm now fresh id src payload hd hr =>
    rw [hr] at h
    obtain ⟨⟨packet, gh, harr, hdec⟩, e, he, hvni⟩ := h
    have harr' := harr.append (isReceived_drawn c s now fresh)
    refine ⟨⟨packet, gh, harr', hdec, fun secret hsecret => ?_⟩, ⟨e, he, hvni⟩, fun hempty => ?_⟩
    · exact harr'.under ((hs.rotated now fresh).subset hsecret)
    · exact ⟨e, he, hs.closed_of_rotated hempty e (mem_of_getElem? he)⟩
  | rotate now fresh hd => exact hquiet (isReceived_drawn c s now fresh) (silent_drawn c s now fresh)
  | handle id e r he hh =>
    cases r with
    | none => trivial
    | some r =>
      simp only [System.handled]
      cases hreply : r.reply with
      | none => trivial
      | some reply => exact hh.spec.sendEvidence hl he hreply
  | allocate discoA discoB now hd r server ha =>
    refine h.append (allocates_of_eq ha).extends (fun ev hev => ?_) fun id _ hmem => ?_
    · obtain ⟨_, _, _, _, rfl⟩ := mem_told hev
      rfl
    · obtain ⟨_, _, _, _, hx⟩ := mem_told hmem
      cases hx
  | advertise => exact hquiet (by simp [isReceived]) (by simp [Silent])
  | flag _ hf | finish _ hf => cases hf <;> exact hnil
  | lock _ hd hlk => cases hlk <;> exact hnil
  | skip => exact hnil
  | visit id e closer d hv he =>
    refine h.append (extends_set he fun _ => rfl) (by simp [isReceived]) fun id' hgate hmem => ?_
    -- a call that disables has the gate
    obtain ⟨rfl, rfl⟩ : id' = id ∧ Closer.disable = closer := by simpa using hmem
    cases hv with
    | disable k _ todo hd _ =>
      have hw := hg.disabling todo hd
      rw [hg.of_holdsGate hgate] at hw
      cases hw

/-- Events of the calls, and those that come from outside. -/
def Event.isOuter : Event → Bool
  | .endpoint _ _ => false
  | .sent _ _ _ => false
  | .panicked => false
  | _ => true

/-- What a step adds to the log. -/
inductive Logs (crypto : Crypto) (s : System) : List Event → Prop
  | outer (new : List Event) (outer : ∀ ev ∈ new, ev.isOuter = true) : Logs crypto s new
  | sent (id : ℕ) (dst : SocketAddr) (packet : List Byte)
      (reader : s.reader = .replying id dst packet) : Logs crypto s [.sent id dst packet]
  | handled (id : ℕ) (e : RelayEndpoint) (r : Handled)
      (found : s.server.endpoints[id]? = some e) (spec : HandleSpec crypto s e id (some r)) :
      Logs crypto s (r.log.map (.endpoint id))
  | panicked (id : ℕ) (e : RelayEndpoint) (found : s.server.endpoints[id]? = some e)
      (spec : HandleSpec crypto s e id none) : Logs crypto s [.panicked]

theorem Moves.logs (hm : Moves crypto c s s' new) : Logs crypto s new := by
  cases hm with
  | read r _ hr =>
    cases hr with
    | send id dst packet hr => exact .sent id dst packet hr
    | receive | enter | check | drop | control | data => exact .outer _ (by simp [isOuter])
  | arm now fresh | rotate now fresh =>
    refine .outer _ ?_
    unfold drawn
    split_ifs <;> simp [isOuter]
  | handle id e r he hh =>
    cases r with
    | none => exact .panicked id e he hh.spec
    | some r => exact .handled id e r he hh.spec
  | allocate =>
    refine .outer _ fun ev hev => ?_
    obtain ⟨_, _, _, _, rfl⟩ := mem_told hev
    rfl
  | advertise | visit => exact .outer _ (by simp [isOuter])
  | flag | lock | skip | finish => exact .outer _ (by simp)

theorem Logs.of_endpoint_mem (h : Logs crypto s new) {ev : EndpointEvent}
    (hmem : .endpoint id ev ∈ new) : ∃ e r, s.server.endpoints[id]? = some e ∧
      HandleSpec crypto s e id (some r) ∧ ev ∈ r.log := by
  cases h with
  | outer _ houter => cases houter _ hmem
  | sent | panicked => simp at hmem
  | handled id' e r he hs =>
    obtain ⟨x, hx, heq⟩ := mem_map.mp hmem
    obtain ⟨rfl, rfl⟩ := endpoint.inj heq
    exact ⟨e, r, he, hs, hx⟩

/-- Replies go to IPv4 addresses and are challenges. -/
structure Replies (log : List Event) : Prop where
  v4 : ∀ id secret src common, .endpoint id (.challenged secret src common) ∈ log →
    ∃ ip port, src = .v4 ip port
  challenge : ∀ id key plaintext, .endpoint id (.sealed key plaintext) ∈ log →
    ∃ common, Message.parse plaintext = .ok (.bindUdpRelayEndpointChallenge common)

/-- Step: each packet sent has its evidence earlier in the log. -/
theorem Replies.moves (h : Replies log) (hk : Knows log s.server.endpoints s.reader)
    (hm : Moves crypto c s s' new) : Replies (log ++ new) := by
  refine ⟨fun id secret src common hmem => ?_, fun id key plaintext hmem => ?_⟩
  · rcases mem_append.mp hmem with hmem | hmem
    · exact h.v4 id secret src common hmem
    · obtain ⟨e, r, he, hs, hev⟩ := hm.logs.of_endpoint_mem hmem
      cases hs with
      | control src' payload macSecrets now _ hr hc =>
        rw [hr] at hk
        cases hc with
        | dropped | ignored | bound => simp at hev
        | challenged slot plaintext common' secret' reply rest _ _ _ _ _ hrest =>
          obtain ⟨-, rfl, -⟩ : secret = secret' ∧ src = src' ∧ common = _ := by
            rcases hrest with rfl | ⟨mac, rfl⟩ <;> simpa using hev
          obtain ⟨⟨packet, gh, harr, -⟩, -⟩ := hk
          exact harr.1
      | data src' packet _ hr hf => cases hf <;> simp at hev
  · rcases mem_append.mp hmem with hmem | hmem
    · exact h.challenge id key plaintext hmem
    · obtain ⟨e, r, he, hs, hev⟩ := hm.logs.of_endpoint_mem hmem
      cases hs with
      | control src' payload macSecrets now _ hr hc =>
        cases hc with
        | dropped | ignored | bound => simp at hev
        | challenged slot plaintext' common' secret' reply rest _ _ _ _ _ hrest =>
          rcases hrest with rfl | ⟨mac, rfl⟩
          · simp at hev
          · obtain ⟨-, rfl⟩ : key = _ ∧ plaintext = _ := by simpa using hev
            exact ⟨_, parse_marshal_challenge _⟩
      | data src' packet _ hr hf => cases hf <;> simp at hev

end

end Rustscale.Udprelay
