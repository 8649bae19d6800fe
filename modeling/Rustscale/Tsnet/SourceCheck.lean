import Rustscale.Tsnet.Routing

/-! The check of a packet's source against the owners of the addresses, and how it agrees with the
routes. -/
namespace Rustscale.PeerMap
open Art Tailcfg Packet Routing Octets IpAddr Parsed PeerMap.Runtime List RouteTable

/-- The peer that opened the packet has its source among its addresses. -/
def Runtime.packetSourceMatches (r : Runtime) (peer : PublicKey) (packet : List Byte) : Bool :=
  let parsed := decode packet
  if parsed.ipVersion = 0 then false else r.identity parsed.src == some peer

def HasSource (packet : List Byte) (ip : IpAddr) : Prop :=
  (decode packet).ipVersion ≠ 0 ∧ (decode packet).src = ip

def headerFrom (ip : IpAddr) : List Byte :=
  (if ip.isIpv6 then 0x60#8 :: replicate 7 0 else 0x45#8 :: replicate 11 0) ++
    (range (ip.bitLen / 8)).map ip.octets ++ replicate (ip.bitLen / 8) 0

theorem fromOctets_octets {o : ℕ → Byte} {a : IpAddr}
    (h : ∀ k < a.bitLen / 8, o k = a.octets k) : fromOctets o a.isIpv6 = a := by
  refine ext_bit (by simp) fun i hi => ?_
  rw [bitLen_fromOctets] at hi
  rw [bit_fromOctets _ _ _ hi, bit_eq_octets, h]
  have := familyBits_dvd a.isIpv6
  unfold bitLen
  omega

theorem byteAt_middle (pre post : List Byte) (o : ℕ → Byte) {n k : ℕ} (hk : k < n) :
    byteAt (pre ++ (range n).map o ++ post) (pre.length + k) = o k := by
  unfold byteAt
  rw [getD_eq_getElem?_getD, append_assoc, getElem?_append_right (by omega),
    Nat.add_sub_cancel_left, getElem?_append_left (by simpa using hk)]
  simp [hk]

/-- The header decodes, with the given source. -/
theorem headerFrom_hasSource (ip : IpAddr) : HasSource (headerFrom ip) ip := by
  cases ip with
  | v4 a =>
    have hlen : (headerFrom (.v4 a)).length = 20 := by
      simp [headerFrom, bitLen, isIpv6, familyBits]
    have hfirst : byteAt (headerFrom (.v4 a)) 0 = 0x45#8 := rfl
    have hne : (headerFrom (.v4 a)).isEmpty = false := rfl
    have hsrc : addrAt (headerFrom (.v4 a)) 12 false = .v4 a :=
      fromOctets_octets fun k hk =>
        byteAt_middle (0x45#8 :: replicate 11 0) _ _ hk
    simp [HasSource, decode, decode4, headerLen, hlen, hfirst, hne, hsrc, fillTransport_header]
  | v6 a =>
    have hlen : (headerFrom (.v6 a)).length = 40 := by
      simp [headerFrom, bitLen, isIpv6, familyBits]
    have hfirst : byteAt (headerFrom (.v6 a)) 0 = 0x60#8 := rfl
    have hne : (headerFrom (.v6 a)).isEmpty = false := rfl
    have hsrc : addrAt (headerFrom (.v6 a)) 8 true = .v6 a :=
      fromOctets_octets fun k hk =>
        byteAt_middle (0x60#8 :: replicate 7 0) _ _ hk
    have hd : HasSource (headerFrom (.v6 a)) (addrAt (headerFrom (.v6 a)) 8 true) := by
      simp [HasSource, decode, decode6, hlen, hfirst, hne, apply_ite, fillTransport_header]
    rwa [hsrc] at hd

theorem Runtime.install_identity {r : Runtime} {peers : List Node}
    (h : (r.install peers).1 = .ok ()) (ip : IpAddr) (key : PublicKey) :
    (r.install peers).2.identity ip = some key ↔ ∃ p ∈ peers, p.key = key ∧ ip ∈ ips p := by
  unfold install at *
  cases hf : fromPeers peers with
  | error e => simp [hf] at h
  | ok byIp =>
    simp only [fromPeers, Checks.bind_eq_ok] at hf
    obtain ⟨s, hs, hret⟩ := hf
    cases hret
    have ht := (Seen.tracks_nil.foldlM valid_nil peers).2 s hs
    rw [nil_append] at ht
    exact ht.byIp ip key

theorem Runtime.packetSourceMatches_iff {r : Runtime} {packet : List Byte} {ip : IpAddr}
    (h : HasSource packet ip) (key : PublicKey) :
    r.packetSourceMatches key packet = true ↔ r.identity ip = some key := by
  obtain ⟨hv, rfl⟩ := h
  simp [packetSourceMatches, hv]

theorem Valid.owners_disjoint {peers : List Node} (h : Valid peers) {p q : Node} (hp : p ∈ peers)
    (hq : q ∈ peers) (hne : p ≠ q) : (ips p).Disjoint (ips q) :=
  have : Std.Symm fun p q : Node => (ips p).Disjoint (ips q) := ⟨fun _ _ hd => hd.symm⟩
  h.owners.forall hp hq hne

/-- The peer that has the address is the one it is sent to; an address of nobody is sent to nobody.
-/
def Symmetric (peers : List Node) (routes : List (IpPrefix × PublicKey)) (exit : Option PublicKey)
    (ip : IpAddr) : Prop :=
  (∃ p ∈ peers, ip ∈ ips p ∧ SentTo routes exit ip p.key) ∨
    ((∀ p ∈ peers, ip ∉ ips p) ∧ Unrouted routes ip ∧ exit = none)

/-- Symmetry of source check and routing, peer by peer. -/
theorem symmetric_iff {peers : List Node} (hv : Valid peers) {t : RouteTable}
    {routes : List (IpPrefix × PublicKey)} (h : t.Holds routes) (ip : IpAddr) :
    Symmetric peers routes t.exit ip ↔
      ∀ k, (∃ p ∈ peers, p.key = k ∧ ip ∈ ips p) ↔ SentTo routes t.exit ip k := by
  constructor
  · rintro (⟨p, hp, hip, hs⟩ | ⟨hno, hun, hexit⟩) k
    · constructor
      · rintro ⟨q, hq, rfl, hiq⟩
        have hqp : q = p := by
          by_contra hne
          exact hv.owners_disjoint hq hp hne hiq hip
        rwa [hqp]
      · intro hk
        exact ⟨p, hp, h.sentTo_unique hs hk, hip⟩
    · refine iff_of_false (fun ⟨p, hp, _, hip⟩ => hno p hp hip) ?_
      rintro (⟨p, hl, hc, -⟩ | ⟨-, he⟩)
      · exact absurd (hun _ (mem_of_lookup hl)) (by simp [hc])
      · rw [hexit] at he
        cases he
  · intro hall
    obtain ⟨o, -, ho⟩ := h.lookup ip
    cases hoc : o with
    | some k =>
      obtain ⟨p, hp, rfl, hip⟩ := (hall k).mpr ((ho k).mp hoc)
      exact Or.inl ⟨p, hp, hip, (ho _).mp hoc⟩
    | none =>
      have hnot : ∀ k, ¬ SentTo routes t.exit ip k := fun k hk => by
        rw [← ho, hoc] at hk
        cases hk
      refine Or.inr ⟨fun p hp hip => hnot p.key ((hall _).mp ⟨p, hp, rfl, hip⟩), ?_⟩
      obtain ⟨o', -, hbest, hun⟩ := h.lookupExplicit ip
      have hu : Unrouted routes ip := by
        rw [← hun]
        by_contra hne
        obtain ⟨k, hk⟩ := Option.ne_none_iff_exists'.mp hne
        exact hnot k (Or.inl ((hbest k).mp hk))
      refine ⟨hu, ?_⟩
      by_contra hne
      obtain ⟨k, hk⟩ := Option.ne_none_iff_exists'.mp hne
      exact hnot k (Or.inr ⟨hu, hk⟩)

/-- For every accepted peer set, flag and exit selection: packets from an address pass exactly when
they come from the peer that packets to it are sent to, iff that peer has the address as its own. -/
theorem packetSourceMatches_iff_lookup (r : Runtime) (peers : List Node) (acceptRoutes : Bool)
    (h : (r.install peers).1 = .ok ()) :
    ∃ t, fromPeersWithOpts peers acceptRoutes = .ok t ∧
      ∀ (exit : Option PublicKey) (requested latched : Bool) (ip : IpAddr),
        (∀ key packet, HasSource packet ip →
          ((r.install peers).2.packetSourceMatches key packet = true ↔
            (t.setExitStateLatchAware exit requested latched).lookup ip = .ok (some key))) ↔
        Symmetric peers (offered acceptRoutes peers) (if latched then none else exit) ip := by
  obtain ⟨t, ht, hold⟩ := fromPeersWithOpts_holds peers acceptRoutes
  refine ⟨t, ht, fun exit requested latched ip => ?_⟩
  have hset := hold.setExit exit requested latched
  have hexit : (t.setExitStateLatchAware exit requested latched).exit =
      if latched then none else exit := rfl
  obtain ⟨o, ho, hsent⟩ := hset.lookup ip
  rw [← hexit, symmetric_iff ((r.install_eq_ok peers).mp h) hset]
  simp only [ho, Except.ok.injEq, hsent]
  constructor
  · intro hall key
    rw [← install_identity h, ← hall key _ (headerFrom_hasSource ip),
      packetSourceMatches_iff (headerFrom_hasSource ip)]
  · intro hall key packet hsrc
    rw [packetSourceMatches_iff hsrc, install_identity h, hall]

/-- A peer that routes the network 192.0.2.0/24. -/
def subnetRouter : Node where
  id := 3
  key := 3
  addresses := ["100.64.0.3/32"]
  allowedIps := ["100.64.0.3/32", "192.0.2.0/24"]

theorem offered_subnetRouter : offered true [subnetRouter] =
    [(⟨.v4 0x64400003#32, 32⟩, 3), (⟨.v4 0xC0000200#32, 24⟩, 3)] := by
  decide +kernel

def noPeers : Runtime := ⟨fun _ => none, 0, 0, []⟩

/-- The router's own address. -/
theorem packetSourceMatches_iff_lookup_subnetRouter : (noPeers.install [subnetRouter]).1 = .ok () ∧
    ∃ t, fromPeersWithOpts [subnetRouter] true = .ok t ∧
      ∀ key packet, HasSource packet (.v4 0x64400003#32) →
        ((noPeers.install [subnetRouter]).2.packetSourceMatches key packet = true ↔
          (t.setExitStateLatchAware (some 3) true false).lookup (.v4 0x64400003#32) =
            .ok (some key)) := by
  refine ⟨rfl, ?_⟩
  obtain ⟨t, ht, hiff⟩ := packetSourceMatches_iff_lookup noPeers [subnetRouter] true rfl
  refine ⟨t, ht, (hiff (some 3) true false _).mpr (Or.inl ⟨subnetRouter, by simp, ?_, Or.inl ?_⟩)⟩
  · decide +kernel
  · rw [offered_subnetRouter]
    exact ⟨⟨.v4 0x64400003#32, 32⟩, by decide +kernel⟩

/-- Packets to the network go to its router, whose packets from it are dropped. -/
theorem subnet_reply_dropped : (noPeers.install [subnetRouter]).1 = .ok () ∧
    ∃ t packet, fromPeersWithOpts [subnetRouter] true = .ok t ∧
      HasSource packet (.v4 0xC0000205#32) ∧ t.lookup (.v4 0xC0000205#32) = .ok (some 3) ∧
      (noPeers.install [subnetRouter]).2.packetSourceMatches 3 packet = false := by
  refine ⟨rfl, ?_⟩
  obtain ⟨t, ht, hold⟩ := fromPeersWithOpts_holds [subnetRouter] true
  obtain ⟨o, ho, hsent⟩ := hold.lookup (.v4 0xC0000205#32)
  refine ⟨t, headerFrom (.v4 0xC0000205#32), ht, headerFrom_hasSource _, ?_, rfl⟩
  rw [ho, (hsent 3).mpr (Or.inl ?_)]
  rw [offered_subnetRouter]
  exact ⟨⟨.v4 0xC0000200#32, 24⟩, by decide +kernel⟩

abbrev FlowKey := (IpAddr × ℕ) × (IpAddr × ℕ)

def Flow.key (f : Flow) : FlowKey := (f.remote, f.local_)

def flowTtl : ℕ := 60 * 10 ^ 9
def maxFlows : ℕ := 4096

section
variable (now : ℕ) (r : Runtime)

/-- A packet with SYN opens a flow, which replaces the oldest one if there is no room. -/
def Runtime.recordPacket (peer : PublicKey) (packet : List Byte) : Runtime :=
  let parsed := decode packet
  if parsed.ipProto ≠ tcp ∨ parsed.tcpFlags &&& synFlag ≠ synFlag then r
  else
    let key := ((parsed.src, parsed.srcPort), parsed.dst, parsed.dstPort)
    let kept := r.flows.filter fun f => now - f.seen ≤ flowTtl
    let oldest :=
      if maxFlows ≤ kept.length ∧ key ∉ kept.map Flow.key then kept.argmin Flow.seen else none
    { r with flows := ⟨key.1, key.2, peer, now⟩ ::
        kept.filter fun f => f.key ≠ key ∧ oldest.map Flow.key ≠ some f.key }

def Runtime.flowOwner (key : FlowKey) : Option PublicKey × Runtime :=
  match r.flows.find? fun f => f.key = key with
  | none => (none, r)
  | some f =>
    if flowTtl < now - f.seen then (none, { r with flows := r.flows.filter fun f => f.key ≠ key })
    else (some f.peer, r)

/-- What changes the map of peers or uses it. -/
inductive Activity where
  | install (peers : List Node)
  | advanceAuthorizationEpoch
  | deliver (now epoch : ℕ) (accept : Bool) (peer : PublicKey) (packet : List Byte)
  | connect (now : ℕ) (key : FlowKey)

/-- A packet is recorded if it was opened in this epoch, has its source and passes the filter. -/
def Runtime.act : Activity → Runtime
  | .install peers => (r.install peers).2
  | .advanceAuthorizationEpoch => r.advanceAuthorizationEpoch
  | .deliver now epoch accept peer packet =>
    if epoch = r.authorizationEpoch ∧ r.packetSourceMatches peer packet ∧ accept then
      r.recordPacket now peer packet
    else r
  | .connect now key => (r.flowOwner now key).2

variable {r}

/-- Flows belong to the owners of their remote addresses, and are not too many. -/
structure Attributed (r : Runtime) : Prop where
  owned : ∀ f ∈ r.flows, r.identity f.remote.1 = some f.peer
  room : r.flows.length ≤ maxFlows

/-- Step: a recorded flow belongs to the peer that owns its source. -/
theorem Attributed.recordPacket {peer : PublicKey} {packet : List Byte} (h : Attributed r)
    (howner : r.identity (decode packet).src = some peer) :
    Attributed (r.recordPacket now peer packet) := by
  unfold Runtime.recordPacket
  generalize decode packet = parsed at *
  dsimp only
  split
  · exact h
  · refine ⟨forall_mem_cons.mpr ⟨howner, fun f hf => ?_⟩, ?_⟩
    · exact h.owned f (mem_of_mem_filter (mem_of_mem_filter hf))
    have hkept := (length_filter_le (fun f => now - f.seen ≤ flowTtl) r.flows).trans h.room
    generalize r.flows.filter _ = kept at *
    by_cases hroom : kept.length < maxFlows
    · exact (Nat.succ_le_succ (length_filter_le ..)).trans hroom
    -- without room, the flow of that key or the oldest goes
    refine (length_filter_lt_length_iff_exists.mpr ?_).trans_le hkept
    by_cases hkey : ((parsed.src, parsed.srcPort), parsed.dst, parsed.dstPort) ∈ kept.map Flow.key
    · obtain ⟨f, hf, heq⟩ := mem_map.mp hkey
      exact ⟨f, hf, by simp [heq]⟩
    · cases hmin : kept.argmin Flow.seen with
      | none => simp [argmin_eq_none.mp hmin, maxFlows] at hroom
      | some f => exact ⟨f, argmin_mem hmin, by simp [not_lt.mp hroom, hkey]⟩

theorem Attributed.act (h : Attributed r) (a : Activity) : Attributed (r.act a) := by
  cases a with
  | install peers =>
    dsimp only [Runtime.act, install]
    split
    · exact h
    · exact ⟨nofun, Nat.zero_le _⟩
  | advanceAuthorizationEpoch => exact ⟨nofun, Nat.zero_le _⟩
  | deliver now epoch accept peer packet =>
    dsimp only [Runtime.act]
    split_ifs with hd
    · exact h.recordPacket now (by simp_all [packetSourceMatches])
    · exact h
  | connect now key =>
    dsimp only [Runtime.act, flowOwner]
    split
    · exact h
    · split_ifs
      · exact ⟨fun f hf => h.owned f (mem_of_mem_filter hf), (length_filter_le ..).trans h.room⟩
      · exact h

/-- However the map changes in between, a connection is attributed to the current owner of its
remote address or to none, and the flows stay few. -/
theorem flowOwner_eq_identity (r : Runtime) (activities : List Activity) :
    let s := activities.foldl Runtime.act { r with flows := [] }
    s.flows.length ≤ maxFlows ∧ ∀ now key,
      (s.flowOwner now key).1 = none ∨ (s.flowOwner now key).1 = s.identity key.1.1 := by
  intro s
  have h : Attributed s := foldlRecOn activities _ ⟨nofun, Nat.zero_le _⟩ fun _ h a _ => h.act a
  refine ⟨h.room, fun now key => ?_⟩
  unfold flowOwner
  split
  · exact .inl rfl
  · next f hf =>
    obtain rfl : f.key = key := by simpa using find?_some hf
    split_ifs
    · exact .inl rfl
    · exact .inr (h.owned f (mem_of_find?_eq_some hf)).symm

end

example : ((noPeers.recordPacket 0 3
      (0x45#8 :: replicate 8 0 ++ 6 :: replicate 23 0 ++ [synFlag])).flowOwner 1
    ((.v4 0, 0), .v4 0, 0)).1 = some 3 := by decide

end Rustscale.PeerMap
