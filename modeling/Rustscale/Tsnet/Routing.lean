import Rustscale.Art.Refinement
import Rustscale.Tsnet.PeerMap

/-! Which peer a destination is sent to: by the longest route offered, or else the exit node. -/
namespace Rustscale.Routing
open Art Tailcfg List Option IpPrefix

structure RouteEntry where
  pfx : IpPrefix
  peer : PublicKey
  deriving DecidableEq

/-- The routes to peers, and how the exit node stands. -/
structure RouteTable where
  entries : List RouteEntry
  index : Table PublicKey
  acceptRoutes : Bool
  exitNode : Option PublicKey
  exitCapture : Bool
  exitBlocked : Bool

def peerRoutes (peer : Node) : List String :=
  if peer.allowedIps = [] then peer.addresses else peer.allowedIps

def parseCidr (cidr : String) : Option IpPrefix := (parse cidr).map masked

def isHostPrefix (p : IpPrefix) : Bool := p.bits == if p.addr.isIpv4 then 32 else 128

/-- A table while its routes are added. -/
structure Building where
  entries : List RouteEntry
  index : Table PublicKey

variable (routes : List (IpPrefix × PublicKey)) (acceptRoutes : Bool)

def addRoute (peer : PublicKey) (s : Building) (cidr : String) : Except Panic Building :=
  match parseCidr cidr with
  | none => .ok s
  | some pfx =>
    if pfx.bits = 0 ∨ (acceptRoutes = false ∧ isHostPrefix pfx = false) then .ok s
    else do
      let owner ← s.index.getPrefix pfx
      if owner.isSome then return s
      else
        let (index, _) ← s.index.insert pfx peer
        return ⟨s.entries ++ [⟨pfx, peer⟩], index⟩

def addPeerRoutes (s : Building) (peer : Node) : Except Panic Building :=
  if peer.key = 0 then .ok s else (peerRoutes peer).foldlM (addRoute acceptRoutes peer.key) s

namespace RouteTable

/-- The routes of the peers; the entries are sorted, the longest prefixes first. -/
def fromPeersWithOpts (peers : List Node) (acceptRoutes : Bool) : Except Panic RouteTable := do
  let s ← peers.foldlM (addPeerRoutes acceptRoutes) ⟨[], .new⟩
  return {
    entries := s.entries.mergeSort fun a b => b.pfx.bits ≤ a.pfx.bits
    index := s.index
    acceptRoutes
    exitNode := none
    exitCapture := false
    exitBlocked := false }

variable (t : RouteTable)

def lookupExplicit (ip : IpAddr) : Except Panic (Option PublicKey) := t.index.get ip

def lookup (ip : IpAddr) : Except Panic (Option PublicKey) := do
  let peer ← t.lookupExplicit ip
  return if t.exitBlocked then peer else peer.or t.exitNode

def setExitStateLatchAware (peer : Option PublicKey) (requested securityLatched : Bool) :
    RouteTable :=
  { t with exitNode := peer, exitCapture := requested, exitBlocked := securityLatched }

def exitNodeRequested : Bool := t.exitCapture

end RouteTable

def admits (p : IpPrefix) : Bool :=
  p.bits != 0 && (acceptRoutes || isHostPrefix p)

def offers (peer : PublicKey) (cidrs : List String) : List (IpPrefix × PublicKey) :=
  ((cidrs.filterMap parseCidr).filter (admits acceptRoutes)).map fun p => (p, peer)

def offered (peers : List Node) : List (IpPrefix × PublicKey) :=
  peers.flatMap fun peer =>
    if peer.key = 0 then [] else offers acceptRoutes peer.key (peerRoutes peer)

/-- The first peer that offers the longest of the routes that contain the address. -/
def Best (ip : IpAddr) (peer : PublicKey) : Prop :=
  ∃ p, routes.lookup p = some peer ∧ p.contains ip = true ∧
    ∀ r ∈ routes, r.1.contains ip = true → r.1.bits ≤ p.bits

def Unrouted (ip : IpAddr) : Prop :=
  ∀ r ∈ routes, r.1.contains ip = false

/-- A table holds the routes that were added so far. -/
structure Building.Tracks (s : Building) (routes : List (IpPrefix × PublicKey)) : Prop where
  inv : s.index.Inv
  index : ∀ p, s.index.abs p = routes.lookup p
  entries : ∀ p peer, ⟨p, peer⟩ ∈ s.entries ↔ routes.lookup p = some peer
  nodup : (s.entries.map RouteEntry.pfx).Nodup
  normal : ∀ r ∈ routes, r.1.Normal
  nonzero : ∀ r ∈ routes, r.1.bits ≠ 0

section Build
variable {acceptRoutes : Bool} {peer : PublicKey} {s : Building}
  {routes : List (IpPrefix × PublicKey)}

theorem lookup_concat (routes : List (IpPrefix × PublicKey)) (p q : IpPrefix) (peer : PublicKey) :
    (routes ++ [(p, peer)]).lookup q =
      (routes.lookup q).or (if q = p then some peer else none) := by
  rw [lookup_append]
  congr 1
  by_cases h : q = p
  · simp [h]
  · simp [lookup_cons, h, beq_eq_false_iff_ne.mpr h]

theorem mem_of_lookup {p : IpPrefix} (h : routes.lookup p = some peer) : (p, peer) ∈ routes := by
  obtain ⟨l1, l2, rfl, -⟩ := lookup_eq_some_iff.mp h
  simp

theorem isSome_lookup {p : IpPrefix} (h : (p, peer) ∈ routes) : (routes.lookup p).isSome := by
  by_contra hn
  have := lookup_eq_none_iff.mp (not_isSome_iff_eq_none.mp hn) _ h
  simp at this

theorem normal_of_parseCidr {cidr : String} {p : IpPrefix} (h : parseCidr cidr = some p) :
    p.Normal := by
  obtain ⟨q, hq, rfl⟩ := map_eq_some_iff.mp h
  exact masked_normal (parse_valid hq)

theorem Building.tracks_new : Building.Tracks ⟨[], .new⟩ [] where
  inv := Table.new_inv
  index p := by rw [Table.new_abs]; rfl
  entries p peer := by simp
  nodup := by simp
  normal := by simp
  nonzero := by simp

theorem Building.Tracks.offer_again (h : s.Tracks routes) {p : IpPrefix} (hp : p.Normal)
    (hz : p.bits ≠ 0) (hs : (routes.lookup p).isSome) (peer : PublicKey) :
    s.Tracks (routes ++ [(p, peer)]) := by
  have hl : ∀ q, (routes ++ [(p, peer)]).lookup q = routes.lookup q := by
    intro q
    rw [lookup_concat]
    by_cases hq : q = p
    · obtain ⟨owner, ho⟩ := isSome_iff_exists.mp hs
      rw [hq, ho]
      rfl
    · simp [hq]
  exact ⟨h.inv, fun q => by rw [hl]; exact h.index q, fun q k => by rw [hl]; exact h.entries q k,
    h.nodup, forall_mem_append.mpr ⟨h.normal, by simpa using hp⟩,
    forall_mem_append.mpr ⟨h.nonzero, by simpa using hz⟩⟩

/-- A new route enters the index and the entries alike. -/
theorem Building.Tracks.offer (h : s.Tracks routes) {p : IpPrefix} (hp : p.Normal)
    (hz : p.bits ≠ 0) (hn : routes.lookup p = none) (peer : PublicKey) :
    ∃ index, s.index.insert p peer = .ok (index, none) ∧
      Building.Tracks ⟨s.entries ++ [⟨p, peer⟩], index⟩ (routes ++ [(p, peer)]) := by
  obtain ⟨index, hins, hinv, habs⟩ := h.inv.insert hp.1 peer
  have hmask : p.masked = p := hp.masked_eq
  simp only [RouteMap.insert, hmask, h.index, hn] at hins habs
  refine ⟨index, hins, hinv, fun q => ?_, fun q k => ?_, ?_, ?_, ?_⟩
  · rw [habs, lookup_concat]
    by_cases hq : q = p
    · simp [hq, hn]
    · simp [hq, h.index]
  · rw [lookup_concat, mem_append, h.entries]
    by_cases hq : q = p
    · simp [hq, hn, eq_comm]
    · simp [hq]
  · rw [map_append, nodup_append]
    refine ⟨h.nodup, by simp, fun q hq r hr => ?_⟩
    obtain ⟨e, he, rfl⟩ := mem_map.mp hq
    have hr' : r = p := by simpa using hr
    rintro rfl
    rw [← hr', (h.entries e.pfx e.peer).mp he] at hn
    cases hn
  · exact forall_mem_append.mpr ⟨h.normal, by simpa using hp⟩
  · exact forall_mem_append.mpr ⟨h.nonzero, by simpa using hz⟩

/-- Step: one allowed prefix adds the routes it offers. -/
theorem Building.Tracks.addRoute (h : s.Tracks routes) (acceptRoutes : Bool) (peer : PublicKey)
    (cidr : String) : ∃ s', addRoute acceptRoutes peer s cidr = .ok s' ∧
      s'.Tracks (routes ++ offers acceptRoutes peer [cidr]) := by
  unfold Routing.addRoute
  cases hc : parseCidr cidr with
  | none => exact ⟨s, rfl, by simpa [offers, hc] using h⟩
  | some p =>
    have hp := normal_of_parseCidr hc
    by_cases hskip : p.bits = 0 ∨ (acceptRoutes = false ∧ isHostPrefix p = false)
    · refine ⟨s, by simp only [if_pos hskip], ?_⟩
      have ha : admits acceptRoutes p = false := by
        rcases hskip with h0 | ⟨ha, hh⟩
        · simp [admits, h0]
        · simp [admits, ha, hh]
      simpa [offers, hc, ha] using h
    · have hz : p.bits ≠ 0 := fun h0 => hskip (Or.inl h0)
      have ha : admits acceptRoutes p = true := by
        cases acceptRoutes <;> simp_all [admits]
      have ho : offers acceptRoutes peer [cidr] = [(p, peer)] := by simp [offers, hc, ha]
      have hget : s.index.getPrefix p = .ok (routes.lookup p) := by
        rw [h.inv.getPrefix, hp.masked_eq, h.index]
      simp only [if_neg hskip, hget, Checks.ok_bind, ho]
      cases hl : routes.lookup p with
      | some owner => exact ⟨s, rfl, h.offer_again hp hz (by simp [hl]) peer⟩
      | none =>
        obtain ⟨index, hins, ht⟩ := h.offer hp hz hl peer
        exact ⟨_, by simp [hins, pure, Except.pure], ht⟩

theorem offers_cons (cidr : String) (cidrs : List String) : offers acceptRoutes peer (cidr :: cidrs) =
    offers acceptRoutes peer [cidr] ++ offers acceptRoutes peer cidrs := by
  unfold offers
  rw [← map_append, ← filter_append, ← filterMap_append, singleton_append]

theorem Building.Tracks.addRoutes (acceptRoutes : Bool) (peer : PublicKey) (cidrs : List String)
    {s : Building} {routes : List (IpPrefix × PublicKey)} (h : s.Tracks routes) :
    ∃ s', cidrs.foldlM (Routing.addRoute acceptRoutes peer) s = .ok s' ∧
      s'.Tracks (routes ++ offers acceptRoutes peer cidrs) := by
  induction cidrs generalizing s routes with
  | nil => exact ⟨s, rfl, by simpa [offers] using h⟩
  | cons cidr cidrs ih =>
    obtain ⟨s1, h1, ht1⟩ := h.addRoute acceptRoutes peer cidr
    obtain ⟨s2, h2, ht2⟩ := ih ht1
    refine ⟨s2, by rw [foldlM_cons, h1]; exact h2, ?_⟩
    rwa [offers_cons, ← append_assoc]

theorem Building.Tracks.addPeers (acceptRoutes : Bool) (peers : List Node) {s : Building}
    {routes : List (IpPrefix × PublicKey)} (h : s.Tracks routes) :
    ∃ s', peers.foldlM (addPeerRoutes acceptRoutes) s = .ok s' ∧
      s'.Tracks (routes ++ offered acceptRoutes peers) := by
  induction peers generalizing s routes with
  | nil => exact ⟨s, rfl, by simpa [offered] using h⟩
  | cons p peers ih =>
    obtain ⟨s1, h1, ht1⟩ : ∃ s1, addPeerRoutes acceptRoutes s p = .ok s1 ∧ s1.Tracks
        (routes ++ if p.key = 0 then [] else offers acceptRoutes p.key (peerRoutes p)) := by
      unfold addPeerRoutes
      by_cases hk : p.key = 0
      · exact ⟨s, by simp [hk], by simpa [hk] using h⟩
      · rw [if_neg hk, if_neg hk]
        exact Building.Tracks.addRoutes acceptRoutes p.key (peerRoutes p) h
    obtain ⟨s2, h2, ht2⟩ := ih ht1
    refine ⟨s2, by rw [foldlM_cons, h1]; exact h2, ?_⟩
    rwa [offered, flatMap_cons, ← append_assoc]

end Build

def RouteTable.Holds (t : RouteTable) (routes : List (IpPrefix × PublicKey)) : Prop :=
  Building.Tracks ⟨t.entries, t.index⟩ routes

theorem RouteTable.fromPeersWithOpts_built (peers : List Node) (acceptRoutes : Bool) :
    ∃ t, fromPeersWithOpts peers acceptRoutes = .ok t ∧ t.acceptRoutes = acceptRoutes ∧
      t.Holds (offered acceptRoutes peers) ∧
      t.entries.Pairwise fun a b => b.pfx.bits ≤ a.pfx.bits := by
  obtain ⟨s, hs, ht⟩ := Building.tracks_new.addPeers acceptRoutes peers
  rw [nil_append] at ht
  refine ⟨_, by rw [fromPeersWithOpts, hs]; rfl, rfl, ⟨ht.inv, ht.index, fun p peer => ?_, ?_,
    ht.normal, ht.nonzero⟩, ?_⟩
  · rw [mem_mergeSort, ht.entries]
  · exact ((mergeSort_perm _ _).map _).nodup_iff.mpr ht.nodup
  · refine (pairwise_mergeSort (fun a b c => ?_) (fun a b => ?_) _).imp of_decide_eq_true
    · simpa using fun hab hbc => le_trans hbc hab
    · simpa using le_total b.pfx.bits a.pfx.bits

theorem RouteTable.fromPeersWithOpts_holds (peers : List Node) (acceptRoutes : Bool) :
    ∃ t, fromPeersWithOpts peers acceptRoutes = .ok t ∧ t.Holds (offered acceptRoutes peers) := by
  obtain ⟨t, hrun, -, ht, -⟩ := fromPeersWithOpts_built peers acceptRoutes
  exact ⟨t, hrun, ht⟩

section Lookup
variable {t : RouteTable} {routes : List (IpPrefix × PublicKey)}

theorem RouteTable.Holds.setExit (h : t.Holds routes) (peer : Option PublicKey)
    (requested securityLatched : Bool) :
    (t.setExitStateLatchAware peer requested securityLatched).Holds routes := h

/-- The lookup returns the peer of the best explicit route. -/
theorem RouteTable.Holds.lookupExplicit (h : t.Holds routes) (ip : IpAddr) :
    ∃ o, t.lookupExplicit ip = .ok o ∧ (∀ peer, o = some peer ↔ Best routes ip peer) ∧
      (o = none ↔ Unrouted routes ip) := by
  obtain ⟨o, ho, hlong⟩ := h.inv.get ip
  have habs : t.index.abs = fun p => routes.lookup p := funext h.index
  rw [habs] at hlong
  have hnone : o = none ↔ Unrouted routes ip := by
    have hsome := RouteMap.isLongestMatch_isSome hlong
    constructor
    · rintro rfl r hr
      by_contra hc
      have := hsome.mpr ⟨r.1, by simpa using hc, isSome_lookup hr⟩
      simp at this
    · intro hu
      by_contra hn
      obtain ⟨q, hq, hs⟩ := hsome.mp (isSome_iff_ne_none.mpr hn)
      obtain ⟨peer, hp⟩ := isSome_iff_exists.mp hs
      rw [hu _ (mem_of_lookup hp)] at hq
      cases hq
  refine ⟨o, ho, fun peer => ⟨?_, ?_⟩, hnone⟩
  · rintro rfl
    obtain ⟨p, -, -, hp, hv, hmax⟩ := hlong
    refine ⟨p, hv, hp, fun r hr hc => ?_⟩
    by_contra hlt
    have hs := isSome_lookup hr
    have hn : routes.lookup r.1 = none := hmax r.1 hc (by omega)
    rw [hn] at hs
    cases hs
  · rintro ⟨p, hv, hp, hmax⟩
    have hmem := mem_of_lookup hv
    refine hlong.unique ⟨p, h.normal _ hmem, isIpv6_of_contains hp, hp, hv, fun q hq hlt => ?_⟩
    by_contra hn
    obtain ⟨k, hk⟩ := ne_none_iff_exists'.mp hn
    exact absurd (hmax _ (mem_of_lookup hk) hq) (Nat.not_le.mpr hlt)

def SentTo (routes : List (IpPrefix × PublicKey)) (exit : Option PublicKey) (ip : IpAddr)
    (peer : PublicKey) : Prop :=
  Best routes ip peer ∨ Unrouted routes ip ∧ exit = some peer

def RouteTable.exit (t : RouteTable) : Option PublicKey := if t.exitBlocked then none else t.exitNode

theorem RouteTable.Holds.lookup (h : t.Holds routes) (ip : IpAddr) :
    ∃ o, t.lookup ip = .ok o ∧ ∀ peer, o = some peer ↔ SentTo routes t.exit ip peer := by
  obtain ⟨o, ho, hbest, hnone⟩ := h.lookupExplicit ip
  refine ⟨o.or t.exit, ?_, fun peer => ?_⟩
  · rw [RouteTable.lookup, ho, RouteTable.exit]
    cases t.exitBlocked <;> simp [pure, Except.pure]
  · unfold SentTo
    rw [← hbest, ← hnone]
    cases o <;> simp

theorem RouteTable.Holds.sentTo_unique {t : RouteTable} {routes : List (IpPrefix × PublicKey)}
    (h : t.Holds routes) {ip : IpAddr} {k k' : PublicKey} (hk : SentTo routes t.exit ip k)
    (hk' : SentTo routes t.exit ip k') : k = k' := by
  obtain ⟨o, -, ho⟩ := h.lookup ip
  exact some.inj (((ho k).mpr hk).symm.trans ((ho k').mpr hk'))

end Lookup

def RouteTable.iterEntries (t : RouteTable) : List (IpAddr × ℕ × PublicKey) :=
  t.entries.map fun entry => (entry.pfx.addr, entry.pfx.bits, entry.peer)

/-- The table with what the local API reads from it. -/
structure LocalRouteTable extends RouteTable where
  localapiDialBlocked : Bool
  localInterfaceAddrs : List IpAddr
  connectedInterfacePrefixes : List IpPrefix
  exitNodeAllowLanAccess : Bool

namespace LocalRouteTable
variable (t : LocalRouteTable) (peers : List Node) (acceptRoutes : Bool)

def fromPeersWithOpts : Except Panic LocalRouteTable := do
  let table ← RouteTable.fromPeersWithOpts peers acceptRoutes
  return ⟨table, false, [], [], false⟩

def rebuildWithOpts : Except Panic LocalRouteTable := do
  let built ← fromPeersWithOpts peers acceptRoutes
  return { built with
    exitNode := t.exitNode
    exitCapture := t.exitCapture
    exitBlocked := t.exitBlocked
    localapiDialBlocked := t.localapiDialBlocked
    localInterfaceAddrs := t.localInterfaceAddrs
    connectedInterfacePrefixes := t.connectedInterfacePrefixes
    exitNodeAllowLanAccess := t.exitNodeAllowLanAccess }

def rebuild : Except Panic LocalRouteTable := t.rebuildWithOpts peers t.acceptRoutes

end LocalRouteTable

theorem mem_offered {r : IpPrefix × PublicKey} {peers : List Node}
    (h : r ∈ offered acceptRoutes peers) :
    r.1.bits ≠ 0 ∧ (acceptRoutes = false → isHostPrefix r.1 = true) := by
  obtain ⟨peer, -, hr⟩ := mem_flatMap.mp h
  split_ifs at hr with hk
  · cases hr
  · obtain ⟨p, hp, rfl⟩ := mem_map.mp hr
    have hadmits := (mem_filter.mp hp).2
    cases acceptRoutes <;> simpa [admits] using hadmits

/-- What a table built from the peers answers: lookups, by routes of the peers that are admitted,
and the list of the entries. -/
structure RouteTable.Serves (t : RouteTable) (peers : List Node) : Prop where
  admitted : ∀ r ∈ offered t.acceptRoutes peers,
    r.1.bits ≠ 0 ∧ (t.acceptRoutes = false → isHostPrefix r.1 = true)
  lookup : ∀ ip, ∃ o, t.lookup ip = .ok o ∧
    ∀ peer, o = some peer ↔ SentTo (offered t.acceptRoutes peers) t.exit ip peer
  index : ∀ p, t.index.abs p = (offered t.acceptRoutes peers).lookup p
  entries : ∀ addr bits peer,
    (addr, bits, peer) ∈ t.iterEntries ↔ t.index.abs ⟨addr, bits⟩ = some peer
  nodup : t.iterEntries.Nodup
  longestFirst : t.iterEntries.Pairwise fun a b => b.2.1 ≤ a.2.1

theorem RouteTable.Holds.serves {t : RouteTable} {peers : List Node}
    (h : t.Holds (offered t.acceptRoutes peers))
    (hsort : t.entries.Pairwise fun a b => b.pfx.bits ≤ a.pfx.bits) : t.Serves peers where
  admitted _ := mem_offered t.acceptRoutes
  lookup := h.lookup
  index := h.index
  entries addr bits peer := by
    rw [h.index, ← h.entries]
    refine mem_map.trans ?_
    constructor
    · rintro ⟨entry, hmem, ⟨⟩⟩
      exact hmem
    · intro hmem
      exact ⟨_, hmem, rfl⟩
  nodup := by
    have hnodup := Nodup.of_map _ h.nodup
    refine hnodup.map ?_
    rintro ⟨⟨_, _⟩, _⟩ ⟨⟨_, _⟩, _⟩ ⟨⟩
    rfl
  longestFirst := pairwise_map.mpr hsort

/-- A new table serves its peers under any setting of the exit node, and so does a rebuilt one,
which is the old one but for the routes. -/
theorem LocalRouteTable.rebuild_serves (t : LocalRouteTable) (peers : List Node)
    (acceptRoutes : Bool) :
    (∀ exitNode exitCapture exitBlocked, ∃ t',
      RouteTable.fromPeersWithOpts peers acceptRoutes = .ok t' ∧ t'.acceptRoutes = acceptRoutes ∧
      { t' with exitNode, exitCapture, exitBlocked : RouteTable }.Serves peers) ∧
    ∃ t', t.rebuildWithOpts peers acceptRoutes = .ok t' ∧
      (acceptRoutes = t.acceptRoutes → t.rebuild peers = .ok t') ∧
      t'.Serves peers ∧ t'.acceptRoutes = acceptRoutes ∧
      { t' with entries := t.entries, index := t.index, acceptRoutes := t.acceptRoutes } = t := by
  obtain ⟨built, hrun, rfl, hholds, hsort⟩ := RouteTable.fromPeersWithOpts_built peers acceptRoutes
  refine ⟨fun _ _ _ => ⟨built, hrun, rfl, RouteTable.Holds.serves hholds hsort⟩, ?_⟩
  have hrebuilt : t.rebuildWithOpts peers built.acceptRoutes = .ok { t with
      entries := built.entries, index := built.index, acceptRoutes := built.acceptRoutes } := by
    rw [rebuildWithOpts, fromPeersWithOpts, hrun]
    rfl
  refine ⟨_, hrebuilt, fun h => ?_, RouteTable.Holds.serves hholds hsort, rfl, rfl⟩
  rwa [rebuild, ← h]

end Rustscale.Routing
