import Rustscale.Router.Transactions
import Rustscale.Tsnet.Routing

/-! The router configuration against its route table and against the configurations that may follow
it. -/
namespace Rustscale.KernelRoutes
open IpAddr Tsaddr Router Routing Tailcfg Undo Item PacketFilter.IpPrefix RouteTable

def magicdnsVip : IpAddr := .v4 0x64646464

/-- The two halves of a prefix, or the prefix itself if it is a single address. -/
def moreSpecificChildren (p : IpPrefix) : List IpPrefix :=
  if (if p.addr.isIpv4 then 32 else 128) ≤ p.bits then [p]
  else
    let bits := p.bits + 1
    match p.addr with
    | .v4 a => [⟨.v4 a, bits⟩, ⟨.v4 (a ||| 1#32 <<< (32 - bits)), bits⟩]
    | .v6 a => [⟨.v6 a, bits⟩, ⟨.v6 (a ||| 1#128 <<< (128 - bits)), bits⟩]

def buildRouterConfigWithLocalRoutes (localAddrs : List IpAddr) (routeTable : RouteTable)
    (exitNodeAllowLanAccess : Bool) (localInterfacePrefixes : List IpPrefix) : RouterConfig :=
  let prefixes := dedup (sortPrefixes localInterfacePrefixes)
  let exitNode := routeTable.exitNodeRequested
  let routes := [⟨magicdnsVip, 32⟩, cgnatRange] ++
    -- halves outrank the connected routes without replacing them
    (if exitNode && !exitNodeAllowLanAccess then prefixes.flatMap moreSpecificChildren else []) ++
    (routeTable.entries.filter fun e => e.pfx.bits != 0 && !isTailscaleIp e.pfx.addr).map
      fun e => ⟨e.pfx.addr, e.pfx.bits⟩
  { localAddrs := (localAddrs ++ [magicdnsVip]).map normalizeIp
    routes := dedup (sortPrefixes routes)
    localRoutes := if exitNode && exitNodeAllowLanAccess then prefixes else []
    exitNode }

/-- The prefix as the router works with it. -/
def normalPrefix (p : IpPrefix) : IpPrefix := ⟨maskIp (normalizeIp p.addr) p.bits, p.bits⟩

def FamilyFits (p : IpPrefix) : Prop := p.bits ≤ if (normalizeIp p.addr).isIpv4 then 32 else 128

/-- What a configuration is built from: a table of the routes that peers have offered. -/
structure Inputs where
  localAddrs : List IpAddr
  routeTable : RouteTable
  offered : List (Art.IpPrefix × PublicKey)
  holds : routeTable.Holds offered
  allowLan : Bool
  connected : List IpPrefix

namespace Inputs
variable (i j : Inputs)

def config : RouterConfig :=
  buildRouterConfigWithLocalRoutes i.localAddrs i.routeTable i.allowLan i.connected

abbrev exitNode : Bool := i.routeTable.exitNodeRequested

/-- The router takes the configuration, in this form. -/
def Applied (n : RouterConfig) : Prop := i.config.normalized = .ok n

end Inputs

def tunRoutes (config : RouterConfig) : List IpPrefix :=
  config.routes ++ if config.exitNode then exitRoutes else []

/-- The longest route of the kernel leads into the TUN. -/
def Captures (config : RouterConfig) (ip : IpAddr) : Prop :=
  ∃ p ∈ tunRoutes config, p.contains ip = true ∧
    ∀ q ∈ config.localRoutes, q.contains ip = true → q.bits < p.bits

/-- No prefix is both a route into the TUN and a bypass. -/
def Unambiguous (config : RouterConfig) : Prop := ∀ p ∈ config.localRoutes, p ∉ tunRoutes config

/-- The table of the kernel under a configuration, with one route for each prefix. -/
def kernelTable (config : RouterConfig) : Slot → Option Item
  | .addr ip => if ip ∈ config.localAddrs then some (.addr ip) else none
  | .net p =>
    if p ∈ config.localRoutes then some (.throwRoute p)
    else if p ∈ tunRoutes config then some (.route p)
    else none
  | _ => none

/-- The operations lead from one configuration to another with no duplicate and nothing missing. -/
def Switches (config config' : RouterConfig) : Prop :=
  Smooth slot (kernelTable config) ((diff (some config) config').operations.flatMap commands)

namespace Inputs
variable (i j : Inputs)

/-- An offered route that is installed by itself, not by the range of the tailnet. -/
def Installed (p : IpPrefix) : Prop :=
  ∃ r ∈ i.offered, p = ⟨r.1.addr, r.1.bits⟩ ∧ isTailscaleIp r.1.addr = false

/-- The connected prefixes as bypasses. -/
def bypasses : List IpPrefix := i.connected.map normalPrefix

/-- The connected prefixes as routes into the TUN. -/
def halves : List IpPrefix := (i.connected.flatMap moreSpecificChildren).map normalPrefix

/-- No prefix is too long for its family. -/
def Accepted : Prop :=
  (∀ p, i.Installed p → FamilyFits p) ∧ (i.exitNode = true →
    ∀ q ∈ if i.allowLan then i.connected else i.connected.flatMap moreSpecificChildren, FamilyFits q)

/-- With an exit node and without access to the LAN always; without an exit node if it is IPv4 or in
a route that does not start in the IPv6 range of the tailnet; with access to the LAN if a longer
route leads into the TUN for each connected prefix with it. -/
def Reaches (ip : IpAddr) : Prop :=
  if i.exitNode then
    i.allowLan = true → ∀ q ∈ i.bypasses, q.contains ip = true →
      q.bits < 10 ∧ cgnatRange.contains ip = true ∨ q.bits < 32 ∧ ip = magicdnsVip ∨
        ∃ p, i.Installed p ∧ p.contains ip = true ∧ q.bits < p.bits
  else ip.isIpv4 = true ∨
    ∃ r ∈ i.offered, r.1.contains ip = true ∧ tailscaleUlaRange.contains r.1.addr = false

/-- No bypass of one configuration is a route into the TUN of another. -/
def Apart : Prop :=
  i.exitNode = true → i.allowLan = true → ∀ q ∈ i.bypasses,
    q ≠ ⟨magicdnsVip, 32⟩ ∧ q ≠ cgnatRange ∧ q ∉ exitRoutes ∧ ¬j.Installed q ∧
      (j.exitNode = true → j.allowLan = false → q ∉ j.halves)

end Inputs

theorem normalizePrefixes_eq_ok {l out : List IpPrefix} :
    normalizePrefixes l = .ok out ↔ (∀ p ∈ l, FamilyFits p) ∧ l.map normalPrefix = out := by
  induction l generalizing out with
  | nil => simp [normalizePrefixes, pure, Except.pure]
  | cons p l ih =>
    rw [normalizePrefixes, List.mapM_cons, ← normalizePrefixes, List.forall_mem_cons, List.map_cons]
    simp only [Checks.bind_eq_ok, ih]
    by_cases hp : FamilyFits p
    · rw [if_neg (not_lt.mpr hp)]
      simp [hp, normalPrefix, pure, Except.pure]
    · rw [if_pos (not_le.mp hp)]
      simp [hp]

theorem normalized_eq_ok {c n : RouterConfig} : c.normalized = .ok n ↔
    (∀ p ∈ c.routes, FamilyFits p) ∧ (∀ p ∈ c.localRoutes, FamilyFits p) ∧
      n = ⟨dedup ((c.localAddrs.map normalizeIp).mergeSort ipLe),
        dedup (sortPrefixes (c.routes.map normalPrefix)),
        dedup (sortPrefixes (c.localRoutes.map normalPrefix)), c.exitNode⟩ := by
  simp only [RouterConfig.normalized, Checks.bind_eq_ok, normalizePrefixes_eq_ok]
  constructor
  · rintro ⟨_, ⟨hr, rfl⟩, _, ⟨hl, rfl⟩, h⟩
    cases h
    exact ⟨hr, hl, rfl⟩
  · rintro ⟨hr, hl, rfl⟩
    exact ⟨_, ⟨hr, rfl⟩, _, ⟨hl, rfl⟩, rfl⟩

theorem getMsbD_mask {w : ℕ} (a : BitVec w) (bits : ℕ) {i : ℕ} (h : i < w) :
    (a &&& (BitVec.allOnes w <<< (w - bits))).getMsbD i = (a.getMsbD i && decide (i < bits)) := by
  rw [BitVec.getMsbD_and, BitVec.getMsbD_shiftLeft, BitVec.getMsbD_allOnes]
  congr 2
  exact propext (by omega)

theorem normalPrefix_eq {p : IpPrefix} (hp : FamilyFits p)
    (hn : ∀ i, p.bits ≤ i → p.addr.bit i = false) : normalPrefix p = p := by
  obtain ⟨ip, bits⟩ := p
  have hip : normalizeIp ip = ip := by
    cases ip with
    | v4 a => rfl
    | v6 a =>
      refine if_neg fun hmapped => ?_
      have hv4 : normalizeIp (.v6 a) = .v4 (BitVec.ofNat 32 a.toNat) := if_pos hmapped
      have hb : bits ≤ 32 := by
        rw [FamilyFits, hv4] at hp
        exact hp
      -- a mapped address has ones after the eightieth bit
      have := hn 80 (hb.trans (by norm_num))
      simp [bit, BitVec.getMsbD, BitVec.getLsbD, Nat.testBit] at this
      omega
  have hmask : maskIp ip bits = ip := by
    refine ext_bit (by cases ip <;> rfl) fun i hi => ?_
    have hand : (maskIp ip bits).bit i = (ip.bit i && decide (i < bits)) := by
      cases ip <;> exact getMsbD_mask _ bits hi
    rw [hand]
    by_cases hlt : i < bits
    · simp [hlt]
    · simp [hn i (not_lt.mp hlt)]
  rw [normalPrefix, hip, hmask]
namespace Inputs
variable {i j : Inputs} {n m : RouterConfig} {p : IpPrefix} {ip : IpAddr}

theorem mem_entries : (∃ e ∈ i.routeTable.entries, e.pfx.bits ≠ 0 ∧
    isTailscaleIp e.pfx.addr = false ∧ ⟨e.pfx.addr, e.pfx.bits⟩ = p) ↔ i.Installed p := by
  constructor
  · rintro ⟨e, he, -, hts, rfl⟩
    exact ⟨(e.pfx, e.peer), mem_of_lookup ((i.holds.entries e.pfx e.peer).mp he), rfl, hts⟩
  · rintro ⟨r, hr, rfl, hts⟩
    obtain ⟨peer, hpeer⟩ := Option.isSome_iff_exists.mp (isSome_lookup hr)
    exact ⟨⟨r.1, peer⟩, (i.holds.entries _ _).mpr hpeer, i.holds.nonzero r hr, hts, rfl⟩

theorem mem_config_routes : p ∈ i.config.routes ↔ p = ⟨magicdnsVip, 32⟩ ∨ p = cgnatRange ∨
    (i.exitNode = true ∧ i.allowLan = false ∧ p ∈ i.connected.flatMap moreSpecificChildren) ∨
    i.Installed p := by
  rw [← mem_entries]
  simp [config, buildRouterConfigWithLocalRoutes, and_assoc]

theorem mem_config_localRoutes :
    p ∈ i.config.localRoutes ↔ i.exitNode = true ∧ i.allowLan = true ∧ p ∈ i.connected := by
  simp [config, buildRouterConfigWithLocalRoutes, and_assoc]

theorem exists_applied_iff : (∃ n, i.Applied n) ↔ i.Accepted := by
  simp only [Applied, normalized_eq_ok, mem_config_routes, mem_config_localRoutes, Accepted]
  constructor
  · rintro ⟨n, hr, hl, -⟩
    refine ⟨fun p hp => hr p (.inr (.inr (.inr hp))), fun hexit q hq => ?_⟩
    split_ifs at hq with hlan
    · exact hl q ⟨hexit, hlan, hq⟩
    · exact hr q (.inr (.inr (.inl ⟨hexit, by simpa using hlan, hq⟩)))
  · rintro ⟨hinst, hconn⟩
    refine ⟨_, ?_, fun p ⟨hexit, hlan, hp⟩ => hconn hexit p (by rwa [if_pos hlan]), rfl⟩
    rintro p (rfl | rfl | ⟨hexit, hlan, hp⟩ | hp)
    iterate 2 · norm_num [FamilyFits, normalizeIp, magicdnsVip, cgnatRange, isIpv4, IpAddr.isIpv6]
    · exact hconn hexit p (by rwa [if_neg (by simp [hlan])])
    · exact hinst p hp

theorem Installed.bit (h : i.Installed p) {k : ℕ} (hk : p.bits ≤ k) : p.addr.bit k = false := by
  obtain ⟨r, hr, rfl, -⟩ := h
  exact (i.holds.normal r hr).2 k hk

/-- The routes of an applied configuration, by where they come from. -/
theorem Applied.mem_routes (h : i.Applied n) : p ∈ n.routes ↔
    p = ⟨magicdnsVip, 32⟩ ∨ p = cgnatRange ∨
      (i.exitNode = true ∧ i.allowLan = false ∧ p ∈ i.halves) ∨ i.Installed p := by
  have hinst : ∀ p, i.Installed p → normalPrefix p = p := fun p hp =>
    normalPrefix_eq ((exists_applied_iff.mp ⟨n, h⟩).1 p hp) fun _ => hp.bit
  obtain ⟨-, -, rfl⟩ := normalized_eq_ok.mp h
  simp only [mem_dedup, mem_sortPrefixes, List.mem_map, mem_config_routes, halves]
  constructor
  · rintro ⟨q, rfl | rfl | ⟨hexit, hlan, hq⟩ | hq, rfl⟩
    · exact .inl (by decide)
    · exact .inr (.inl (by decide))
    · exact .inr (.inr (.inl ⟨hexit, hlan, q, hq, rfl⟩))
    · exact .inr (.inr (.inr (by rwa [hinst q hq])))
  · rintro (rfl | rfl | ⟨hexit, hlan, q, hq, rfl⟩ | hp)
    · exact ⟨_, .inl rfl, by decide⟩
    · exact ⟨_, .inr (.inl rfl), by decide⟩
    · exact ⟨q, .inr (.inr (.inl ⟨hexit, hlan, hq⟩)), rfl⟩
    · exact ⟨p, .inr (.inr (.inr hp)), hinst p hp⟩

theorem Applied.mem_localRoutes (h : i.Applied n) :
    p ∈ n.localRoutes ↔ i.exitNode = true ∧ i.allowLan = true ∧ p ∈ i.bypasses := by
  obtain ⟨-, -, rfl⟩ := normalized_eq_ok.mp h
  simp [mem_config_localRoutes, bypasses, and_assoc]

theorem Applied.exitNode (h : i.Applied n) : n.exitNode = i.exitNode := by
  obtain ⟨-, -, rfl⟩ := normalized_eq_ok.mp h
  rfl

theorem Applied.mem_tunRoutes (h : i.Applied n) :
    p ∈ tunRoutes n ↔ p ∈ n.routes ∨ i.exitNode = true ∧ p ∈ exitRoutes := by
  rw [tunRoutes, List.mem_append, h.exitNode]
  cases i.exitNode <;> simp

theorem bits_of_mem_children {q : IpPrefix} (h : p ∈ moreSpecificChildren q) : p.bits ≠ 0 := by
  rw [moreSpecificChildren] at h
  generalize hlen : (if q.addr.isIpv4 then 32 else 128) = len at h
  have hpos : 0 < len := by split at hlen <;> omega
  split at h
  next hlong =>
    obtain rfl := List.mem_singleton.mp h
    omega
  next =>
    dsimp only at h
    split at h <;> rcases List.mem_pair.mp h with rfl | rfl <;> exact Nat.succ_ne_zero _

theorem Applied.bits_of_mem_routes (h : i.Applied n) (hp : p ∈ n.routes) : p.bits ≠ 0 := by
  rcases h.mem_routes.mp hp with rfl | rfl | ⟨-, -, hp⟩ | ⟨r, hr, rfl, -⟩
  · decide
  · decide
  · obtain ⟨c, hc, rfl⟩ := List.mem_map.mp hp
    obtain ⟨q, -, hq⟩ := List.mem_flatMap.mp hc
    exact bits_of_mem_children (p := c) hq
  · exact i.holds.nonzero r hr

theorem lookupExplicit_iff :
    (∃ peer, i.routeTable.lookupExplicit ip = .ok (some peer)) ↔
      ∃ r ∈ i.offered, r.1.contains ip = true := by
  obtain ⟨o, ho, -, hnone⟩ := i.holds.lookupExplicit ip
  rw [ho]
  cases o with
  | some peer =>
    refine ⟨fun _ => ?_, fun _ => ⟨peer, rfl⟩⟩
    by_contra hun
    exact absurd (hnone.mpr fun r hr => by simpa using fun h => hun ⟨r, hr, h⟩) (by simp)
  | none =>
    refine ⟨fun ⟨peer, h⟩ => absurd h (by simp), fun ⟨r, hr, h⟩ => ?_⟩
    rw [hnone.mp rfl r hr] at h
    cases h

theorem contains_eq {r : Art.IpPrefix} (hr : r.Normal) :
    PacketFilter.IpPrefix.contains ⟨r.addr, r.bits⟩ ip = r.contains ip := by
  rw [Bool.eq_iff_iff, contains_iff, Art.IpPrefix.contains_iff]
  have hvalid : r.bits ≤ r.addr.bitLen := hr.1
  simp only [hvalid, true_and]
  exact Iff.rfl

theorem cgnat_of_route {r : Art.IpPrefix} (hr : r.Normal) (hv4 : r.addr.isIpv4 = true)
    (hts : isTailscaleIp r.addr = true) (hip : r.contains ip = true) :
    cgnatRange.contains ip = true := by
  have hcgnat : cgnatRange.contains r.addr = true := by
    cases haddr : r.addr with
    | v4 a => simp_all [isTailscaleIp, isTailscaleIpv4]
    | v6 a => simp [haddr, isIpv4, IpAddr.isIpv6] at hv4
  rw [contains_iff] at hcgnat ⊢
  obtain ⟨hfam, hbits, hagree⟩ := hcgnat
  obtain ⟨hfam', hagree'⟩ := (Art.IpPrefix.contains_iff r ip).mp hip
  refine ⟨hfam.trans hfam', hbits, hagree.trans (hagree'.mono ?_)⟩
  -- the tenth bit of the range is set
  by_contra hlt
  have hbit := hagree 9 (by decide)
  rw [hr.2 9 (by simp only [cgnatRange] at hlt; omega)] at hbit
  exact absurd hbit (by decide)

theorem contains_vip : PacketFilter.IpPrefix.contains ⟨magicdnsVip, 32⟩ ip = true ↔ ip = magicdnsVip := by
  rw [contains_iff]
  constructor
  · rintro ⟨hfam, -, hagree⟩
    have hlen : ip.bitLen = 32 := by rw [bitLen, ← hfam]; rfl
    exact ext_bit hfam.symm fun k hk => (hagree k (hk.trans_eq hlen)).symm
  · rintro rfl
    exact ⟨rfl, by decide, Agree.refl _ _⟩

theorem isIpv4_of_contains {q : IpPrefix} (hq : q.addr.isIpv4 = true) (h : q.contains ip = true) :
    ip.isIpv4 = true := by
  rw [isIpv4, ← ((contains_iff q ip).mp h).1]
  exact hq

theorem exists_exitRoute (ip : IpAddr) : ∃ p ∈ exitRoutes, p.bits = 0 ∧ p.contains ip = true := by
  cases ip with
  | v4 a => exact ⟨allIpv4, by decide, rfl, rfl⟩
  | v6 a => exact ⟨allIpv6, by decide, rfl, rfl⟩

theorem isTailscaleIp_of_isIpv6 {a : IpAddr} (h : a.isIpv4 = false) :
    isTailscaleIp a = tailscaleUlaRange.contains a := by
  cases a with
  | v4 a => simp [isIpv4, IpAddr.isIpv6] at h
  | v6 a => rfl

theorem isIpv4_of_route {r : Art.IpPrefix} (h : r.contains ip = true) :
    r.addr.isIpv4 = ip.isIpv4 := congrArg not ((Art.IpPrefix.contains_iff r ip).mp h).1

theorem Applied.exists_route (hn : i.Applied n) {r : Art.IpPrefix × PublicKey} (hr : r ∈ i.offered)
    (hip : r.1.contains ip = true) (hv4 : ip.isIpv4 = true) :
    ∃ p ∈ n.routes, p.contains ip = true := by
  have hnormal := i.holds.normal r hr
  cases hts : isTailscaleIp r.1.addr with
  | true =>
    exact ⟨cgnatRange, hn.mem_routes.mpr (.inr (.inl rfl)),
      cgnat_of_route hnormal ((isIpv4_of_route hip).trans hv4) hts hip⟩
  | false =>
    exact ⟨_, hn.mem_routes.mpr (.inr (.inr (.inr ⟨r, hr, rfl, hts⟩))), (contains_eq hnormal).trans hip⟩

/-- Without an exit node, IPv6 peers inside the Tailscale range are not captured. -/
theorem Applied.captures_iff_without_exit (hn : i.Applied n) (hexit : i.exitNode = false)
    (hrouted : ∃ r ∈ i.offered, r.1.contains ip = true) :
    Captures n ip ↔ ip.isIpv4 = true ∨ ∃ r ∈ i.offered,
      r.1.contains ip = true ∧ tailscaleUlaRange.contains r.1.addr = false := by
  have hcaptures : Captures n ip ↔ ∃ p ∈ n.routes, p.contains ip = true := by
    simp [Captures, hn.mem_tunRoutes, hn.mem_localRoutes, hexit]
  rw [hcaptures]
  constructor
  · rintro ⟨p, hp, hip⟩
    rcases hn.mem_routes.mp hp with rfl | rfl | ⟨h, -⟩ | ⟨r, hr, rfl, hts⟩
    iterate 2 · exact .inl (isIpv4_of_contains rfl hip)
    · simp [hexit] at h
    · rw [contains_eq (i.holds.normal r hr)] at hip
      cases hv4 : ip.isIpv4 with
      | true => exact .inl rfl
      | false => exact .inr ⟨r, hr, hip, by
          rw [← isTailscaleIp_of_isIpv6 ((isIpv4_of_route hip).trans hv4), hts]⟩
  · intro h
    cases hv4 : ip.isIpv4 with
    | true =>
      obtain ⟨r, hr, hip⟩ := hrouted
      exact hn.exists_route hr hip hv4
    | false =>
      obtain ⟨r, hr, hip, hula⟩ := h.resolve_left (by simp [hv4])
      have hts : isTailscaleIp r.1.addr = false := by
        rw [isTailscaleIp_of_isIpv6 ((isIpv4_of_route hip).trans hv4), hula]
      exact ⟨_, hn.mem_routes.mpr (.inr (.inr (.inr ⟨r, hr, rfl, hts⟩))),
        (contains_eq (i.holds.normal r hr)).trans hip⟩

/-- With LAN access, a bypass takes an address unless a longer route does. -/
theorem Applied.captures_iff_with_lan (hn : i.Applied n) (hexit : i.exitNode = true) (hlan : i.allowLan = true) :
    Captures n ip ↔ ∀ q ∈ i.bypasses, q.contains ip = true →
      q.bits < 10 ∧ cgnatRange.contains ip = true ∨ q.bits < 32 ∧ ip = magicdnsVip ∨
        ∃ p, i.Installed p ∧ p.contains ip = true ∧ q.bits < p.bits := by
  have hlocal : ∀ q, q ∈ n.localRoutes ↔ q ∈ i.bypasses := by
    simp [hn.mem_localRoutes, hexit, hlan]
  constructor
  · rintro ⟨p, hp, hip, hlong⟩ q hq hqip
    have hlt := hlong q ((hlocal q).mpr hq) hqip
    rcases hn.mem_tunRoutes.mp hp with hp | ⟨-, hp⟩
    · rcases hn.mem_routes.mp hp with rfl | rfl | ⟨-, h, -⟩ | hp
      · exact .inr (.inl ⟨hlt, contains_vip.mp hip⟩)
      · exact .inl ⟨hlt, hip⟩
      · simp [hlan] at h
      · exact .inr (.inr ⟨p, hp, hip, hlt⟩)
    · have hzero : p.bits = 0 := by
        rcases List.mem_pair.mp hp with rfl | rfl <;> rfl
      omega
  · intro h
    by_cases hnone : ∃ q ∈ i.bypasses, q.contains ip = true
    · -- the longest connected prefix with the address
      have hne : (i.bypasses.filter (·.contains ip)).toFinset.Nonempty := by
        obtain ⟨q, hq, hqip⟩ := hnone
        exact ⟨q, by simp [hq, hqip]⟩
      obtain ⟨q, hq, hmax⟩ := Finset.exists_max_image _ bits hne
      obtain ⟨hq, hqip⟩ : q ∈ i.bypasses ∧ q.contains ip = true := by simpa using hq
      obtain ⟨p, hp, hip, hlt⟩ : ∃ p ∈ n.routes, p.contains ip = true ∧ q.bits < p.bits := by
        rcases h q hq hqip with ⟨hlt, hip⟩ | ⟨hlt, rfl⟩ | ⟨p, hp, hip, hlt⟩
        · exact ⟨_, hn.mem_routes.mpr (.inr (.inl rfl)), hip, hlt⟩
        · exact ⟨_, hn.mem_routes.mpr (.inl rfl), contains_vip.mpr rfl, hlt⟩
        · exact ⟨p, hn.mem_routes.mpr (.inr (.inr (.inr hp))), hip, hlt⟩
      refine ⟨p, hn.mem_tunRoutes.mpr (.inl hp), hip, fun q' hq' hqip' => ?_⟩
      exact (hmax q' (by simp [(hlocal q').mp hq', hqip'])).trans_lt hlt
    · obtain ⟨p, hp, -, hip⟩ := exists_exitRoute ip
      exact ⟨p, hn.mem_tunRoutes.mpr (.inr ⟨hexit, hp⟩), hip, fun q hq hqip =>
        absurd ⟨q, (hlocal q).mp hq, hqip⟩ hnone⟩

theorem Applied.captures_iff (hn : i.Applied n) (hrouted : ∃ r ∈ i.offered, r.1.contains ip = true) :
    Captures n ip ↔ i.Reaches ip := by
  rw [Reaches]
  cases hexit : i.exitNode with
  | false => simpa using hn.captures_iff_without_exit hexit hrouted
  | true =>
    cases hlan : i.allowLan with
    | true => simpa using hn.captures_iff_with_lan hexit hlan
    | false =>
      obtain ⟨p, hp, -, hip⟩ := exists_exitRoute ip
      simp only [if_true, Bool.false_eq_true, false_implies, iff_true]
      exact ⟨p, hn.mem_tunRoutes.mpr (.inr ⟨hexit, hp⟩), hip, by simp [hn.mem_localRoutes, hlan]⟩

end Inputs

section
variable (c c' : RouterConfig)

section
variable {t : Slot}

theorem on_ite (b : Bool) (l : List CommandSpec) :
    on slot t (if b then l else []) = if b then on slot t l else [] := by
  cases b <;> rfl

theorem on_nets {p : IpPrefix} {l : List IpPrefix} (hl : l.Nodup) (f : IpPrefix → CommandSpec)
    (hf : ∀ q, (f q).item.slot = .net q) :
    on slot (.net p) (l.map f) = if p ∈ l then [f p] else [] :=
  on_map_of_nodup hl f fun q => by rw [hf, Slot.net.injEq]

end

/-- The commands of a switch that touch one destination prefix. -/
theorem on_net (p : IpPrefix) :
    on slot (.net p) ((diff (some c) c').operations.flatMap commands) =
      (if c.exitNode = true ∧ c'.exitNode = false ∧ p ∈ exitRoutes
        then [take (Item.route p)] else []) ++
      (if p ∈ c'.localRoutes ∧ p ∉ c.localRoutes then [put (Item.throwRoute p)] else []) ++
      (if p ∈ c'.routes ∧ p ∉ c.routes then [put (Item.route p)] else []) ++
      (if p ∈ c.localRoutes ∧ p ∉ c'.localRoutes then [take (Item.throwRoute p)] else []) ++
      (if p ∈ c.routes ∧ p ∉ c'.routes then [take (Item.route p)] else []) ++
      (if c.exitNode = false ∧ c'.exitNode = true ∧ p ∈ exitRoutes
        then [put (Item.route p)] else []) := by
  have hexits : exitRoutes.Nodup := by decide
  have haddr : ∀ (l : List IpAddr) (puts : Bool),
      on slot (.net p) (l.map fun a => (⟨puts, .addr a⟩ : CommandSpec)) = [] :=
    fun l puts => on_map_of_ne l _ (by simp [slot])
  have hremove : (diff (some c) c').removeExitRoutes = true ↔ c.exitNode = true ∧ c'.exitNode = false := by
    simp [diff]
  have hadd : (diff (some c) c').addExitRoutes = true ↔ c.exitNode = false ∧ c'.exitNode = true := by
    simp [diff]
  have hlists : (diff (some c) c').addLocalRoutes = vecDifference c'.localRoutes c.localRoutes ∧
      (diff (some c) c').addRoutes = vecDifference c'.routes c.routes ∧
      (diff (some c) c').removeLocalRoutes = vecDifference c.localRoutes c'.localRoutes ∧
      (diff (some c) c').removeRoutes = vecDifference c.routes c'.routes := ⟨rfl, rfl, rfl, rfl⟩
  rw [operations_commands, hlists.1, hlists.2.1, hlists.2.2.1, hlists.2.2.2]
  simp only [on_append, on_ite, haddr, List.append_nil]
  rw [on_nets hexits _ fun _ => rfl, on_nets hexits _ fun _ => rfl,
    on_nets (nodup_vecDifference c'.localRoutes c.localRoutes) _ fun _ => rfl,
    on_nets (nodup_vecDifference c'.routes c.routes) _ fun _ => rfl,
    on_nets (nodup_vecDifference c.localRoutes c'.localRoutes) _ fun _ => rfl,
    on_nets (nodup_vecDifference c.routes c'.routes) _ fun _ => rfl]
  simp only [hremove, hadd, mem_vecDifference, ← ite_and, and_assoc, List.append_assoc]

/-- The commands of a switch that touch one address. -/
theorem on_addr (ip : IpAddr) :
    on slot (.addr ip) ((diff (some c) c').operations.flatMap commands) =
      (if ip ∈ c.localAddrs ∧ ip ∉ c'.localAddrs then [take (.addr ip)] else []) ++
      (if ip ∈ c'.localAddrs ∧ ip ∉ c.localAddrs then [put (.addr ip)] else []) := by
  have hroute : ∀ (l : List IpPrefix) (puts : Bool),
      on slot (.addr ip) (l.map fun q => (⟨puts, .route q⟩ : CommandSpec)) = [] :=
    fun l puts => on_map_of_ne l _ (by simp [slot])
  have hthrow : ∀ (l : List IpPrefix) (puts : Bool),
      on slot (.addr ip) (l.map fun q => (⟨puts, .throwRoute q⟩ : CommandSpec)) = [] :=
    fun l puts => on_map_of_ne l _ (by simp [slot])
  have haddr : ∀ {l : List IpAddr} (puts : Bool), l.Nodup →
      on slot (.addr ip) (l.map fun a => (⟨puts, .addr a⟩ : CommandSpec)) =
        if ip ∈ l then [⟨puts, .addr ip⟩] else [] :=
    fun puts hl => on_map_of_nodup hl _ (by simp [slot])
  have hlists : (diff (some c) c').removeAddrs = vecDifference c.localAddrs c'.localAddrs ∧
      (diff (some c) c').addAddrs = vecDifference c'.localAddrs c.localAddrs := ⟨rfl, rfl⟩
  rw [operations_commands, hlists.1, hlists.2]
  simp only [on_append, on_ite, hroute, hthrow, List.nil_append, ite_self, List.append_nil]
  rw [haddr _ (nodup_vecDifference c.localAddrs c'.localAddrs),
    haddr _ (nodup_vecDifference c'.localAddrs c.localAddrs)]
  simp only [mem_vecDifference]

variable {c c'} {p : IpPrefix}

theorem smoothCell_addr (ip : IpAddr) : SmoothCell (kernelTable c (.addr ip))
    (on slot (.addr ip) ((diff (some c) c').operations.flatMap commands)) := by
  rw [on_addr, kernelTable]
  by_cases h : ip ∈ c.localAddrs <;> by_cases h' : ip ∈ c'.localAddrs <;> simp [h, h', SmoothCell]

/-- The commands on one destination all take effect unless it changes between bypass and route. -/
theorem smoothCell_net (hc : p ∈ c.routes → p ∉ exitRoutes) (hc' : p ∈ c'.routes → p ∉ exitRoutes)
    (hl : p ∈ c.localRoutes → c.exitNode = true ∧ p ∉ c.routes ∧ p ∉ exitRoutes)
    (hl' : p ∈ c'.localRoutes → c'.exitNode = true ∧ p ∉ c'.routes ∧ p ∉ exitRoutes) :
    SmoothCell (kernelTable c (.net p))
        (on slot (.net p) ((diff (some c) c').operations.flatMap commands)) ↔
      (p ∈ c'.localRoutes → p ∉ c.routes) ∧ (p ∈ c.localRoutes → p ∉ c'.routes) := by
  have htable : kernelTable c (.net p) = if p ∈ c.localRoutes then some (.throwRoute p)
      else if p ∈ c.routes ∨ c.exitNode = true ∧ p ∈ exitRoutes then some (.route p) else none := by
    rw [kernelTable, tunRoutes]
    cases c.exitNode <;> simp
  rw [on_net, htable]
  by_cases hx : p ∈ exitRoutes
  · have hr : p ∉ c.routes := fun h => hc h hx
    have hr' : p ∉ c'.routes := fun h => hc' h hx
    have hlocal : p ∉ c.localRoutes := fun h => (hl h).2.2 hx
    have hlocal' : p ∉ c'.localRoutes := fun h => (hl' h).2.2 hx
    cases c.exitNode <;> cases c'.exitNode <;> simp [hx, hr, hr', hlocal, hlocal', SmoothCell]
  · by_cases hlocal : p ∈ c.localRoutes
    · have hr := (hl hlocal).2.1
      by_cases hlocal' : p ∈ c'.localRoutes
      · have hr' := (hl' hlocal').2.1
        simp [hx, hlocal, hlocal', hr, hr', SmoothCell]
      · by_cases hr' : p ∈ c'.routes <;> simp [hx, hlocal, hlocal', hr, hr', SmoothCell]
    · by_cases hlocal' : p ∈ c'.localRoutes
      · have hr' := (hl' hlocal').2.1
        by_cases hr : p ∈ c.routes <;> simp [hx, hlocal, hlocal', hr, hr', SmoothCell]
      · by_cases hr : p ∈ c.routes <;> by_cases hr' : p ∈ c'.routes <;>
          simp [hx, hlocal, hlocal', hr, hr', SmoothCell]

end

namespace Inputs
variable {i j : Inputs} {n m : RouterConfig}

section
variable (hn : i.Applied n) (hm : j.Applied m)
include hn

theorem Applied.notMem_exitRoutes {p : IpPrefix} (h : p ∈ n.routes) : p ∉ exitRoutes := by
  intro hp
  refine hn.bits_of_mem_routes h ?_
  rcases List.mem_pair.mp hp with rfl | rfl <;> rfl

theorem Applied.unambiguous_iff : Unambiguous n ↔ ∀ p ∈ n.localRoutes,
    n.exitNode = true ∧ p ∉ n.routes ∧ p ∉ exitRoutes := by
  refine forall₂_congr fun p hp => ?_
  have hexit : i.exitNode = true := (hn.mem_localRoutes.mp hp).1
  simp [hn.mem_tunRoutes, hn.exitNode, hexit]

include hm

theorem Applied.switches_iff (hu : Unambiguous n) (hu' : Unambiguous m) : Switches n m ↔
    (∀ p ∈ m.localRoutes, p ∉ n.routes) ∧ ∀ p ∈ n.localRoutes, p ∉ m.routes := by
  have hnet := fun p => smoothCell_net hn.notMem_exitRoutes hm.notMem_exitRoutes
    (hn.unambiguous_iff.mp hu p) (hm.unambiguous_iff.mp hu' p)
  rw [Switches, smooth_iff]
  constructor
  · intro h
    exact ⟨fun p => ((hnet p).mp (h _)).1, fun p => ((hnet p).mp (h _)).2⟩
  · rintro ⟨h, h'⟩ t
    cases t with
    | addr ip => exact smoothCell_addr ip
    | net p => exact (hnet p).mpr ⟨h p, h' p⟩
    | _ =>
      rw [on_operations_nil (by simp) (by simp)]
      trivial

theorem Applied.apart_iff_local :
    i.Apart j ↔ ∀ p ∈ n.localRoutes, p ∉ m.routes ∧ p ∉ exitRoutes := by
  simp only [Apart, hn.mem_localRoutes, hm.mem_routes, not_or, not_and, and_imp]
  constructor
  · intro h p hexit hlan hp
    obtain ⟨hvip, hcgnat, hx, hinst, hhalves⟩ := h hexit hlan p hp
    exact ⟨⟨hvip, hcgnat, hhalves, hinst⟩, hx⟩
  · intro h hexit hlan p hp
    obtain ⟨⟨hvip, hcgnat, hhalves, hinst⟩, hx⟩ := h p hexit hlan hp
    exact ⟨hvip, hcgnat, hx, hinst, hhalves⟩

theorem Applied.apart_iff (h : i.Apart i) : (∀ p ∈ n.localRoutes, p ∉ m.routes) ↔ i.Apart j := by
  rw [hn.apart_iff_local hm]
  exact forall₂_congr fun p hp => (and_iff_left ((hn.apart_iff_local hn).mp h p hp).2).symm

end

theorem Applied.apart_iff_unambiguous (hn : i.Applied n) : Unambiguous n ↔ i.Apart i := by
  rw [hn.unambiguous_iff, hn.apart_iff_local hn]
  exact forall₂_congr fun p hp => and_iff_right (hn.exitNode.trans (hn.mem_localRoutes.mp hp).1)

/-- A configuration sends into the TUN what the table routes to peers. -/
def CapturesPeers (i : Inputs) (n : RouterConfig) : Prop :=
  ∀ ip peer, i.routeTable.lookupExplicit ip = .ok (some peer) → Captures n ip

theorem Applied.capturesPeers_iff (hn : i.Applied n) : i.CapturesPeers n ↔
    ∀ ip, (∃ r ∈ i.offered, r.1.contains ip = true) → i.Reaches ip := by
  refine forall_congr' fun ip => ?_
  rw [← lookupExplicit_iff]
  constructor
  · rintro h ⟨peer, hp⟩
    exact (hn.captures_iff (lookupExplicit_iff.mp ⟨peer, hp⟩)).mp (h peer hp)
  · intro h peer hp
    exact (hn.captures_iff (lookupExplicit_iff.mp ⟨peer, hp⟩)).mpr (h ⟨peer, hp⟩)

end Inputs

/-- Two configurations are taken by the router, capture what their tables route, name no prefix
twice, and the first can be switched to the second, exactly if the inputs have no prefix that is too
long, reach all routed addresses and keep bypasses and routes apart. -/
theorem kernelRoutes_iff (i j : Inputs) :
    (∃ n m, i.Applied n ∧ j.Applied m ∧ i.CapturesPeers n ∧ j.CapturesPeers m ∧ Unambiguous n ∧
        Unambiguous m ∧ Switches n m) ↔
      i.Accepted ∧ j.Accepted ∧ (∀ ip, (∃ r ∈ i.offered, r.1.contains ip = true) → i.Reaches ip) ∧
        (∀ ip, (∃ r ∈ j.offered, r.1.contains ip = true) → j.Reaches ip) ∧
        i.Apart i ∧ j.Apart j ∧ i.Apart j ∧ j.Apart i := by
  have hiff : ∀ {n m}, i.Applied n → j.Applied m → (i.CapturesPeers n ∧ j.CapturesPeers m ∧
      Unambiguous n ∧ Unambiguous m ∧ Switches n m ↔
        (∀ ip, (∃ r ∈ i.offered, r.1.contains ip = true) → i.Reaches ip) ∧
          (∀ ip, (∃ r ∈ j.offered, r.1.contains ip = true) → j.Reaches ip) ∧
          i.Apart i ∧ j.Apart j ∧ i.Apart j ∧ j.Apart i) := by
    intro n m hn hm
    rw [hn.capturesPeers_iff, hm.capturesPeers_iff]
    refine and_congr_right fun _ => and_congr_right fun _ => ?_
    rw [hn.apart_iff_unambiguous, hm.apart_iff_unambiguous]
    refine and_congr_right fun hi => and_congr_right fun hj => ?_
    rw [hn.switches_iff hm (hn.apart_iff_unambiguous.mpr hi) (hm.apart_iff_unambiguous.mpr hj),
      hn.apart_iff hm hi, hm.apart_iff hn hj, and_comm]
  rw [← Inputs.exists_applied_iff, ← Inputs.exists_applied_iff]
  constructor
  · rintro ⟨n, m, hn, hm, h⟩
    exact ⟨⟨n, hn⟩, ⟨m, hm⟩, (hiff hn hm).mp h⟩
  · rintro ⟨⟨n, hn⟩, ⟨m, hm⟩, h⟩
    exact ⟨n, m, hn, hm, (hiff hn hm).mpr h⟩

def ipv6Peer : Node where
  id := 3
  key := 3
  addresses := ["fd7a:115c:a1e0::3/128"]

/-- A peer's address is not captured; and with a single connected address access to the LAN cannot
be taken back, as the route into the TUN is the bypass still there. -/
theorem ipv6Peer_not_captured :
    (∃ t n, fromPeersWithOpts [ipv6Peer] true = .ok t ∧
      t.lookupExplicit (.v6 0xFD7A115CA1E000000000000000000003) = .ok (some 3) ∧
      (buildRouterConfigWithLocalRoutes [] (t.setExitStateLatchAware none false false) false
        []).normalized = .ok n ∧ ¬Captures n (.v6 0xFD7A115CA1E000000000000000000003)) ∧
    ∃ t n m, fromPeersWithOpts [] true = .ok t ∧
      (buildRouterConfigWithLocalRoutes [] (t.setExitStateLatchAware (some 3) true false) true
        [⟨.v4 0x0A000001, 32⟩]).normalized = .ok n ∧
      (buildRouterConfigWithLocalRoutes [] (t.setExitStateLatchAware (some 3) true false) false
        [⟨.v4 0x0A000001, 32⟩]).normalized = .ok m ∧ ¬Switches n m := by
  have hoffered : offered true [ipv6Peer] =
      [(⟨.v6 0xFD7A115CA1E000000000000000000003, 128⟩, 3)] := by decide +kernel
  constructor
  · obtain ⟨t, ht, hholds⟩ := fromPeersWithOpts_holds [ipv6Peer] true
    rw [hoffered] at hholds
    obtain ⟨o, ho, hbest, -⟩ := hholds.lookupExplicit (.v6 0xFD7A115CA1E000000000000000000003)
    let i : Inputs := ⟨[], _, _, hholds.setExit none false false, false, []⟩
    obtain ⟨n, hn⟩ : ∃ n, i.Applied n := by
      refine Inputs.exists_applied_iff.mpr ⟨?_, nofun⟩
      rintro p ⟨r, hr, rfl, hts⟩
      obtain rfl := List.mem_singleton.mp hr
      exact absurd hts (by decide +kernel)
    refine ⟨t, n, ht, ?_, hn, fun hcaptures => ?_⟩
    · rw [ho, (hbest 3).mpr ⟨⟨.v6 0xFD7A115CA1E000000000000000000003, 128⟩, by decide +kernel⟩]
    · rcases (hn.captures_iff_without_exit rfl
        ⟨_, List.mem_singleton_self _, by decide +kernel⟩).mp hcaptures with h | ⟨r, hr, -, hula⟩
      · cases h
      · obtain rfl := List.mem_singleton.mp hr
        exact absurd hula (by decide +kernel)
  · obtain ⟨t, ht, hholds⟩ := fromPeersWithOpts_holds [] true
    have hholds' := hholds.setExit (some 3) true false
    let i : Inputs := ⟨[], _, _, hholds', true, [⟨.v4 0x0A000001, 32⟩]⟩
    let j : Inputs := ⟨[], _, _, hholds', false, [⟨.v4 0x0A000001, 32⟩]⟩
    have hnone : ∀ p, ¬i.Installed p := by
      rintro p ⟨r, hr, -⟩
      cases hr
    have hfits : ∀ q ∈ [(⟨.v4 0x0A000001, 32⟩ : IpPrefix)], FamilyFits q := by
      intro q hq
      obtain rfl := List.mem_singleton.mp hq
      exact le_rfl
    obtain ⟨n, hn⟩ : ∃ n, i.Applied n :=
      Inputs.exists_applied_iff.mpr ⟨fun p hp => absurd hp (hnone p), fun _ => hfits⟩
    obtain ⟨m, hm⟩ : ∃ m, j.Applied m :=
      Inputs.exists_applied_iff.mpr ⟨fun p hp => absurd hp (hnone p), fun _ => hfits⟩
    refine ⟨t, n, m, ht, hn, hm, fun hswitches => ?_⟩
    have hi : i.Apart i := by
      intro _ _ q hq
      obtain rfl := List.mem_singleton.mp hq
      exact ⟨by decide, by decide, by decide, hnone _, fun _ h => by cases h⟩
    have hj : j.Apart j := fun _ h => by cases h
    have happart := ((hn.switches_iff hm (hn.apart_iff_unambiguous.mpr hi)
      (hm.apart_iff_unambiguous.mpr hj)).mp hswitches).2
    rw [hn.apart_iff hm hi] at happart
    exact (happart rfl rfl _ (List.mem_singleton_self _)).2.2.2.2 rfl rfl (List.mem_singleton_self _)

end Rustscale.KernelRoutes
