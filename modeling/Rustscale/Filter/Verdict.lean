import Rustscale.Filter.Reference

/-! The filter of a configuration answers as its rules read: the split by family, the expansion of
ranges and the lookup structure of the local set change nothing. -/
namespace Rustscale.PacketFilter
open IpAddr Packet Checks Ipset List Art.IpPrefix PacketFilter.Filter Matches
open Tailcfg (FilterRule)

/-- What a filter is built from. -/
structure Config where
  rules : List FilterRule
  localIps : List IpAddr := []
  cidrs : List String := []
  capHolders : CapHolders := fun _ => none

namespace Config
variable (cfg : Config)

def build : Except FilterError Filter := do
  let f ← new cfg.rules cfg.localIps cfg.capHolders
  pure (f.addLocalCidrs cfg.cidrs)

def IsLocal (ip : IpAddr) : Prop := ip ∈ cfg.localIps ∨ ∃ c ∈ cfg.cidrs, ip ∈ cidrSet c

/-- Those for a local address that are established, or that a rule admits with shields down. -/
def Accepts (admits : FilterRule → PacketInfo → Prop) (flows : FlowState) (shieldsUp : Bool)
    (q : PacketInfo) : Prop :=
  cfg.IsLocal q.dst ∧
    (q.proto = tcp ∧ q.isTcpSyn = false ∨
      (q.proto = udp ∨ q.proto = sctp) ∧ flowKey q ∈ flows.entries ∨
      q.proto = tsmp ∨
      shieldsUp = false ∧ ∃ r ∈ cfg.rules, admits r q)

open Classical in
noncomputable def verdict (admits : FilterRule → PacketInfo → Prop) (flows : FlowState)
    (shieldsUp : Bool) (q : PacketInfo) : Response :=
  if cfg.Accepts admits flows shieldsUp q then .accept else .drop

/-- Protocols with ports by the full match, others for all ports only. -/
def Admits (r : FilterRule) (q : PacketInfo) : Prop :=
  if q.proto = tcp ∨ q.proto = udp ∨ q.proto = sctp then RuleAdmits cfg.capHolders r q
  else RuleAdmitsAllPorts cfg.capHolders r q

end Config

/-- A filter of a configuration, with any flows and shields up or down. -/
def Filter.Of (cfg : Config) (f : Filter) : Prop :=
  ∃ f0, cfg.build = .ok f0 ∧ f = { f0 with state := f.state, shieldsUp := f.shieldsUp }

theorem Filter.Of.of_build {cfg : Config} {f : Filter} (h : cfg.build = .ok f) : f.Of cfg :=
  ⟨f, h, rfl⟩

section Locals
variable {ip : IpAddr}

theorem host_contains (addr : IpAddr) : (SetPrefix.host addr).val.contains ip = (ip == addr) :=
  contains_of_isSingleIp (isSingleIp_iff.mpr rfl) ip

theorem parseCidrPrefix_eq_some {cidr : String} {p : IpPrefix} :
    parseCidrPrefix cidr = some p ↔ ∃ netStr bitsStr,
      IpText.splitOnce '/' cidr.toList = some (netStr, bitsStr) ∧
      IpText.parseIpAddr netStr = some p.addr ∧ IpText.parseU8 bitsStr = some p.bits ∧
      p.bits ≤ p.addr.bitLen := by
  simp only [parseCidrPrefix, bind, Option.bind_eq_some_iff, Prod.exists,
    Option.ite_none_right_eq_some, Option.some.injEq]
  constructor
  · rintro ⟨a, b, hsplit, addr, ha, bits, hb, hle, rfl⟩
    exact ⟨a, b, hsplit, ha, hb, hle⟩
  · rintro ⟨a, b, hsplit, ha, hb, hle⟩
    exact ⟨a, b, hsplit, p.addr, ha, p.bits, hb, hle, rfl⟩

theorem localPrefix_eq_some {cidr : String} {p : SetPrefix} :
    localPrefix cidr = some p ↔ parseCidrPrefix cidr = some ⟨p.val.addr, p.val.bits⟩ := by
  have hnew : ∀ addr bits, SetPrefix.new addr bits = some p ↔ p.val = ⟨addr, bits⟩ := by
    intro addr bits
    unfold SetPrefix.new
    split_ifs with h
    · rw [Option.some.injEq, eq_comm, Subtype.ext_iff]
    · refine ⟨False.elim, fun hp => absurd ?_ h⟩
      have hvalid := p.property
      rwa [hp] at hvalid
  simp only [localPrefix, bind, Option.bind_eq_some_iff, hnew]
  constructor
  · rintro ⟨a, ha, hp⟩
    rwa [hp]
  · exact fun h => ⟨_, h, rfl⟩

theorem localPrefix_contains (cidr : String) :
    (∃ p, localPrefix cidr = some p ∧ p.val.contains ip = true) ↔ ip ∈ cidrSet cidr := by
  constructor
  · rintro ⟨p, hp, hc⟩
    obtain ⟨a, b, hsplit, ha, hb, hle⟩ := parseCidrPrefix_eq_some.mp (localPrefix_eq_some.mp hp)
    obtain ⟨hf, hagree⟩ := (contains_iff p.val ip).mp hc
    exact ⟨a, b, _, _, hsplit, ha, hb, hle, hf, hagree⟩
  · rintro ⟨a, b, net, bits, hsplit, ha, hb, hle, hf, hagree⟩
    refine ⟨⟨⟨net, bits⟩, hle⟩, ?_, (contains_iff _ ip).mpr ⟨hf, hagree⟩⟩
    exact localPrefix_eq_some.mpr (parseCidrPrefix_eq_some.mpr ⟨a, b, hsplit, ha, hb, hle⟩)

theorem any_contains_family {v4 : Bool} (ps : List SetPrefix) (hip : ip.isIpv4 = v4) :
    ((ps.filter fun p => p.val.addr.isIpv4 == v4).any fun p => p.val.contains ip) =
      ps.any fun p => p.val.contains ip := by
  rw [any_filter]
  congr 1
  funext p
  by_cases h : p.val.contains ip = true
  · have hf := ((contains_iff p.val ip).mp h).1
    have : p.val.addr.isIpv4 = v4 := by rw [← hip, isIpv4, isIpv4, ← hf]; rfl
    simp [h, this]
  · simp [h]

end Locals

section Build
variable {cfg : Config} {f : Filter}

theorem Filter.new_eq_ok {rules : List FilterRule} {localIps : List IpAddr}
    {capHolders : CapHolders} : new rules localIps capHolders = .ok f ↔
      (∀ r ∈ rules, Parses r) ∧ f =
        { matches4 := family true (rules.map compiled)
          matches6 := family false (rules.map compiled)
          local4 := (partitionLocalIps localIps).1
          local6 := (partitionLocalIps localIps).2
          state := .empty, shieldsUp := false, capHolders
          cap4 := (partitionCapsByFamily (rules.map compiled)).1
          cap6 := (partitionCapsByFamily (rules.map compiled)).2 } := by
  simp only [new, bind_eq_ok, mapError_eq_ok, matchesFromFilterRules_eq_ok, pure,
    Except.pure, Except.ok.injEq]
  constructor
  · rintro ⟨_, ⟨hp, rfl⟩, rfl⟩
    exact ⟨hp, rfl⟩
  · rintro ⟨hp, rfl⟩
    exact ⟨_, ⟨hp, rfl⟩, rfl⟩

/-- The tables of a filter are those of its configuration. -/
structure Filter.Parts (cfg : Config) (f : Filter) : Prop where
  parses : ∀ r ∈ cfg.rules, Parses r
  rulesFor : ∀ version, f.rulesFor version = family (decide (version = 4)) (cfg.rules.map compiled)
  locals : ∀ version, (f.locals version).prefixes =
    ((cfg.localIps.filter fun ip => ip.isIpv4 == decide (version = 4)).map SetPrefix.host) ++
      (cfg.cidrs.filterMap localPrefix).filter fun p =>
        p.val.addr.isIpv4 == decide (version = 4)
  capHolders : f.capHolders = cfg.capHolders
  caps : (f.cap4, f.cap6) = partitionCapsByFamily (cfg.rules.map compiled)

theorem Filter.Of.parts (hf : f.Of cfg) : f.Parts cfg := by
  obtain ⟨f0, hbuild, hf⟩ := hf
  obtain ⟨f1, hnew, hadd⟩ := bind_eq_ok.mp hbuild
  obtain ⟨hp, rfl⟩ := new_eq_ok.mp hnew
  cases hadd
  rw [hf]
  refine ⟨hp, fun version => ?_, fun version => ?_, rfl, rfl⟩
  · unfold rulesFor
    split_ifs with h <;> simp [h, addLocalCidrs]
  · unfold locals
    split_ifs with h <;> simp [h, addLocalCidrs, LocalIpSet.extend, partitionLocalIps]

theorem Filter.Parts.locals_contains (hf : f.Parts cfg) {version : ℕ} {ip : IpAddr}
    (hip : ip.isIpv4 = decide (version = 4)) :
    (f.locals version).contains ip = true ↔ cfg.IsLocal ip := by
  rw [LocalIpSet.contains_eq, hf.locals, any_append, any_contains_family _ hip, Bool.or_eq_true]
  refine or_congr ?_ ?_
  · simp only [any_map, any_filter, any_eq_true, Function.comp_apply,
      host_contains, Bool.and_eq_true, beq_iff_eq]
    constructor
    · rintro ⟨a, ha, -, rfl⟩
      exact ha
    · exact fun h => ⟨ip, h, hip, rfl⟩
  · simp only [any_eq_true, mem_filterMap, ← localPrefix_contains]
    constructor
    · rintro ⟨p, ⟨c, hc, hp⟩, hcont⟩
      exact ⟨c, hc, p, hp, hcont⟩
    · rintro ⟨c, hc, p, hp, hcont⟩
      exact ⟨p, ⟨c, hc, hp⟩, hcont⟩

end Build

section Packets
variable {cfg : Config} {f : Filter} {q : PacketInfo}

theorem Coherent.isIpv4 (hq : q.Coherent) : q.src.isIpv4 = decide (q.version = 4) ∧
    q.dst.isIpv4 = decide (q.version = 4) := by
  rcases hq with ⟨hv, hs, hd⟩ | ⟨hv, hs, hd⟩ <;> simp [IpAddr.isIpv4, hv, hs, hd]

/-- The rule test of a packet that is not ICMP, in terms of the configured rules. -/
theorem Filter.Parts.ruleMatches_iff (hf : f.Parts cfg) (hq : q.Coherent)
    (hicmp : q.proto ≠ icmpOf q.version)
    (hcaps : ¬(q.proto = tcp ∨ q.proto = udp ∨ q.proto = sctp) →
      ∀ r ∈ cfg.rules, ¬SrcCapable cfg.capHolders r q.src) :
    f.ruleMatches q = true ↔ ∃ r ∈ cfg.rules, cfg.Admits r q := by
  obtain ⟨hs, hd⟩ := Coherent.isIpv4 hq
  unfold ruleMatches Config.Admits
  rw [if_neg hicmp, hf.rulesFor, hf.capHolders, matchesFull_family _ _ hs hd,
    matchesProtoAndIpsOnlyIfAllPorts_family _ hs hd]
  split_ifs with hports
  · exact matchesFull_compiled hf.parses cfg.capHolders
  · exact matchesAllPorts_compiled hf.parses (hcaps hports)

/-- For every packet past the first checks that is not ICMP, the verdict is the one the rules give
as they are written; without ports, if its source holds no capability that a rule names. -/
theorem checkInInfo_eq_verdict (hf : f.Of cfg) {buf : List Octets.Byte}
    (hq : parsePacket buf = some q) (hpre : pre q = .continue)
    (hicmp : q.proto ≠ icmpOf q.version)
    (hcaps : ¬(q.proto = tcp ∨ q.proto = udp ∨ q.proto = sctp) →
      ∀ r ∈ cfg.rules, ¬SrcCapable cfg.capHolders r q.src) :
    (f.checkInInfo q).1 = cfg.verdict cfg.Admits f.state f.shieldsUp q := by
  have hparts := hf.parts
  have hcoh := parsePacket_coherent hq
  have haccept : (f.checkInInfo q).1 = .accept ↔
      cfg.Accepts cfg.Admits f.state f.shieldsUp q := by
    rw [checkInInfo_accept_iff hpre, hparts.locals_contains (Coherent.isIpv4 hcoh).2,
      hparts.ruleMatches_iff hcoh hicmp hcaps]
    simp only [Filter.Established, Config.Accepts, hicmp, false_and, false_or, or_assoc]
  unfold Config.verdict
  split_ifs with h
  · exact haccept.mpr h
  · exact checkInInfo_drop_iff.mpr fun ha => h (haccept.mp ha)

def portConfig (proto : ℤ) : Config where
  rules := [{ srcIPs := ["*"], dstPorts := [{ ip := "*", ports := ⟨0, 80⟩ }], ipProto := [proto] }]
  localIps := [.v4 0x64400001#32]

/-- An IPv4 packet to that node, with a payload that reads as a SYN to port 80. -/
def portPacket (proto : Octets.Byte) : List Octets.Byte :=
  [0x45, 0, 0, 40, 0, 0, 0, 0, 64, proto, 0, 0, 1, 2, 3, 4, 100, 64, 0, 1,
    0xC0, 0, 0, 80, 0, 0, 0, 0, 0, 0, 0, 0, 0x50, 0x02, 0, 0, 0, 0, 0, 0]

/-- A connection to a port that a rule names. -/
theorem checkInInfo_eq_verdict_syn : ∃ f q, Filter.Of (portConfig 6) f ∧
    parsePacket (portPacket 6) = some q ∧ pre q = .continue ∧
    q.proto ≠ icmpOf q.version ∧
    (f.checkInInfo q).1 = (portConfig 6).verdict (portConfig 6).Admits f.state f.shieldsUp q := by
  obtain ⟨f, hf⟩ : ∃ f, Filter.Of (portConfig 6) f := ⟨_, .of_build rfl⟩
  obtain ⟨q, hq, hpre, hicmp, htcp⟩ : ∃ q, parsePacket (portPacket 6) = some q ∧
    pre q = .continue ∧ q.proto ≠ icmpOf q.version ∧ q.proto = tcp :=
    ⟨_, rfl, by decide, by decide, by decide⟩
  exact ⟨f, q, hf, hq, hpre, hicmp,
    checkInInfo_eq_verdict hf hq hpre hicmp fun hports => absurd (.inl htcp) hports⟩

/-- GRE, which has no ports, is dropped where the rule that admits it is not for all ports. -/
theorem checkInInfo_not_by_port : ∃ cfg f buf q, Filter.Of cfg f ∧ parsePacket buf = some q ∧
    pre q = .continue ∧ q.proto = 47 ∧ (f.checkInInfo q).1 = .drop ∧
    cfg.verdict (RuleAdmits cfg.capHolders) f.state f.shieldsUp q = .accept := by
  refine ⟨portConfig 47, _, portPacket 47, _, .of_build rfl, rfl, by decide, by decide,
    by decide, ?_⟩
  refine if_pos ⟨Or.inl (by decide), Or.inr (Or.inr (Or.inr ⟨rfl, _, mem_singleton_self _,
    Or.inr ⟨by decide, by decide⟩, Or.inl ⟨"*", by simp, by simp [textSet]⟩, ?_⟩))⟩
  exact ⟨_, mem_singleton_self _, by simp [textSet], by decide⟩

end Packets

end Rustscale.PacketFilter
