import Rustscale.Filter.Filter

/-! What filter rules mean, read off their texts: sets of addresses, capabilities, protocols and
ports, and a verdict that is a statement about one rule. -/
namespace Rustscale.PacketFilter
open IpAddr Packet Checks Ipset List IpText Matches
open Tailcfg (FilterRule)

variable (s : String)

def cidrSet : Set IpAddr :=
  {ip | ∃ netStr bitsStr net bits, splitOnce '/' s.toList = some (netStr, bitsStr) ∧
    parseIpAddr netStr = some net ∧ parseU8 bitsStr = some bits ∧
    bits ≤ net.bitLen ∧ net.isIpv6 = ip.isIpv6 ∧ Agree bits net ip}

def rangeSet : Set IpAddr :=
  {ip | ∃ a b first last, splitOnce '-' s.toList = some (a, b) ∧
    parseIpAddr a = some first ∧ parseIpAddr b = some last ∧
    first.isIpv6 = ip.isIpv6 ∧ first.toNat ≤ ip.toNat ∧ ip.toNat ≤ last.toNat}

def textCap : Option String := (stripCap s.toList).map String.ofList

open Classical in
noncomputable def textSet : Set IpAddr :=
  if s = "*" then Set.univ
  else if (textCap s).isSome then ∅
  else if '/' ∈ s.toList then cidrSet s
  else if s.toList.count '-' = 1 then rangeSet s
  else {ip | parseIpAddr s.toList = some ip}

variable (capHolders : CapHolders) (r : FilterRule)

/-- The protocols of a rule; without any, those of the usual traffic. -/
def protoSet : Set ℕ :=
  {n | r.ipProto = [] ∧ n ∈ [tcp, udp, icmpV4, icmpV6] ∨ n ≤ 255 ∧ (n : ℤ) ∈ r.ipProto}

variable (ip : IpAddr)

def HoldsCap (cap : String) : Prop :=
  cap ≠ "" ∧ ∃ caps, capHolders ip = some caps ∧ cap ∈ caps

def SrcListed : Prop := ∃ s ∈ r.srcIPs, ip ∈ textSet s

/-- A rule names, among its sources, a capability that the address holds. -/
def SrcCapable : Prop :=
  ∃ s ∈ r.srcIPs, ∃ cap, textCap s = some cap ∧ HoldsCap capHolders ip cap

def DstListed (ports : Tailcfg.PortRange → Prop) : Prop :=
  ∃ d ∈ r.dstPorts, ip ∈ textSet d.ip ∧ ports d.ports

/-- Protocol, source, destination and port are those of one rule. -/
def RuleAdmits (q : PacketInfo) : Prop :=
  q.proto ∈ protoSet r ∧ (SrcListed r q.src ∨ SrcCapable capHolders r q.src) ∧
    DstListed r q.dst fun ports => ports.first ≤ q.dstPort ∧ q.dstPort ≤ ports.last

/-- Protocol, source and destination are those of one rule, for all ports. -/
def RuleAdmitsAllPorts (q : PacketInfo) : Prop :=
  q.proto ∈ protoSet r ∧ (SrcListed r q.src ∨ SrcCapable capHolders r q.src) ∧
    DstListed r q.dst fun ports => ports = ⟨0, 65535⟩

section Texts
variable {s : String}

theorem hasCap_iff (capHolders : CapHolders) (ip : IpAddr) (cap : String) :
    hasCap capHolders ip cap = true ↔ HoldsCap capHolders ip cap := by
  unfold hasCap HoldsCap
  split_ifs with h
  · simp [String.isEmpty_iff.mp h]
  · have hne : cap ≠ "" := fun he => h (String.isEmpty_iff.mpr he)
    cases capHolders ip <;> simp [hne]

theorem ruleProtos_iff (r : FilterRule) (n : ℕ) : n ∈ ruleProtos r ↔ n ∈ protoSet r := by
  unfold ruleProtos protoSet
  by_cases h : r.ipProto = []
  · simp [h, defaultProtos]
  · simp only [List.isEmpty_iff, h, if_false, List.mem_map, List.mem_filter, Bool.and_eq_true,
      decide_eq_true_eq, false_and, false_or, Set.mem_ofPred_eq]
    constructor
    · rintro ⟨k, ⟨hk, h0, h255⟩, rfl⟩
      exact ⟨by omega, by rwa [Int.toNat_of_nonneg h0]⟩
    · rintro ⟨h255, hmem⟩
      exact ⟨n, ⟨hmem, by omega, by omega⟩, Int.toNat_natCast n⟩

variable {first last : IpAddr} {x : IpSetResult}

theorem rangeResult_ok (h : rangeResult s first last = .ok x) : ∃ ps, x = .prefixes ps ∧ Covers ps
      {ip | first.isIpv6 = ip.isIpv6 ∧ first.toNat ≤ ip.toNat ∧ ip.toNat ≤ last.toNat} := by
  cases first with
  | v4 a =>
    cases last with
    | v6 b => cases h
    | v4 b =>
      simp only [rangeResult, bind_eq_ok, ensure_eq_ok, exists_unit, pure, Except.pure,
        Except.ok.injEq, decide_eq_true_eq] at h
      exact ⟨_, h.2.2.symm, rangeToPrefixesV4_covers h.1⟩
  | v6 a =>
    cases last with
    | v4 b => cases h
    | v6 b =>
      simp only [rangeResult, bind_eq_ok, ensure_eq_ok, exists_unit, pure, Except.pure,
        Except.ok.injEq, decide_eq_true_eq] at h
      exact ⟨_, h.2.2.symm, rangeToPrefixesV6_covers h.1⟩

theorem parseRange_ok (h : parseRange s = .ok x) :
    ∃ ps, x = .prefixes ps ∧ Covers ps (rangeSet s) := by
  simp only [parseRange, parseIp, bind_eq_ok, okOr_eq_ok, Prod.exists] at h
  obtain ⟨a, b, hsplit, first, ha, last, hb, hres⟩ := h
  obtain ⟨ps, rfl, hps⟩ := rangeResult_ok hres
  refine ⟨ps, rfl, ?_⟩
  convert hps using 1
  ext ip
  simp [rangeSet, hsplit, ha, hb]

theorem parseCidr_covers {p : IpPrefix} (h : parseCidr s = .ok p) : Covers [p] (cidrSet s) := by
  obtain ⟨a, b, hsplit, ha, hb, hle, -⟩ := parseCidr_eq_ok.mp h
  refine .single hle fun ip => ?_
  simpa [IpPrefix.contains_iff, cidrSet, hsplit, ha, hb] using and_left_comm

section
variable (h : parseIpSet s = .ok x)
include h

/-- A parsed entry is a capability or prefixes that cover the set it denotes. -/
theorem parseIpSet_ok : (∃ cap, x = .cap cap ∧ textCap s = some cap ∧ textSet s = ∅) ∨
      ∃ ps, x = .prefixes ps ∧ textCap s = none ∧ Covers ps (textSet s) := by
  by_cases hstar : s = "*"
  · subst hstar
    cases h
    refine Or.inr ⟨_, rfl, rfl, ?_⟩
    rw [textSet, if_pos rfl]
    exact wildcardPrefixes_covers
  rw [parseIpSet, if_neg hstar] at h
  cases hcap : stripCap s.toList with
  | some name =>
    rw [hcap] at h
    cases h
    refine Or.inl ⟨_, rfl, by simp [textCap, hcap], ?_⟩
    simp [textSet, hstar, textCap, hcap]
  | none =>
    rw [hcap] at h
    have hnone : textCap s = none := by simp [textCap, hcap]
    refine Or.inr ?_
    simp only [textSet, hstar, hnone, Option.isSome_none, Bool.false_eq_true, if_false]
    dsimp only at h
    split_ifs at h with hslash hdash
    · obtain ⟨p, hp, hx⟩ := bind_eq_ok.mp h
      cases hx
      refine ⟨_, rfl, trivial, ?_⟩
      rw [if_pos (contains_iff_mem.mp hslash)]
      exact parseCidr_covers hp
    · obtain ⟨ps, rfl, hps⟩ := parseRange_ok h
      refine ⟨ps, rfl, trivial, ?_⟩
      rwa [if_neg fun hm => hslash (contains_iff_mem.mpr hm), if_pos hdash]
    · obtain ⟨addr, hip, hx⟩ := bind_eq_ok.mp h
      cases hx
      rw [parseIp, okOr_eq_ok] at hip
      refine ⟨_, rfl, trivial, ?_⟩
      rw [if_neg fun hm => hslash (contains_iff_mem.mpr hm), if_neg hdash]
      convert hostPrefix_covers addr using 1
      ext ip
      rw [Set.mem_ofPred_eq, hip, Option.some.injEq, Set.mem_singleton_iff]
      exact eq_comm

theorem setCap_eq : setCap s = textCap s := by
  unfold setCap
  obtain ⟨cap, rfl, hcap, -⟩ | ⟨ps, rfl, hcap, -⟩ := parseIpSet_ok h
  · rw [h, hcap]
  · rw [h, hcap]

theorem setPrefixes_covers : Covers (setPrefixes s) (textSet s) := by
  unfold setPrefixes
  obtain ⟨cap, rfl, -, hempty⟩ | ⟨ps, rfl, -, hps⟩ := parseIpSet_ok h
  · rw [h, hempty]
    exact ⟨by simp, by simp⟩
  · rw [h]
    exact hps

end

end Texts

section Rules
variable {r : FilterRule}

theorem compiled_srcsContains (hr : Parses r) (ip : IpAddr) :
    (compiled r).srcsContains ip = true ↔ SrcListed r ip := by
  simp only [Match.srcsContains, compiled, any_eq_true, mem_flatMap]
  constructor
  · rintro ⟨p, ⟨s, hs, hp⟩, hc⟩
    obtain ⟨x, hx⟩ := hr.srcs s hs
    exact ⟨s, hs, ((setPrefixes_covers hx).mem ip).mp ⟨p, hp, hc⟩⟩
  · rintro ⟨s, hs, hmem⟩
    obtain ⟨x, hx⟩ := hr.srcs s hs
    obtain ⟨p, hp, hc⟩ := ((setPrefixes_covers hx).mem ip).mpr hmem
    exact ⟨p, ⟨s, hs, hp⟩, hc⟩

theorem compiled_srcCaps (hr : Parses r) (capHolders : CapHolders) (ip : IpAddr) :
    (compiled r).srcCaps.any (hasCap capHolders ip) = true ↔ SrcCapable capHolders r ip := by
  simp only [compiled, any_eq_true, mem_filterMap, hasCap_iff]
  constructor
  · rintro ⟨cap, ⟨s, hs, hcap⟩, hold⟩
    obtain ⟨x, hx⟩ := hr.srcs s hs
    exact ⟨s, hs, cap, (setCap_eq hx).symm.trans hcap, hold⟩
  · rintro ⟨s, hs, cap, hcap, hold⟩
    obtain ⟨x, hx⟩ := hr.srcs s hs
    exact ⟨cap, ⟨s, hs, (setCap_eq hx).trans hcap⟩, hold⟩

theorem compiled_dsts (hr : Parses r) (ip : IpAddr) (test : PortRange → Bool)
    (ports : Tailcfg.PortRange → Prop) (htest : ∀ a b, test ⟨a, b⟩ = true ↔ ports ⟨a, b⟩) :
    ((compiled r).dsts.any fun d => d.net.contains ip && test d.ports) = true ↔
      DstListed r ip ports := by
  simp only [compiled, dstEntries, any_eq_true, mem_flatMap, mem_map, Bool.and_eq_true]
  constructor
  · rintro ⟨_, ⟨d, hd, p, hp, rfl⟩, hc, hports⟩
    obtain ⟨-, ps, hps⟩ := hr.dsts d hd
    exact ⟨d, hd, ((setPrefixes_covers hps).mem ip).mp ⟨p, hp, hc⟩, (htest _ _).mp hports⟩
  · rintro ⟨d, hd, hmem, hports⟩
    obtain ⟨-, ps, hps⟩ := hr.dsts d hd
    obtain ⟨p, hp, hc⟩ := ((setPrefixes_covers hps).mem ip).mpr hmem
    exact ⟨_, ⟨d, hd, p, hp, rfl⟩, hc, (htest _ _).mpr hports⟩

variable {rules : List FilterRule} {q : PacketInfo}

/-- The compiled rules match a packet iff one of the rules admits it. -/
theorem matchesFull_compiled (hrules : ∀ r ∈ rules, Parses r) (capHolders : CapHolders) :
    matchesFull (rules.map compiled) q (hasCap capHolders) = true ↔
      ∃ r ∈ rules, RuleAdmits capHolders r q := by
  simp only [matchesFull, any_map, any_eq_true, Function.comp_apply]
  refine exists_congr fun r => and_congr_right fun hr => ?_
  have hp := hrules r hr
  have hdsts := compiled_dsts hp q.dst (fun r => r.contains q.dstPort)
    (fun p => p.first ≤ q.dstPort ∧ q.dstPort ≤ p.last) (by simp [PortRange.contains])
  rw [Bool.and_eq_true, Bool.and_eq_true, Bool.or_eq_true, compiled_srcsContains hp,
    compiled_srcCaps hp, hdsts, contains_iff_mem, and_assoc]
  exact and_congr_left fun _ => ruleProtos_iff r q.proto

/-- This scan never asks for capabilities. -/
theorem matchesAllPorts_compiled (hrules : ∀ r ∈ rules, Parses r) {capHolders : CapHolders}
    (hcaps : ∀ r ∈ rules, ¬SrcCapable capHolders r q.src) :
    matchesProtoAndIpsOnlyIfAllPorts (rules.map compiled) q = true ↔
      ∃ r ∈ rules, RuleAdmitsAllPorts capHolders r q := by
  simp only [matchesProtoAndIpsOnlyIfAllPorts, any_map, any_eq_true, Function.comp_apply]
  refine exists_congr fun r => and_congr_right fun hr => ?_
  have hp := hrules r hr
  have hdsts := compiled_dsts hp q.dst (fun r => r == PortRange.all)
    (fun p => p = ⟨0, 65535⟩) (by simp [PortRange.all])
  simp only [Bool.and_comm] at hdsts
  rw [Bool.and_eq_true, Bool.and_eq_true, compiled_srcsContains hp, hdsts,
    contains_iff_mem, and_assoc, RuleAdmitsAllPorts, or_iff_left (hcaps r hr)]
  exact and_congr_left fun _ => ruleProtos_iff r q.proto

end Rules

end Rustscale.PacketFilter
