import Rustscale.Filter.Verdict

/-! What the filter lets in: ICMP by the rules, TCP without a rule, and anything with shields up. -/
namespace Rustscale.PacketFilter
open IpAddr Packet Octets List PacketFilter.Filter Or
open Tailcfg (FilterRule)

section Icmp
variable {cfg : Config} {f : Filter} {q : PacketInfo}

/-- A rule admits the source and lists the destination, for some ports. -/
def AddressesAdmitted (capHolders : CapHolders) (r : FilterRule) (q : PacketInfo) : Prop :=
  (SrcListed r q.src ∨ SrcCapable capHolders r q.src) ∧ DstListed r q.dst fun _ => True

def FamilyListed (r : FilterRule) (isIpv6 : Bool) : Prop :=
  ∃ ip, ip.isIpv6 = isIpv6 ∧ DstListed r ip fun _ => True

theorem compiled_family {r : FilterRule} (hr : Parses r) (v4 : Bool) :
    ((compiled r).dsts.any fun d => d.net.isV4 == v4) = true ↔ FamilyListed r !v4 := by
  simp only [compiled, dstEntries, any_eq_true, mem_flatMap, mem_map, beq_iff_eq]
  constructor
  · rintro ⟨_, ⟨d, hd, p, hp, rfl⟩, hv⟩
    obtain ⟨-, ps, hps⟩ := hr.dsts d hd
    have hcov := setPrefixes_covers hps
    refine ⟨p.addr, ?_, d, hd, (hcov.mem _).mp ⟨p, hp, hcov.self p hp⟩, trivial⟩
    rw [← hv, IpPrefix.isV4, isIpv4, Bool.not_not]
  · rintro ⟨ip, hip, d, hd, hmem, -⟩
    obtain ⟨-, ps, hps⟩ := hr.dsts d hd
    obtain ⟨p, hp, hc⟩ := ((setPrefixes_covers hps).mem ip).mpr hmem
    refine ⟨_, ⟨d, hd, p, hp, rfl⟩, ?_⟩
    rw [IpPrefix.isV4_of_contains hc, isIpv4, hip, Bool.not_not]

/-- ICMP is matched by addresses alone, or by a capability of the source. -/
theorem Filter.Parts.ruleMatches_icmp (hf : f.Parts cfg) (hq : q.Coherent)
    (hicmp : q.proto = icmpOf q.version) :
    f.ruleMatches q = true ↔
      (∃ r ∈ cfg.rules, SrcListed r q.src ∧ DstListed r q.dst fun _ => True) ∨
        ∃ r ∈ cfg.rules, SrcCapable cfg.capHolders r q.src ∧ FamilyListed r q.dst.isIpv6 := by
  obtain ⟨hs, hd⟩ := Coherent.isIpv4 hq
  have hfam : q.dst.isIpv6 = !decide (q.version = 4) := by rw [← hd, isIpv4, Bool.not_not]
  unfold ruleMatches
  rw [if_pos hicmp, hf.rulesFor, hf.capHolders, Matches.matchesIpsOnly_family _ _ hs hd,
    Bool.or_eq_true, any_map, any_map, any_eq_true, any_eq_true]
  refine or_congr (exists_congr fun r => and_congr_right fun hr => ?_)
    (exists_congr fun r => and_congr_right fun hr => ?_)
  · have hp := hf.parses r hr
    have hdsts := compiled_dsts hp q.dst (fun _ => true) (fun _ => True) (by simp)
    simp only [Bool.and_true] at hdsts
    rw [Function.comp_apply, Bool.and_eq_true, compiled_srcsContains hp, hdsts]
  · have hp := hf.parses r hr
    rw [Function.comp_apply, Bool.and_eq_true, compiled_srcCaps hp, compiled_family hp, hfam]

/-- An accepted ICMP request has its source and destination in one rule, unless its source holds a
capability that a rule names for other destinations. -/
theorem icmp_admission_iff (hf : f.Of cfg) {buf : List Byte} (hq : parsePacket buf = some q)
    (hicmp : q.proto = icmpOf q.version) (hreq : q.isIcmpEchoReply = false)
    (herr : q.isIcmpError = false) :
    ((f.checkInInfo q).1 = .accept →
        ∃ r ∈ cfg.rules, AddressesAdmitted cfg.capHolders r q) ↔
      (pre q = .continue → cfg.IsLocal q.dst → f.shieldsUp = false →
        (∃ r ∈ cfg.rules, SrcCapable cfg.capHolders r q.src ∧ FamilyListed r q.dst.isIpv6) →
        ∃ r ∈ cfg.rules, AddressesAdmitted cfg.capHolders r q) := by
  have hparts := hf.parts
  have hcoh := parsePacket_coherent hq
  obtain ⟨ht, hu, hsc, hts⟩ := icmpOf_ne q.version
  have hest : ¬ f.Established q := by simp [Filter.Established, hicmp, hreq, herr, ht, hu, hsc, hts]
  have hfrag : pre q ≠ .accept := by
    intro h
    have := hicmp.symm.trans (pre_eq_accept.mp h).1
    revert this
    unfold icmpOf
    split_ifs <;> decide
  rw [checkInInfo_eq_accept, hparts.locals_contains (Coherent.isIpv4 hcoh).2,
    hparts.ruleMatches_icmp hcoh hicmp]
  simp only [hest, hfrag, false_or]
  constructor
  · intro h hpre hlocal hshields hcap
    exact h ⟨hpre, hlocal, hshields, inr hcap⟩
  · rintro h ⟨hpre, hlocal, hshields, ⟨r, hr, hsrc, hdst⟩ | hcap⟩
    · exact ⟨r, hr, inl hsrc, hdst⟩
    · exact h hpre hlocal hshields hcap

/-- A rule that lets the holders of one capability reach another node only. -/
def capConfig : Config where
  rules := [{ srcIPs := ["cap:admin"], dstPorts := [{ ip := "10.0.0.5", ports := ⟨0, 65535⟩ }] }]
  localIps := [.v4 0x64400001#32]
  capHolders := fun ip => if ip = .v4 0x01020304#32 then some ["admin"] else none

def echoRequest : List Byte :=
  [0x45, 0, 0, 28, 0, 0, 0, 0, 64, 1, 0, 0, 1, 2, 3, 4, 100, 64, 0, 1, 8, 0, 0, 0, 0, 0, 0, 0]

/-- An echo request that a source capability admits to a host no rule names. -/
theorem icmp_admission_iff_echo : ∃ f q, Filter.Of capConfig f ∧
    parsePacket echoRequest = some q ∧ q.proto = icmpOf q.version ∧
    (((f.checkInInfo q).1 = .accept →
        ∃ r ∈ capConfig.rules, AddressesAdmitted capConfig.capHolders r q) ↔
      (pre q = .continue → capConfig.IsLocal q.dst → f.shieldsUp = false →
        (∃ r ∈ capConfig.rules,
          SrcCapable capConfig.capHolders r q.src ∧ FamilyListed r q.dst.isIpv6) →
        ∃ r ∈ capConfig.rules, AddressesAdmitted capConfig.capHolders r q)) := by
  obtain ⟨f, hf⟩ : ∃ f, Filter.Of capConfig f := ⟨_, .of_build rfl⟩
  obtain ⟨q, hq, hicmp, hreq, herr⟩ : ∃ q, parsePacket echoRequest = some q ∧
    q.proto = icmpOf q.version ∧ q.isIcmpEchoReply = false ∧ q.isIcmpError = false :=
    ⟨_, rfl, by decide, by decide, by decide⟩
  exact ⟨f, q, hf, hq, hicmp, icmp_admission_iff hf hq hicmp hreq herr⟩

/-- The request is accepted at a node that no rule lists as a destination. -/
theorem icmp_admission_fails : ∃ cfg f buf q, Filter.Of cfg f ∧ parsePacket buf = some q ∧
    q.proto = icmpOf q.version ∧ q.isIcmpEchoReply = false ∧ q.isIcmpError = false ∧
    (f.checkInInfo q).1 = .accept ∧
    ¬ ∃ r ∈ cfg.rules, AddressesAdmitted cfg.capHolders r q := by
  refine ⟨capConfig, _, echoRequest, _, .of_build rfl, rfl, by decide, by decide, by decide,
    by decide, ?_⟩
  rintro ⟨r, hr, -, d, hd, hmem, -⟩
  rw [mem_singleton.mp hr] at hd
  rw [mem_singleton.mp hd, textSet, if_neg (by decide), if_neg (by decide),
    if_neg (by decide), if_neg (by decide)] at hmem
  exact absurd hmem (by decide)

end Icmp

section Tcp
variable {q : PacketInfo} {buf : List Byte}

/-- The flags of a TCP header and all before them lie in the buffer. -/
def FlagsInside (buf : List Byte) : Prop := transportOffset buf + 14 ≤ buf.length

def flagsByte (buf : List Byte) : Byte := byteAt buf (transportOffset buf + 13)

/-- Without a matching rule, TCP to a local address is accepted unless it is a bare SYN. -/
theorem tcp_accept_iff (f : Filter) (hq : parsePacket buf = some q) (ht : q.proto = tcp)
    (hrule : f.ruleMatches q = false) :
    (f.checkIn buf).1 = .accept ↔
      pre q = .continue ∧ (f.locals q.version).contains q.dst = true ∧
        ¬ (FlagsInside buf ∧ bareSyn (flagsByte buf) = true) := by
  have hne : buf.isEmpty = false := by
    cases buf with
    | nil => cases hq
    | cons => rfl
  have hicmp : tcp ≠ icmpOf q.version := (icmpOf_ne q.version).1.symm
  have hfrag : pre q ≠ .accept := by
    intro h
    have := ht.symm.trans (pre_eq_accept.mp h).1
    revert this
    decide
  have hest : f.Established q ↔ q.isTcpSyn = false := by
    have hflow : tcp ≠ udp ∧ tcp ≠ sctp ∧ tcp ≠ tsmp := by decide
    simp [Filter.Established, ht, hicmp, hflow]
  have hsyn : q.isTcpSyn = false ↔ ¬ (FlagsInside buf ∧ bareSyn (flagsByte buf) = true) := by
    rw [parsePacket_isTcpSyn hq ht, ← Bool.not_eq_true, Bool.and_eq_true, decide_eq_true_eq]
    rfl
  rw [← hsyn, ← hest]
  simp only [checkIn, hne, hq, Bool.false_eq_true, if_false]
  rw [checkInInfo_eq_accept]
  simp [hfrag, hrule]

/-- TCP that no rule matches gets in only with its flags in the buffer, in a first fragment and not
a bare SYN, if no header is cut short and no later IPv4 fragment passes. -/
theorem tcp_established_iff (f : Filter) (hq : parsePacket buf = some q) (ht : q.proto = tcp) :
    ((f.checkIn buf).1 = .accept → f.ruleMatches q = false →
        FlagsInside buf ∧ FirstFragment buf ∧ bareSyn (flagsByte buf) = false) ↔
      (pre q = .continue → (f.locals q.version).contains q.dst = true →
        f.ruleMatches q = false →
        FlagsInside buf ∧
          ((q.version = 4 → v4FragOffset buf = 0) ∨ bareSyn (flagsByte buf) = true)) := by
  have hfirst := firstFragment_iff hq (by rw [ht]; decide)
  rw [← hfirst]
  constructor
  · intro h hpre hlocal hrule
    by_cases hsyn : FlagsInside buf ∧ bareSyn (flagsByte buf) = true
    · exact ⟨hsyn.1, inr hsyn.2⟩
    · obtain ⟨hin, hff, -⟩ := h ((tcp_accept_iff f hq ht hrule).mpr ⟨hpre, hlocal, hsyn⟩) hrule
      exact ⟨hin, inl hff⟩
  · intro h hacc hrule
    obtain ⟨hpre, hlocal, hsyn⟩ := (tcp_accept_iff f hq ht hrule).mp hacc
    obtain ⟨hin, hff⟩ := h hpre hlocal hrule
    have hflags : bareSyn (flagsByte buf) ≠ true := fun hb => hsyn ⟨hin, hb⟩
    exact ⟨hin, hff.resolve_right hflags, Bool.eq_false_iff.mpr hflags⟩

def closedConfig : Config where
  rules := []
  localIps := [.v4 0x64400001#32]

/-- A TCP packet to that node that ends with its IP header. -/
def cutPacket : List Byte :=
  [0x45, 0, 0, 20, 0, 0, 0, 0, 64, 6, 0, 0, 1, 2, 3, 4, 100, 64, 0, 1]

/-- A later fragment of a TCP segment to that node. -/
def laterFragment : List Byte :=
  [0x45, 0, 0, 36, 0, 0, 0, 2, 64, 6, 0, 0, 1, 2, 3, 4, 100, 64, 0, 1,
    0, 0, 0, 0, 0, 0, 0, 0, 0, 0, 0, 0, 0, 0, 0, 0]

/-- A segment that ends before its flags. -/
theorem tcp_established_iff_cut : ∃ f q, Filter.Of closedConfig f ∧
    parsePacket cutPacket = some q ∧ q.proto = tcp ∧
    (((f.checkIn cutPacket).1 = .accept → f.ruleMatches q = false →
        FlagsInside cutPacket ∧ FirstFragment cutPacket ∧
          bareSyn (flagsByte cutPacket) = false) ↔
      (pre q = .continue → (f.locals q.version).contains q.dst = true →
        f.ruleMatches q = false →
        FlagsInside cutPacket ∧ ((q.version = 4 → v4FragOffset cutPacket = 0) ∨
          bareSyn (flagsByte cutPacket) = true))) := by
  obtain ⟨f, hf⟩ : ∃ f, Filter.Of closedConfig f := ⟨_, .of_build rfl⟩
  obtain ⟨q, hq, ht⟩ : ∃ q, parsePacket cutPacket = some q ∧ q.proto = tcp :=
    ⟨_, rfl, by decide⟩
  exact ⟨f, q, hf, hq, ht, tcp_established_iff f hq ht⟩

/-- Without rules both are accepted: one has no flags in the buffer, one is not a first fragment. -/
theorem tcp_established_fails : ∃ f q q', Filter.Of closedConfig f ∧
    parsePacket cutPacket = some q ∧ q.proto = tcp ∧ f.ruleMatches q = false ∧
    (f.checkIn cutPacket).1 = .accept ∧ ¬ FlagsInside cutPacket ∧
    parsePacket laterFragment = some q' ∧ q'.proto = tcp ∧ f.ruleMatches q' = false ∧
    (f.checkIn laterFragment).1 = .accept ∧ ¬ FirstFragment laterFragment := by
  refine ⟨_, _, _, .of_build rfl, rfl, by decide, by decide, by decide, ?_, rfl, by decide,
    by decide, by decide, ?_⟩
  · unfold FlagsInside
    decide
  · rw [FirstFragment, if_pos (by decide)]
    decide

end Tcp

section Shields

variable (f : Filter) (buf : List Byte)

/-- Keepalives, and established traffic for a local address. -/
def Sanctioned : Prop :=
  buf = [] ∨ ∃ q, parsePacket buf = some q ∧ (f.locals q.version).contains q.dst = true ∧
    (q.proto = tcp ∧ q.isTcpSyn = false ∨
      (q.proto = udp ∨ q.proto = sctp) ∧ flowKey q ∈ f.state.entries ∨
      q.proto = icmpOf q.version ∧ (q.isIcmpEchoReply = true ∨ q.isIcmpError = true) ∨
      q.proto = tsmp)

/-- With shields up only sanctioned traffic comes in, and nothing that is dropped without. -/
def Shielded : Prop :=
  (((f.setShieldsUp true).checkIn buf).1 = .accept → Sanctioned f buf) ∧
    (¬Sanctioned f buf → ((f.setShieldsUp true).checkIn buf).1 = .drop) ∧
    (((f.setShieldsUp true).checkIn buf).1 = .accept → (f.checkIn buf).1 = .accept)

theorem checkIn_eq_accept :
    (f.checkIn buf).1 = .accept ↔
      buf = [] ∨ ∃ q, parsePacket buf = some q ∧ (f.checkInInfo q).1 = .accept := by
  unfold checkIn
  cases buf with
  | nil => simp
  | cons b buf =>
    cases hq : parsePacket (b :: buf) with
    | none => simp
    | some q => simp

theorem checkIn_eq_drop : (f.checkIn buf).1 = .drop ↔ (f.checkIn buf).1 ≠ .accept := by
  unfold checkIn
  split_ifs
  · simp
  · split
    · simp
    · exact checkInInfo_drop_iff

theorem checkInInfo_shieldsUp (q : PacketInfo) :
    ((f.setShieldsUp true).checkInInfo q).1 = .accept ↔
      pre q = .accept ∨ pre q = .continue ∧ (f.locals q.version).contains q.dst = true ∧
        f.Established q := by
  rw [checkInInfo_eq_accept]
  have hshields : (f.setShieldsUp true).shieldsUp = true := rfl
  simp only [hshields, Bool.true_eq_false, false_and, or_false]
  rfl

/-- The shields hold for everything but the packets that the first checks take for fragments. -/
theorem shieldsUp_admission_iff : Shielded f buf ↔ ∀ q, parsePacket buf = some q →
    q.proto ≠ fragment ∨ isMulticast q.dst = true ∨ isLinkLocalUnicast q.dst = true := by
  constructor
  · rintro ⟨honly, -⟩ q hq
    by_contra! hfragment
    obtain ⟨hproto, hmulticast, hlinkLocal⟩ := hfragment
    have hpre : pre q = .accept :=
      pre_eq_accept.mpr ⟨hproto, by simpa using hmulticast, by simpa using hlinkLocal⟩
    have haccept := (checkIn_eq_accept _ buf).mpr
      (inr ⟨q, hq, (checkInInfo_shieldsUp f q).mpr (inl hpre)⟩)
    rcases honly haccept with rfl | ⟨q', hq', -, hkind⟩
    · cases hq
    · obtain rfl := Option.some.inj (hq.symm.trans hq')
      rw [hproto, icmpOf] at hkind
      split at hkind <;> simp [fragment, tcp, udp, sctp, tsmp, icmpV4, icmpV6] at hkind
  · intro h
    have honly : ((f.setShieldsUp true).checkIn buf).1 = .accept → Sanctioned f buf := by
      rw [checkIn_eq_accept]
      rintro (hempty | ⟨q, hq, hacc⟩)
      · exact inl hempty
      · refine inr ⟨q, hq, ?_⟩
        rcases (checkInInfo_shieldsUp f q).mp hacc with hpre | ⟨-, hlocal, hest⟩
        · have hfragment := pre_eq_accept.mp hpre
          exact absurd (h q hq) (by simp [hfragment])
        · refine ⟨hlocal, ?_⟩
          rcases hest with hicmp | htcp | hflow | htsmp
          · exact inr (inr (inl hicmp))
          · exact inl htcp
          · exact inr (inl hflow)
          · exact inr (inr (inr htsmp))
    refine ⟨honly, fun h => (checkIn_eq_drop _ _).mpr fun ha => h (honly ha), ?_⟩
    rw [checkIn_eq_accept, checkIn_eq_accept]
    rintro (hempty | ⟨q, hq, hacc⟩)
    · exact inl hempty
    · refine inr ⟨q, hq, checkInInfo_eq_accept.mpr ?_⟩
      rcases (checkInInfo_shieldsUp f q).mp hacc with hpre | ⟨hpre, hlocal, hest⟩
      · exact inl hpre
      · exact inr ⟨hpre, hlocal, inl hest⟩

/-- A whole IPv4 packet with the protocol number of IPv6 fragments is accepted. -/
theorem shieldsUp_accepts_fragment : ∃ f q, Filter.Of closedConfig f ∧
    parsePacket (portPacket 44) = some q ∧ q.version = 4 ∧ q.proto = fragment ∧
    ((f.setShieldsUp true).checkIn (portPacket 44)).1 = .accept ∧
    ¬Sanctioned f (portPacket 44) := by
  refine ⟨_, _, .of_build rfl, rfl, rfl, rfl, by decide, ?_⟩
  rintro (hempty | ⟨q, hq, -, hkind⟩)
  · cases hempty
  · cases hq
    exact absurd hkind (by decide)

end Shields

end Rustscale.PacketFilter
