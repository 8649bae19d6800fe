import Rustscale.Filter.Verdict

/-! Return traffic: which inbound packets a history of outbound packets admits. -/
namespace Rustscale.PacketFilter
open IpAddr Packet Checks PacketFilter.Filter List
open Tailcfg (FilterRule)

/-- What may happen to a filter in its life. -/
inductive Event where
  | updateOutbound (buf : List Octets.Byte)
  | updateOutboundInfo (q : PacketInfo)
  | checkIn (buf : List Octets.Byte)
  | checkInInfo (q : PacketInfo)
  | setShieldsUp (on : Bool)
  | addLocalCidrs (cidrs : List String)
  | rebuildIfChanged (unchanged : Bool) (rules : List FilterRule) (localIps : List IpAddr)
      (capHolders : CapHolders)
  | replace (newFilter : Filter)

namespace Event

def outbound : Event → Option PacketInfo
  | updateOutbound buf => parsePacket buf
  | updateOutboundInfo q => some q
  | _ => none

def inbound : Event → Option PacketInfo
  | checkIn buf => if buf.isEmpty then none else parsePacket buf
  | checkInInfo q => some q
  | _ => none

def IsRebuild : Event → Prop
  | rebuildIfChanged .. => True
  | replace _ => True
  | _ => False

end Event

namespace Filter

/-- A rebuild that fails leaves the filter; a replacement takes over its flows. -/
def after (f : Filter) : Event → Filter
  | .updateOutbound buf => f.updateOutbound buf
  | .updateOutboundInfo q => f.updateOutboundInfo q
  | .checkIn buf => (f.checkIn buf).2
  | .checkInInfo q => (f.checkInInfo q).2
  | .setShieldsUp on => f.setShieldsUp on
  | .addLocalCidrs cidrs => f.addLocalCidrs cidrs
  | .rebuildIfChanged unchanged rules localIps capHolders =>
    match f.rebuildIfChanged unchanged rules localIps capHolders with
    | .ok (_, f) => f
    | .error _ => f
  | .replace newFilter => (newFilter.shareStateWith f).1

def Consults (f : Filter) (q : PacketInfo) : Prop :=
  pre q = .continue ∧ (f.locals q.version).contains q.dst = true ∧ (q.proto = udp ∨ q.proto = sctp)

instance (f : Filter) (q : PacketInfo) : Decidable (f.Consults q) :=
  inferInstanceAs (Decidable (_ ∧ _))

end Filter

/-- A use of the flow cache by a packet. -/
inductive Touch where
  | recorded (p : PacketInfo)
  | hit (q : PacketInfo)

def Touch.tuple : Touch → Tuple
  | recorded p => (reversedTuple p.proto p.src p.srcPort p.dst p.dstPort).asTuple
  | hit q => flowKey q

/-- The five-tuples are reversed; an IPv4 address and its IPv4-mapped form count as the same. -/
def Answers (q p : PacketInfo) : Prop :=
  q.proto = p.proto ∧ mappedOctets q.src = mappedOctets p.dst ∧ q.srcPort = p.dstPort ∧
    mappedOctets q.dst = mappedOctets p.src ∧ q.dstPort = p.srcPort

instance (q p : PacketInfo) : Decidable (Answers q p) := inferInstanceAs (Decidable (_ ∧ _))

/-- The tuples touched since the flow of a packet was; the log has its last entry first. -/
def othersSince (log : List Touch) (q : PacketInfo) : Finset Tuple :=
  ((log.map Touch.tuple).takeWhile (· ≠ flowKey q)).toFinset

/-- The packet answers a recorded one, and fewer than 512 other flows were touched since. -/
def Expected (log : List Touch) (q : PacketInfo) : Prop :=
  (∃ p, .recorded p ∈ log ∧ Answers q p) ∧ (othersSince log q).card < 512

def Touch.answeredBy (q : PacketInfo) : Touch → Bool
  | recorded p => Answers q p
  | hit _ => false

theorem any_answeredBy {log : List Touch} {q : PacketInfo} :
    log.any (Touch.answeredBy q) = true ↔ ∃ p, .recorded p ∈ log ∧ Answers q p := by
  rw [any_eq_true]
  constructor
  · rintro ⟨t, ht, h⟩
    cases t with
    | recorded p => exact ⟨p, ht, of_decide_eq_true h⟩
    | hit p => cases h
  · rintro ⟨p, hp, h⟩
    exact ⟨_, hp, decide_eq_true h⟩

instance (log : List Touch) (q : PacketInfo) : Decidable (Expected log q) :=
  decidable_of_iff _ (and_congr_left' any_answeredBy)

/-- The log after an event: what is recorded, and what a check finds, is touched. -/
def Filter.logAfter (f : Filter) (log : List Touch) (e : Event) : List Touch :=
  match e.outbound, e.inbound with
  | some p, _ => if p.proto = udp ∨ p.proto = sctp then .recorded p :: log else log
  | none, some q => if f.Consults q ∧ Expected log q then .hit q :: log else log
  | none, none => log

def Filter.history (f : Filter) (es : List Event) : Filter × List Touch :=
  es.foldl (fun s e => (s.1.after e, s.1.logAfter s.2 e)) (f, [])

section Tracks
variable {f : Filter} {log : List Touch} {q p : PacketInfo}

/-- The flow cache holds the flows of the log that were touched last. -/
structure Filter.Tracks (f : Filter) (log : List Touch) : Prop where
  entries : f.state.lru.entries = (Lru.recent (log.map Touch.tuple)).take 512
  hits : ∀ q, .hit q ∈ log → ∃ p, .recorded p ∈ log ∧ Answers q p

theorem answers_iff : Answers q p ↔ (Touch.recorded p).tuple = flowKey q := by
  simp only [Answers, Touch.tuple, reversedTuple, FlowTuple.asTuple, flowKey, Tuple.mk.injEq]
  grind

theorem Filter.Tracks.expected_iff (h : f.Tracks log) :
    Expected log q ↔ flowKey q ∈ f.state.entries := by
  change _ ↔ flowKey q ∈ f.state.lru.entries
  rw [h.entries, Lru.mem_take_recent]
  refine and_congr_left' ⟨?_, fun hm => ?_⟩
  · rintro ⟨p, hp, hq⟩
    exact mem_map.mpr ⟨_, hp, answers_iff.mp hq⟩
  · obtain ⟨t, ht, hkey⟩ := mem_map.mp hm
    cases t with
    | recorded p => exact ⟨p, ht, answers_iff.mpr hkey⟩
    | hit q' =>
      obtain ⟨p, hp, hq⟩ := h.hits q' ht
      exact ⟨p, hp, answers_iff.mpr ((answers_iff.mp hq).trans hkey)⟩

theorem Filter.Tracks.cons {t : Touch} {flows : FlowState} (h : f.Tracks log)
    (hl : flows.lru = f.state.lru.add t.tuple)
    (ht : ∀ q, t = .hit q → ∃ p, .recorded p ∈ log ∧ Answers q p) :
    Filter.Tracks { f with state := flows } (t :: log) where
  entries := by
    rw [hl]
    exact Lru.add_recent h.entries _
  hits q hq := by
    rcases mem_cons.mp hq with rfl | hq
    · obtain ⟨p, hp, hqp⟩ := ht q rfl
      exact ⟨p, mem_cons_of_mem _ hp, hqp⟩
    · obtain ⟨p, hp, hqp⟩ := h.hits q hq
      exact ⟨p, mem_cons_of_mem _ hp, hqp⟩

theorem Filter.Tracks.of_state {g : Filter} (h : f.Tracks log) (hs : g.state = f.state) :
    g.Tracks log :=
  ⟨hs ▸ h.entries, h.hits⟩

theorem Filter.runIn_snd {locals : LocalIpSet} {ms : Matches} {icmp : ℕ}
    (hicmp : icmp ≠ udp ∧ icmp ≠ sctp) :
    (f.runIn locals ms icmp q).2 =
      if locals.contains q.dst = true ∧ (q.proto = udp ∨ q.proto = sctp) then
        { f with state := (f.state.get (flowKey q)).2 } else f := by
  unfold runIn
  by_cases hl : locals.contains q.dst = true
  · by_cases hflow : q.proto = udp ∨ q.proto = sctp
    · have hne : q.proto ≠ icmp ∧ q.proto ≠ tcp := by
        rcases hflow with h | h
        · exact ⟨fun hi => hicmp.1 (hi ▸ h), by rw [h]; decide⟩
        · exact ⟨fun hi => hicmp.2 (hi ▸ h), by rw [h]; decide⟩
      simp only [hl, hflow, hne, Bool.not_true, Bool.false_eq_true, if_false, if_true, and_self]
      split_ifs <;> rfl
    · simp only [hflow, if_false, and_false]
      split_ifs <;> rfl
  · simp [hl]

/-- A check looks its packet up in the flow cache, or leaves the filter alone. -/
theorem Filter.checkInInfo_snd (f : Filter) (q : PacketInfo) :
    (f.checkInInfo q).2 =
      if f.Consults q then { f with state := (f.state.get (flowKey q)).2 } else f := by
  have hrun : (if q.version = 4 then f.runIn4 q else f.runIn6 q).2 =
      if (f.locals q.version).contains q.dst = true ∧ (q.proto = udp ∨ q.proto = sctp) then
        { f with state := (f.state.get (flowKey q)).2 } else f := by
    unfold locals runIn4 runIn6
    split_ifs <;> simp_all [runIn_snd (show icmpV4 ≠ udp ∧ icmpV4 ≠ sctp by decide),
      runIn_snd (show icmpV6 ≠ udp ∧ icmpV6 ≠ sctp by decide)]
  unfold checkInInfo
  split
  · next hpre => rw [if_neg fun hc => absurd (hpre.symm.trans hc.1) (by decide)]
  · next hpre => rw [if_neg fun hc => absurd (hpre.symm.trans hc.1) (by decide)]
  · next hpre =>
    simp only [Consults, hpre, true_and, ← hrun]
    split <;> rfl

theorem Filter.rebuildIfChanged_state {unchanged : Bool} {rules : List FilterRule}
    {localIps : List IpAddr} {capHolders : CapHolders} {r : Bool × Filter}
    (h : f.rebuildIfChanged unchanged rules localIps capHolders = .ok r) :
    r.2.state = f.state := by
  unfold rebuildIfChanged at h
  split_ifs at h
  · cases h
    rfl
  · obtain ⟨g, -, hg⟩ := bind_eq_ok.mp h
    cases hg
    rfl

theorem Filter.after_rebuild_state (f : Filter) {e : Event} (he : e.IsRebuild) :
    (f.after e).state = f.state := by
  cases e with
  | rebuildIfChanged unchanged rules localIps capHolders =>
    dsimp only [after]
    cases hr : f.rebuildIfChanged unchanged rules localIps capHolders with
    | error err => rfl
    | ok r => exact rebuildIfChanged_state hr
  | replace g => rfl
  | _ => exact he.elim

theorem Filter.Tracks.outbound (h : f.Tracks log) (p : PacketInfo) :
    (f.updateOutboundInfo p).Tracks
      (if p.proto = udp ∨ p.proto = sctp then .recorded p :: log else log) := by
  unfold updateOutboundInfo
  split_ifs
  · exact h.cons (FlowState.lru_add _ _) nofun
  · exact h

theorem Filter.Tracks.inbound (h : f.Tracks log) (q : PacketInfo) :
    (f.checkInInfo q).2.Tracks (if f.Consults q ∧ Expected log q then .hit q :: log else log) := by
  rw [checkInInfo_snd]
  by_cases hc : f.Consults q
  · have hget := FlowState.lru_get f.state (flowKey q)
    by_cases he : Expected log q
    · rw [Lru.get_of_mem (h.expected_iff.mp he)] at hget
      simp only [hc, he, if_true, and_self]
      refine h.cons (congrArg Prod.snd hget) fun q' hq' => ?_
      cases hq'
      exact he.1
    · rw [Lru.get_of_not_mem (mt h.expected_iff.mpr he)] at hget
      simp only [hc, he, if_true, and_false, if_false]
      exact ⟨(congrArg (fun s => s.2.entries) hget).trans h.entries, h.hits⟩
  · simp only [hc, if_false, false_and]
    exact h

theorem Filter.Tracks.after (h : f.Tracks log) (e : Event) : (f.after e).Tracks (f.logAfter log e) := by
  cases e with
  | updateOutbound buf =>
    unfold Filter.after Filter.logAfter updateOutbound
    cases hq : parsePacket buf with
    | none => simpa [Event.outbound, Event.inbound, hq] using h
    | some p => simpa [Event.outbound, Event.inbound, hq] using h.outbound p
  | updateOutboundInfo p => exact h.outbound p
  | checkIn buf =>
    unfold Filter.after Filter.logAfter checkIn
    by_cases hb : buf.isEmpty
    · simpa [Event.outbound, Event.inbound, hb] using h
    · cases hq : parsePacket buf with
      | none => simpa [Event.outbound, Event.inbound, hb, hq] using h
      | some q => simpa [Event.outbound, Event.inbound, hb, hq] using h.inbound q
  | checkInInfo q => exact h.inbound q
  | setShieldsUp on | addLocalCidrs cidrs | replace g => exact h.of_state rfl
  | rebuildIfChanged unchanged rules localIps capHolders =>
    exact h.of_state (f.after_rebuild_state trivial)

theorem Filter.Tracks.history (h : f.Tracks log) (es : List Event) :
    let s := es.foldl (fun s e => (s.1.after e, s.1.logAfter s.2 e)) (f, log)
    s.1.Tracks s.2 := by
  induction es generalizing f log with
  | nil => exact h
  | cons e es ih => exact ih (h.after e)

end Tracks

theorem Filter.Tracks.checkIn_iff {f : Filter} {log : List Touch} {buf : List Octets.Byte}
    {q : PacketInfo} (h : f.Tracks log) (hq : parsePacket buf = some q)
    (hflow : q.proto = udp ∨ q.proto = sctp) (hpre : pre q = .continue)
    (hl : (f.locals q.version).contains q.dst = true) (hr : f.ruleMatches q = false) :
    (f.checkIn buf).1 = .accept ↔ Expected log q := by
  have hcheck : f.checkIn buf = f.checkInInfo q := by
    unfold checkIn
    rw [if_neg (by cases buf <;> simp_all [parsePacket]), hq]
  have hne : q.proto ≠ icmpOf q.version ∧ q.proto ≠ tcp ∧ q.proto ≠ tsmp := by
    obtain ⟨-, hu, hsc, -⟩ := icmpOf_ne q.version
    rcases hflow with hp | hp
    · exact ⟨fun hi => hu (hi ▸ hp), by rw [hp]; decide⟩
    · exact ⟨fun hi => hsc (hi ▸ hp), by rw [hp]; decide⟩
  rw [hcheck, checkInInfo_accept_iff hpre, h.expected_iff]
  simp [Filter.Established, hl, hr, hne, hflow]

theorem pre_eq_continue {q : PacketInfo} (hflow : q.proto = udp ∨ q.proto = sctp)
    (hm : isMulticast q.dst = false) (hl : isLinkLocalUnicast q.dst = false) :
    pre q = .continue := by
  rcases hflow with hp | hp <;> simp [pre, hp, hm, hl, udp, sctp, unknown, fragment]

theorem Filter.tracks_nil {f : Filter} (h : f.state = .empty) : f.Tracks [] where
  entries := by
    rw [h]
    rfl
  hits q hq := by cases hq

/-- In every history, a UDP or SCTP packet to a local address that no rule matches is accepted iff
it answers a recorded packet and fewer than 512 other flows were touched since; replacing the rules
keeps the answer. The address is neither multicast nor link-local. -/
theorem returnTraffic_iff (f0 : Filter) (h0 : f0.state = .empty) (es : List Event)
    {buf : List Octets.Byte} {q : PacketInfo} (hq : parsePacket buf = some q)
    (hflow : q.proto = udp ∨ q.proto = sctp) (hm : isMulticast q.dst = false)
    (hll : isLinkLocalUnicast q.dst = false) (f : Filter) (log : List Touch)
    (hrun : f0.history es = (f, log)) :
    ((f.locals q.version).contains q.dst = true → f.ruleMatches q = false →
      ((f.checkIn buf).1 = .accept ↔ Expected log q)) ∧
    ∀ e : Event, e.IsRebuild → ((f.after e).locals q.version).contains q.dst = true →
      (f.after e).ruleMatches q = false →
      (((f.after e).checkIn buf).1 = .accept ↔ Expected log q) := by
  have hpre := pre_eq_continue hflow hm hll
  have ht : f.Tracks log := by
    have hs := (tracks_nil h0).history es
    rwa [show es.foldl _ (f0, []) = (f, log) from hrun] at hs
  refine ⟨ht.checkIn_iff hq hflow hpre, fun e he => ?_⟩
  exact (ht.of_state (f.after_rebuild_state he)).checkIn_iff hq hflow hpre

def twoAddresses : Config where
  rules := []
  localIps := [.v4 0x64400001#32, .v4 0xA9FE0001#32]

def dnsAnswer (dst : List Octets.Byte) : List Octets.Byte :=
  [0x45, 0, 0, 28, 0, 0, 0, 0, 64, 17, 0, 0, 1, 2, 3, 4] ++ dst ++ [0, 53, 0xC0, 0, 0, 8, 0, 0]

def dnsQuestion (src : List Octets.Byte) : List Octets.Byte :=
  [0x45, 0, 0, 28, 0, 0, 0, 0, 64, 17, 0, 0] ++ src ++ [1, 2, 3, 4, 0xC0, 0, 0, 53, 0, 8, 0, 0]

/-- The question with the addresses as IPv4-mapped IPv6 addresses. -/
def mappedQuestion : PacketInfo where
  version := 6
  proto := udp
  src := .v6 (mappedOctets (.v4 0x64400001#32))
  dst := .v6 (mappedOctets (.v4 0x01020304#32))
  srcPort := 0xC000
  dstPort := 53
  tcpFlags := 0
  isTcpSyn := false
  isIcmpEchoReply := false
  isIcmpError := false

/-- The answer to a question that was sent before. -/
theorem returnTraffic_iff_dns : ∃ f0 f log q, Filter.Of twoAddresses f0 ∧ f0.state = .empty ∧
    f0.history [.updateOutbound (dnsQuestion [100, 64, 0, 1])] = (f, log) ∧
    parsePacket (dnsAnswer [100, 64, 0, 1]) = some q ∧
    (f.locals q.version).contains q.dst = true ∧ f.ruleMatches q = false ∧
    ((f.checkIn (dnsAnswer [100, 64, 0, 1])).1 = .accept ↔ Expected log q) := by
  obtain ⟨f0, hf0, h0, f, log, hrun, q, hq, hflow, hm, hll, hl, hr⟩ :
      ∃ f0, Filter.Of twoAddresses f0 ∧ f0.state = .empty ∧ ∃ f log,
        f0.history [.updateOutbound (dnsQuestion [100, 64, 0, 1])] = (f, log) ∧ ∃ q,
        parsePacket (dnsAnswer [100, 64, 0, 1]) = some q ∧ (q.proto = udp ∨ q.proto = sctp) ∧
        isMulticast q.dst = false ∧ isLinkLocalUnicast q.dst = false ∧
        (f.locals q.version).contains q.dst = true ∧ f.ruleMatches q = false :=
    ⟨_, .of_build rfl, rfl, _, _, rfl, _, rfl, by decide, by decide, by decide, by decide,
      by decide⟩
  exact ⟨f0, f, log, q, hf0, h0, hrun, hq, hl, hr,
    (returnTraffic_iff f0 h0 _ hq hflow hm hll f log hrun).1 hl hr⟩

/-- The IPv4 answer to a question between IPv4-mapped addresses is accepted, though none was
recorded to its source; the exact answer to a link-local address is dropped. -/
theorem returnTraffic_not_exact :
    (∃ f0 f q, Filter.Of twoAddresses f0 ∧ f0.state = .empty ∧
      f0.history [.updateOutboundInfo mappedQuestion] = (f, [.recorded mappedQuestion]) ∧
      parsePacket (dnsAnswer [100, 64, 0, 1]) = some q ∧ q.proto = udp ∧
      (f.locals q.version).contains q.dst = true ∧ f.ruleMatches q = false ∧
      q.src ≠ mappedQuestion.dst ∧
      (f.checkIn (dnsAnswer [100, 64, 0, 1])).1 = .accept) ∧
    ∃ f0 f q p, Filter.Of twoAddresses f0 ∧ f0.state = .empty ∧
      f0.history [.updateOutbound (dnsQuestion [169, 254, 0, 1])] = (f, [.recorded p]) ∧
      parsePacket (dnsAnswer [169, 254, 0, 1]) = some q ∧ q.proto = udp ∧ p.proto = udp ∧
      q.src = p.dst ∧ q.srcPort = p.dstPort ∧ q.dst = p.src ∧ q.dstPort = p.srcPort ∧
      (f.locals q.version).contains q.dst = true ∧ f.ruleMatches q = false ∧
      (f.checkIn (dnsAnswer [169, 254, 0, 1])).1 = .drop := by
  exact ⟨⟨_, _, _, .of_build rfl, rfl, rfl, rfl, by decide, by decide, by decide, by decide,
    by decide⟩, _, _, _, _, .of_build rfl, rfl, rfl, rfl, by decide, by decide, by decide,
    by decide, by decide, by decide, by decide, by decide, by decide⟩

end Rustscale.PacketFilter
