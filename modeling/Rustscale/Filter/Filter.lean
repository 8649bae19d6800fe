import Rustscale.Filter.Parse
import Rustscale.Flowtrack
import Rustscale.Ipset

/-! The stateful packet filter. -/
namespace Rustscale.PacketFilter
open IpAddr Packet Checks Ipset SetPrefix
open Tailcfg (FilterRule)

/-- What becomes of a packet. -/
inductive Response where
  | accept
  | drop
  | dropSilently
  deriving DecidableEq

/-- A five-tuple with every address as an IPv6 address, IPv4 ones as mapped. -/
structure Tuple where
  src : BitVec 128
  dst : BitVec 128
  srcPort : ℕ
  dstPort : ℕ
  proto : ℕ
  deriving DecidableEq

def mappedOctets : IpAddr → BitVec 128
  | .v4 a => BitVec.ofNat 128 (0xFFFF * 2 ^ 32 + a.toNat)
  | .v6 a => a

structure FlowTuple where
  proto : ℕ
  src : IpAddr
  srcPort : ℕ
  dst : IpAddr
  dstPort : ℕ

def FlowTuple.asTuple (t : FlowTuple) : Tuple :=
  ⟨mappedOctets t.src, mappedOctets t.dst, t.srcPort, t.dstPort, t.proto⟩

def reversedTuple (proto : ℕ) (src : IpAddr) (srcPort : ℕ) (dst : IpAddr) (dstPort : ℕ) :
    FlowTuple := ⟨proto, dst, dstPort, src, srcPort⟩

/-- The cache of flows, which always holds a valid list of at most 512. -/
structure FlowState where
  cache : Flowtrack.Cache Tuple Unit
  valid : cache.Valid 512

namespace FlowState

def empty : FlowState := ⟨_, Flowtrack.Cache.valid_default⟩

def entries (s : FlowState) : List Tuple := s.cache.recency

def lru (s : FlowState) : Lru Tuple 512 := s.valid.lru

/-- A flow that is found becomes the most recently used. The cache does not panic. -/
def get (s : FlowState) (tuple : Tuple) : Bool × FlowState :=
  match h : s.cache.get tuple with
  | .ok (v, cache) => (v.isSome, ⟨cache, by
      obtain ⟨_, _, hv, e, -⟩ := Flowtrack.Cache.get_refines s.valid tuple
      rw [h] at e
      cases e
      exact hv⟩)
  | .error e => False.elim (by
      obtain ⟨_, _, _, e', -⟩ := Flowtrack.Cache.get_refines s.valid tuple
      rw [h] at e'
      cases e')

def add (s : FlowState) (tuple : Tuple) : FlowState :=
  match h : s.cache.add tuple () with
  | .ok cache => ⟨cache, by
      obtain ⟨_, hv, e, -⟩ := Flowtrack.Cache.add_refines s.valid (by decide) tuple ()
      rw [h] at e
      cases e
      exact hv⟩
  | .error e => False.elim (by
      obtain ⟨_, _, e', -⟩ := Flowtrack.Cache.add_refines s.valid (by decide) tuple ()
      rw [h] at e'
      cases e')

section
variable (s : FlowState) (tuple : Tuple)

theorem lru_get : ((s.get tuple).1, (s.get tuple).2.lru) = s.lru.get tuple := by
  obtain ⟨v, c, hv, e, hl⟩ := Flowtrack.Cache.get_refines s.valid tuple
  refine Eq.trans ?_ hl
  unfold get
  split
  · next h =>
    rw [e] at h
    cases h
    rfl
  · next h =>
    rw [e] at h
    cases h

@[simp] theorem lru_add : (s.add tuple).lru = s.lru.add tuple := by
  obtain ⟨c, hv, e, hl⟩ := Flowtrack.Cache.add_refines s.valid (by decide) tuple ()
  refine Eq.trans ?_ hl
  unfold add
  split
  · next h =>
    rw [e] at h
    cases h
    rfl
  · next h =>
    rw [e] at h
    cases h

@[simp] theorem get_fst : (s.get tuple).1 = decide (tuple ∈ s.entries) :=
  (congrArg Prod.fst (s.lru_get tuple)).trans (Lru.get_fst _ _)

end

end FlowState

/-- Every representation answers as the prefixes of the list do, those of the tables and those of
the rules. -/
theorem newContainsIpFunc_contains_iff (ps : List SetPrefix) : ∃ f, newContainsIpFunc ps = .ok f ∧
    ∀ ip, ∃ b, f.contains ip = .ok b ∧ (b = true ↔ ∃ p ∈ ps, p.val.contains ip = true) ∧
      (b = true ↔ ∃ p ∈ ps, IpPrefix.contains ⟨p.val.addr, p.val.bits⟩ ip = true) := by
  obtain ⟨f, hf, hspec⟩ := newContainsIpFunc_spec ps
  refine ⟨f, hf, fun ip => ⟨_, hspec ip, List.any_eq_true, ?_⟩⟩
  rw [List.any_eq_true]
  refine exists_congr fun p => and_congr_right fun _ => ?_
  have hvalid : p.val.bits ≤ p.val.addr.bitLen := p.2
  rw [Art.IpPrefix.contains_iff, IpPrefix.contains_iff, and_iff_right hvalid]
  rfl

/-- A set of local addresses with the representation that answers for it. -/
structure LocalIpSet where
  prefixes : List SetPrefix
  func : Strategy
  built : newContainsIpFunc prefixes = .ok func

namespace LocalIpSet

def new (prefixes : List SetPrefix) : LocalIpSet :=
  match h : newContainsIpFunc prefixes with
  | .ok func => ⟨prefixes, func, h⟩
  | .error e => False.elim (by
      obtain ⟨func, hf, -⟩ := newContainsIpFunc_spec prefixes
      rw [h] at hf
      cases hf)

theorem contains_ok (s : LocalIpSet) (ip : IpAddr) :
    s.func.contains ip = .ok (s.prefixes.any fun p => p.val.contains ip) := by
  obtain ⟨func, hf, hspec⟩ := newContainsIpFunc_spec s.prefixes
  rw [s.built] at hf
  cases hf
  exact hspec ip

def contains (s : LocalIpSet) (ip : IpAddr) : Bool :=
  match h : s.func.contains ip with
  | .ok b => b
  | .error e => False.elim (by
      rw [s.contains_ok] at h
      cases h)

def extend (s : LocalIpSet) (prefixes : List SetPrefix) : LocalIpSet := new (s.prefixes ++ prefixes)

@[simp] theorem new_prefixes (ps : List SetPrefix) : (new ps).prefixes = ps := by
  unfold new
  split
  · rfl
  · next e h =>
    obtain ⟨func, hf, -⟩ := newContainsIpFunc_spec ps
    rw [h] at hf
    cases hf

theorem contains_eq (s : LocalIpSet) (ip : IpAddr) :
    s.contains ip = s.prefixes.any fun p => p.val.contains ip := by
  have hok := s.contains_ok ip
  unfold contains
  split
  · next b h => exact Except.ok.inj (h.symm.trans hok)
  · next e h => cases h.symm.trans hok

end LocalIpSet

abbrev CapHolders := IpAddr → Option (List String)

def hasCap (capHolders : CapHolders) (src : IpAddr) (cap : String) : Bool :=
  if cap.isEmpty then false
  else
    match capHolders src with
    | some caps => caps.contains cap
    | none => false

/-- The compiled rules, the local addresses and the flows of a node. -/
structure Filter where
  matches4 : Matches
  matches6 : Matches
  local4 : LocalIpSet
  local6 : LocalIpSet
  state : FlowState
  shieldsUp : Bool
  capHolders : CapHolders
  cap4 : Matches
  cap6 : Matches

inductive FilterError where
  | parse (text : String)

def FilterError.toString : FilterError → String
  | .parse text => "filter rule parse error: " ++ text

/-- What the rules say of a packet. -/
inductive Verdict where
  | accept
  | noVerdict
  deriving DecidableEq

/-- What is decided before the rules are looked at. -/
inductive PreResult where
  | accept
  | drop
  | continue
  deriving DecidableEq

/-- Checks that come before the rules and the state. -/
def pre (q : PacketInfo) : PreResult :=
  if q.proto = unknown then .drop
  else if isMulticast q.dst then .drop
  else if isLinkLocalUnicast q.dst then .drop
  else if q.proto = fragment then .accept
  else .continue

def partitionLocalIps (ips : List IpAddr) : LocalIpSet × LocalIpSet :=
  (.new ((ips.filter isIpv4).map host), .new ((ips.filter fun ip => !ip.isIpv4).map host))

def parseCidrPrefix (cidr : String) : Option IpPrefix := do
  let (netStr, bitsStr) ← IpText.splitOnce '/' cidr.toList
  let addr ← IpText.parseIpAddr netStr
  let bits ← IpText.parseU8 bitsStr
  if bits ≤ addr.bitLen then some ⟨addr, bits⟩ else none

def localPrefix (cidr : String) : Option SetPrefix := do
  let p ← parseCidrPrefix cidr
  new p.addr p.bits

namespace Filter

def new (rules : List FilterRule) (localIps : List IpAddr) (capHolders : CapHolders) :
    Except FilterError Filter := do
  let all ← (matchesFromFilterRules rules).mapError fun e => .parse e.toString
  let (m4, m6) := all.partitionByFamily
  let (cap4, cap6) := all.partitionCapsByFamily
  let (local4, local6) := partitionLocalIps localIps
  pure
    { matches4 := m4, matches6 := m6, local4, local6, state := .empty, shieldsUp := false,
      capHolders, cap4, cap6 }

def allowNone : Filter :=
  { matches4 := [], matches6 := [], local4 := .new [], local6 := .new [], state := .empty,
    shieldsUp := false, capHolders := fun _ => none, cap4 := [], cap6 := [] }

variable (f : Filter)

def setShieldsUp (on : Bool) : Filter := { f with shieldsUp := on }

def shareStateWith (old : Filter) : Filter × Filter :=
  ({ f with state := old.state }, { old with state := .empty })

/-- `unchanged`: the hash of the inputs is that of the filter. On an error the filter stays. -/
def rebuildIfChanged (unchanged : Bool) (rules : List FilterRule) (localIps : List IpAddr)
    (capHolders : CapHolders) : Except FilterError (Bool × Filter) :=
  if unchanged then .ok (false, f)
  else do
    let newFilter ← new rules localIps capHolders
    let (newFilter, old) := newFilter.shareStateWith f
    pure (true, newFilter.setShieldsUp old.shieldsUp)

/-- Texts that are no CIDR are skipped. -/
def addLocalCidrs (cidrs : List String) : Filter :=
  let prefixes := cidrs.filterMap localPrefix
  { f with
    local4 := f.local4.extend (prefixes.filter fun p => p.val.addr.isIpv4)
    local6 := f.local6.extend (prefixes.filter fun p => !p.val.addr.isIpv4) }

/-- The body of both family functions, with the sets of the family and its ICMP number. -/
def runIn (locals : LocalIpSet) (ms : Matches) (icmp : ℕ) (q : PacketInfo) : Verdict × Filter :=
  if !locals.contains q.dst then (.noVerdict, f)
  else if q.proto = icmp then
    if q.isIcmpEchoReply || q.isIcmpError then (.accept, f)
    else if !f.shieldsUp && ms.matchesIpsOnly q (hasCap f.capHolders) then (.accept, f)
    else (.noVerdict, f)
  else if q.proto = tcp then
    if !q.isTcpSyn then (.accept, f)
    else if !f.shieldsUp && ms.matchesFull q (hasCap f.capHolders) then (.accept, f)
    else (.noVerdict, f)
  else if q.proto = udp ∨ q.proto = sctp then
    let t : FlowTuple := ⟨q.proto, q.src, q.srcPort, q.dst, q.dstPort⟩
    let (hit, state) := f.state.get t.asTuple
    let f := { f with state }
    if hit then (.accept, f)
    else if !f.shieldsUp && ms.matchesFull q (hasCap f.capHolders) then (.accept, f)
    else (.noVerdict, f)
  else if q.proto = tsmp then (.accept, f)
  else if !f.shieldsUp && ms.matchesProtoAndIpsOnlyIfAllPorts q then (.accept, f)
  else (.noVerdict, f)

variable (q : PacketInfo)

def runIn4 : Verdict × Filter :=
  f.runIn f.local4 f.matches4 icmpV4 q

def runIn6 : Verdict × Filter :=
  f.runIn f.local6 f.matches6 icmpV6 q

def checkInInfo : Response × Filter :=
  match pre q with
  | .accept => (.accept, f)
  | .drop => (.drop, f)
  | .continue =>
    let (r, f) := if q.version = 4 then f.runIn4 q else f.runIn6 q
    match r with
    | .accept => (.accept, f)
    | .noVerdict => (.drop, f)

def checkIn (buf : List Octets.Byte) : Response × Filter :=
  if buf.isEmpty then (.accept, f)
  else
    match parsePacket buf with
    | none => (.drop, f)
    | some info => f.checkInInfo info

def updateOutboundInfo : Filter :=
  if q.proto = udp ∨ q.proto = sctp then
    { f with state := f.state.add (reversedTuple q.proto q.src q.srcPort q.dst q.dstPort).asTuple }
  else f

def updateOutbound (buf : List Octets.Byte) : Filter :=
  match parsePacket buf with
  | some info => f.updateOutboundInfo info
  | none => f

def check (src dst : IpAddr) (proto dstPort : ℕ) : Response × Filter :=
  f.checkInInfo
    { version := if src.isIpv4 then 4 else 6
      proto, src, dst, srcPort := 0, dstPort
      tcpFlags := if proto = tcp then synFlag else 0
      isTcpSyn := proto == tcp
      isIcmpEchoReply := false, isIcmpError := false }

end Filter

section Verdicts
variable {f : Filter} {q : PacketInfo}

theorem pre_eq_accept :
    pre q = .accept ↔ q.proto = fragment ∧ isMulticast q.dst = false ∧
      isLinkLocalUnicast q.dst = false := by
  unfold pre
  split_ifs <;> simp_all [unknown, fragment]

namespace Filter

def locals (f : Filter) (version : ℕ) : LocalIpSet := if version = 4 then f.local4 else f.local6

def rulesFor (f : Filter) (version : ℕ) : Matches := if version = 4 then f.matches4 else f.matches6

def icmpOf (version : ℕ) : ℕ := if version = 4 then icmpV4 else icmpV6

def flowKey (q : PacketInfo) : Tuple :=
  FlowTuple.asTuple ⟨q.proto, q.src, q.srcPort, q.dst, q.dstPort⟩

def Established (f : Filter) (q : PacketInfo) : Prop :=
  q.proto = icmpOf q.version ∧ (q.isIcmpEchoReply = true ∨ q.isIcmpError = true) ∨
    q.proto = tcp ∧ q.isTcpSyn = false ∨
    (q.proto = udp ∨ q.proto = sctp) ∧ flowKey q ∈ f.state.entries ∨
    q.proto = tsmp

def ruleMatches (f : Filter) (q : PacketInfo) : Bool :=
  if q.proto = icmpOf q.version then (f.rulesFor q.version).matchesIpsOnly q (hasCap f.capHolders)
  else if q.proto = tcp ∨ q.proto = udp ∨ q.proto = sctp then
    (f.rulesFor q.version).matchesFull q (hasCap f.capHolders)
  else (f.rulesFor q.version).matchesProtoAndIpsOnlyIfAllPorts q

theorem icmpOf_ne (version : ℕ) : icmpOf version ≠ tcp ∧ icmpOf version ≠ udp ∧
    icmpOf version ≠ sctp ∧ icmpOf version ≠ tsmp := by
  unfold icmpOf
  split_ifs <;> decide

/-- What is accepted: local packets of established flows or, shields down, of a rule. -/
theorem runIn_accept_iff {version : ℕ} (hv : q.version = version) :
    (f.runIn (f.locals version) (f.rulesFor version) (icmpOf version) q).1 = .accept ↔
      (f.locals version).contains q.dst = true ∧
        (f.Established q ∨ f.shieldsUp = false ∧ f.ruleMatches q = true) := by
  subst hv
  obtain ⟨ht, hu, hsc, hts⟩ := icmpOf_ne q.version
  unfold runIn Established ruleMatches
  by_cases hl : (f.locals q.version).contains q.dst = true
  · simp only [hl, Bool.not_true, Bool.false_eq_true, if_false, true_and]
    -- one case per arm of the match on the protocol
    by_cases hicmp : q.proto = icmpOf q.version
    · simp only [hicmp, if_true, ht, hu, hsc, hts]
      split_ifs <;> simp_all
    · simp only [hicmp, if_false, false_and, false_or]
      by_cases htcp : q.proto = tcp
      · have hne : tcp ≠ udp ∧ tcp ≠ sctp ∧ tcp ≠ tsmp := by decide
        simp only [htcp, if_true, true_or, hne]
        split_ifs <;> simp_all
      · by_cases hflow : q.proto = udp ∨ q.proto = sctp
        · have hne : q.proto ≠ tsmp := by
            rcases hflow with h | h <;> rw [h] <;> decide
          simp only [htcp, hflow, hne, if_true, if_false]
          split_ifs <;> simp_all [flowKey]
        · simp only [htcp, hflow, if_false]
          split_ifs <;> simp_all
  · simp [hl]

/-- Past the first checks, what is accepted is local and established, or matched with shields down.
-/
theorem checkInInfo_accept_iff (hpre : pre q = .continue) :
    (f.checkInInfo q).1 = .accept ↔ (f.locals q.version).contains q.dst = true ∧
      (f.Established q ∨ f.shieldsUp = false ∧ f.ruleMatches q = true) := by
  have hrun : (if q.version = 4 then f.runIn4 q else f.runIn6 q) =
      f.runIn (f.locals q.version) (f.rulesFor q.version) (icmpOf q.version) q := by
    unfold runIn4 runIn6 locals rulesFor icmpOf
    split_ifs <;> rfl
  rw [← runIn_accept_iff rfl, ← hrun]
  unfold checkInInfo
  rw [hpre]
  dsimp only
  split <;> simp_all

theorem checkInInfo_eq_accept : (f.checkInInfo q).1 = .accept ↔
    pre q = .accept ∨ pre q = .continue ∧ (f.locals q.version).contains q.dst = true ∧
      (f.Established q ∨ f.shieldsUp = false ∧ f.ruleMatches q = true) := by
  cases hpre : pre q with
  | accept | drop => simp [checkInInfo, hpre]
  | «continue» => simp [checkInInfo_accept_iff hpre]

theorem checkInInfo_drop_iff : (f.checkInInfo q).1 = .drop ↔ (f.checkInInfo q).1 ≠ .accept := by
  unfold checkInInfo
  split
  · simp
  · simp
  · dsimp only
    split <;> simp

end Filter
end Verdicts

end Rustscale.PacketFilter
