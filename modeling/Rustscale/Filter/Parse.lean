import Rustscale.Filter.Match

/-! Filter rules as the control plane sends them, and their compilation. -/
namespace Rustscale.Tailcfg

structure PortRange where
  first : ℕ
  last : ℕ
  deriving DecidableEq

structure NetPortRange where
  ip : String
  bits : Option ℤ := none
  ports : PortRange

structure CapGrant where
  dsts : List String := []
  caps : List String := []
  capMap : List (String × List String) := []

/-- A rule as control sends it. -/
structure FilterRule where
  srcIPs : List String := []
  srcBits : List ℤ := []
  dstPorts : List NetPortRange := []
  ipProto : List ℤ := []
  capGrant : List CapGrant := []

/-- Characters that are not printable are left as they are. -/
def escapeChar (c : Char) : List Char :=
  if c = '"' then ['\\', '"']
  else if c = '\\' then ['\\', '\\']
  else if c = '\n' then ['\\', 'n']
  else if c = '\r' then ['\\', 'r']
  else if c = '\t' then ['\\', 't']
  else if c.toNat = 0 then ['\\', '0']
  else [c]

def NetPortRange.debug (d : NetPortRange) : String :=
  "NetPortRange \x7b IP: \"" ++ String.ofList (d.ip.toList.flatMap escapeChar) ++
    "\", Bits: None, Ports: PortRange \x7b First: " ++ toString d.ports.first ++ ", Last: " ++
    toString d.ports.last ++ " \x7d \x7d"

end Rustscale.Tailcfg

namespace Rustscale.PacketFilter
open IpAddr Packet Checks List
open Tailcfg (FilterRule CapGrant)

def defaultProtos : List ℕ := [tcp, udp, icmpV4, icmpV6]

/-- A source of a rule: addresses, or the holders of a capability. -/
inductive IpSetResult where
  | prefixes (ps : List IpPrefix)
  | cap (name : String)

def stripCap : List Char → Option (List Char)
  | 'c' :: 'a' :: 'p' :: ':' :: rest => some rest
  | _ => none

def rangeResult (arg : String) : IpAddr → IpAddr → Except ParseError IpSetResult
  | .v4 first, .v4 last => do
    ensure (decide (first.toNat ≤ last.toNat)) (.invalidRange arg)
    ensure (!(rangeToPrefixesV4 first last).isEmpty) (.invalidRange arg)
    pure (.prefixes (rangeToPrefixesV4 first last))
  | .v6 first, .v6 last => do
    ensure (decide (first.toNat ≤ last.toNat)) (.invalidRange arg)
    ensure (!(rangeToPrefixesV6 first last).isEmpty) (.invalidRange arg)
    pure (.prefixes (rangeToPrefixesV6 first last))
  | _, _ => .error (.invalidRange arg)

/-- A text with exactly one dash. -/
def parseRange (arg : String) : Except ParseError IpSetResult := do
  let (a, b) ← okOr (IpText.splitOnce '-' arg.toList) (.invalidRange arg)
  let ip1 ← parseIp a
  let ip2 ← parseIp b
  rangeResult arg ip1 ip2

def parseIpSet (arg : String) : Except ParseError IpSetResult :=
  if arg = "*" then .ok (.prefixes wildcardPrefixes)
  else
    match stripCap arg.toList with
    | some name => .ok (.cap (String.ofList name))
    | none =>
      if arg.toList.contains '/' then do
        let p ← parseCidr arg
        pure (.prefixes [p])
      else if arg.toList.count '-' = 1 then parseRange arg
      else do
        let ip ← parseIp arg.toList
        pure (.prefixes [hostPrefix ip])

/-- A rule under compilation and the first error met so far. -/
abbrev Building := Match × Option ParseError

def addSrc (st : Building) (s : String) : Building :=
  match parseIpSet s with
  | .ok (.prefixes ps) => ({ st.1 with srcs := st.1.srcs ++ ps }, st.2)
  | .ok (.cap name) => ({ st.1 with srcCaps := st.1.srcCaps ++ [name] }, st.2)
  | .error e => (st.1, st.2.or (some e))

def addDst (st : Building) (d : Tailcfg.NetPortRange) : Except ParseError Building :=
  if d.bits.isSome then
    .error (.invalidCidr
      "unexpected DstBits; control plane should not send this to this client version")
  else
    match parseIpSet d.ip with
    | .ok (.prefixes ps) =>
      .ok ({ st.1 with
        dsts := st.1.dsts ++ ps.map fun p => ⟨p, ⟨d.ports.first, d.ports.last⟩⟩ }, st.2)
    | .ok (.cap _) =>
      .ok (st.1, st.2.or (some (.invalidIp ("unexpected capability in DstPorts: " ++ d.debug))))
    | .error e => .ok (st.1, st.2.or (some e))

/-- The flat list of capabilities, then the map with values. -/
def grantsOn (grant : CapGrant) (p : IpPrefix) : List CapMatch :=
  (grant.caps.map fun cap => ⟨p, cap, []⟩) ++ grant.capMap.map fun e => ⟨p, e.1, e.2⟩

/-- Destinations that are not a set of addresses are skipped. -/
def parseCapGrant (grant : CapGrant) : List CapMatch :=
  grant.dsts.flatMap fun dst =>
    match parseIpSet dst with
    | .ok (.prefixes ps) => ps.flatMap (grantsOn grant)
    | _ => []

def ruleProtos (r : FilterRule) : List ℕ :=
  if r.ipProto.isEmpty then defaultProtos
  else (r.ipProto.filter fun n => decide (0 ≤ n) && decide (n ≤ 255)).map Int.toNat

def compileRule (firstErr : Option ParseError) (r : FilterRule) : Except ParseError Building := do
  ensure r.srcBits.isEmpty (.invalidCidr
    "unexpected SrcBits; control plane should not send this to this client version")
  let st := r.srcIPs.foldl addSrc ({ ipProto := ruleProtos r }, firstErr)
  let st ← r.dstPorts.foldlM addDst st
  pure ({ st.1 with caps := r.capGrant.flatMap parseCapGrant }, st.2)

def compileRules :
    Option ParseError → List FilterRule → Except ParseError (Matches × Option ParseError)
  | firstErr, [] => .ok ([], firstErr)
  | firstErr, r :: rules => do
    let (m, firstErr) ← compileRule firstErr r
    let (ms, firstErr) ← compileRules firstErr rules
    pure (m :: ms, firstErr)

def matchesFromFilterRules (rules : List FilterRule) : Except ParseError Matches := do
  let (ms, firstErr) ← compileRules none rules
  match firstErr with
  | some e => .error e
  | none => .ok ms

section Compiled

def setPrefixes (s : String) : List IpPrefix :=
  match parseIpSet s with
  | .ok (.prefixes ps) => ps
  | _ => []

def setCap (s : String) : Option String :=
  match parseIpSet s with
  | .ok (.cap name) => some name
  | _ => none

def dstEntries (d : Tailcfg.NetPortRange) : List NetPortRange :=
  (setPrefixes d.ip).map fun p => ⟨p, ⟨d.ports.first, d.ports.last⟩⟩

def compiled (r : FilterRule) : Match :=
  { ipProto := ruleProtos r
    srcs := r.srcIPs.flatMap setPrefixes
    srcCaps := r.srcIPs.filterMap setCap
    dsts := r.dstPorts.flatMap dstEntries
    caps := r.capGrant.flatMap parseCapGrant }

/-- Every part of a rule can be read. -/
structure Parses (r : FilterRule) : Prop where
  srcBits : r.srcBits = []
  srcs : ∀ s ∈ r.srcIPs, ∃ x, parseIpSet s = .ok x
  dsts : ∀ d ∈ r.dstPorts, d.bits = none ∧ ∃ ps, parseIpSet d.ip = .ok (.prefixes ps)

theorem addSrc_eq (st : Building) (s : String) :
    (addSrc st s).1 = { st.1 with
      srcs := st.1.srcs ++ setPrefixes s, srcCaps := st.1.srcCaps ++ (setCap s).toList } ∧
    ((addSrc st s).2 = none ↔ st.2 = none ∧ ∃ x, parseIpSet s = .ok x) := by
  unfold addSrc setPrefixes setCap
  cases parseIpSet s with
  | error e => simp
  | ok x => cases x <;> simp

theorem foldl_addSrc (l : List String) (st : Building) :
    (l.foldl addSrc st).1 = { st.1 with
      srcs := st.1.srcs ++ l.flatMap setPrefixes
      srcCaps := st.1.srcCaps ++ l.filterMap setCap } ∧
    ((l.foldl addSrc st).2 = none ↔ st.2 = none ∧ ∀ s ∈ l, ∃ x, parseIpSet s = .ok x) := by
  induction l generalizing st with
  | nil => simp
  | cons s l ih =>
    obtain ⟨hm, he⟩ := addSrc_eq st s
    obtain ⟨ihm, ihe⟩ := ih (addSrc st s)
    rw [foldl_cons, ihm, ihe, hm, he, forall_mem_cons, and_assoc]
    refine ⟨?_, Iff.rfl⟩
    cases hc : setCap s <;> simp [hc]

variable {st : Building} {m : Match} {firstErr : Option ParseError} {rules : List FilterRule}
  {ms : Matches}

theorem addDst_eq_ok {d : Tailcfg.NetPortRange} :
    addDst st d = .ok (m, none) ↔
      st.2 = none ∧ (d.bits = none ∧ ∃ ps, parseIpSet d.ip = .ok (.prefixes ps)) ∧
        m = { st.1 with dsts := st.1.dsts ++ dstEntries d } := by
  unfold addDst dstEntries setPrefixes
  obtain ⟨m0, e⟩ := st
  cases hb : d.bits with
  | some b => simp
  | none =>
    cases parseIpSet d.ip with
    | error e => simp
    | ok x => cases x <;> simp [eq_comm, and_comm]

theorem foldlM_addDst {l : List Tailcfg.NetPortRange} :
    l.foldlM addDst st = .ok (m, none) ↔
      st.2 = none ∧ (∀ d ∈ l, d.bits = none ∧ ∃ ps, parseIpSet d.ip = .ok (.prefixes ps)) ∧
        m = { st.1 with dsts := st.1.dsts ++ l.flatMap dstEntries } := by
  induction l generalizing st with
  | nil =>
    obtain ⟨m0, e⟩ := st
    cases m0
    simp [List.foldlM, pure, Except.pure, and_comm, eq_comm]
  | cons d l ih =>
    simp only [foldlM_cons, bind_eq_ok, ih]
    constructor
    · rintro ⟨⟨m1, e⟩, hrun, rfl, hl, rfl⟩
      obtain ⟨he, hd, rfl⟩ := addDst_eq_ok.mp hrun
      exact ⟨he, forall_mem_cons.mpr ⟨hd, hl⟩, by simp⟩
    · rintro ⟨he, hl, rfl⟩
      obtain ⟨hd, hl⟩ := forall_mem_cons.mp hl
      exact ⟨(_, none), addDst_eq_ok.mpr ⟨he, hd, rfl⟩, rfl, hl, by simp⟩

theorem compileRule_eq_ok {r : FilterRule} :
    compileRule firstErr r = .ok (m, none) ↔
      firstErr = none ∧ Parses r ∧ m = compiled r := by
  obtain ⟨hm, he⟩ := foldl_addSrc r.srcIPs ({ ipProto := ruleProtos r }, firstErr)
  simp only [compileRule, bind_eq_ok, ensure_eq_ok, exists_unit, pure, Except.pure,
    Except.ok.injEq, List.isEmpty_iff, Prod.mk.injEq]
  constructor
  · rintro ⟨hbits, ⟨m1, e⟩, hdsts, rfl, rfl⟩
    obtain ⟨hnone, hd, rfl⟩ := foldlM_addDst.mp hdsts
    obtain ⟨hfirst, hs⟩ := he.mp hnone
    exact ⟨hfirst, ⟨hbits, hs, hd⟩, by simp [hm, compiled]⟩
  · rintro ⟨hfirst, hr, rfl⟩
    refine ⟨hr.srcBits, (_, none), foldlM_addDst.mpr ⟨he.mpr ⟨hfirst, hr.srcs⟩, hr.dsts, rfl⟩, ?_,
      rfl⟩
    simp [hm, compiled]

theorem compileRules_eq_ok : compileRules firstErr rules = .ok (ms, none) ↔
      firstErr = none ∧ (∀ r ∈ rules, Parses r) ∧ ms = rules.map compiled := by
  induction rules generalizing firstErr ms with
  | nil => simp [compileRules, eq_comm, and_comm]
  | cons r rules ih =>
    simp only [compileRules, bind_eq_ok, pure, Except.pure, Except.ok.injEq, Prod.exists,
      Prod.mk.injEq]
    constructor
    · rintro ⟨m, e, hr, ms', e', hrules, rfl, rfl⟩
      obtain ⟨rfl, hall, rfl⟩ := ih.mp hrules
      obtain ⟨rfl, hp, rfl⟩ := compileRule_eq_ok.mp hr
      exact ⟨rfl, forall_mem_cons.mpr ⟨hp, hall⟩, rfl⟩
    · rintro ⟨rfl, hall, rfl⟩
      obtain ⟨hp, hall⟩ := forall_mem_cons.mp hall
      exact ⟨_, none, compileRule_eq_ok.mpr ⟨rfl, hp, rfl⟩, _, none, ih.mpr ⟨rfl, hall, rfl⟩, rfl,
        rfl⟩

theorem matchesFromFilterRules_eq_ok :
    matchesFromFilterRules rules = .ok ms ↔
      (∀ r ∈ rules, Parses r) ∧ ms = rules.map compiled := by
  have hcases : matchesFromFilterRules rules = .ok ms ↔
      compileRules none rules = .ok (ms, none) := by
    unfold matchesFromFilterRules
    rw [bind_eq_ok]
    constructor
    · rintro ⟨⟨ms', e⟩, hrun, h⟩
      cases e with
      | some e => cases h
      | none =>
        cases h
        exact hrun
    · exact fun h => ⟨_, h, rfl⟩
  rw [hcases, compileRules_eq_ok]
  simp

end Compiled

end Rustscale.PacketFilter
