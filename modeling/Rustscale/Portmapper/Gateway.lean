import Mathlib.Data.List.DropRight
import Rustscale.IpAddr
import Rustscale.Lib.Bytes
import Rustscale.Lib.Machine
import Rustscale.Lib.Utf8

/-! The receive loops of the port mapper, its caches and its mapping, where every value comes with
the sources of the datagrams that it was learnt from. -/
namespace Rustscale.Portmapper
open Octets Bytes List Utf8

structure Source where
  ip : BitVec 32
  port : ℕ
  deriving DecidableEq

variable (P : Source → Prop) (pkt : List Byte)

def number (i n : ℕ) : ℕ := ofBytes .big ((pkt.drop i).take n)

structure PmpResponse where
  opCode : ℕ
  resultCode : ℕ
  internalPort : ℕ := 0
  externalPort : ℕ := 0
  publicAddr : Option (BitVec 32) := none

def parseResponse : Option PmpResponse :=
  let opCode := number pkt 1 1
  let resultCode := number pkt 2 2
  if pkt.length < 12 ∨ number pkt 0 1 ≠ 0 then none
  else if opCode = 0x81 then
    if pkt.length ≠ 16 then none
    else some { opCode, resultCode, internalPort := number pkt 8 2, externalPort := number pkt 10 2 }
  else if opCode = 0x80 then
    if pkt.length ≠ 12 then none
    else
      let addr := BitVec.ofNat 32 (number pkt 8 4)
      some { opCode, resultCode, publicAddr := if addr = 0 then none else some addr }
  else none

/-- The operation and the result of a PCP response. -/
def parseCommonHeader (b : List Byte) : Option (ℕ × ℕ) :=
  if b.length < 24 ∨ number b 0 1 ≠ 2 then none else some (number b 1 1, number b 3 1)

structure PcpMapResponse where
  resultCode : ℕ
  nonce : List Byte
  protocol : ℕ
  internalPort : ℕ
  external : IpAddr × ℕ

def ip16ToSocketaddr (ip port : ℕ) : IpAddr × ℕ :=
  if ip / 2 ^ 32 = 0xffff then (.v4 (.ofNat 32 ip), port) else (.v6 (.ofNat 128 ip), port)

def parseMapResponse (resp : List Byte) : Option PcpMapResponse :=
  if resp.length < 60 then none
  else (parseCommonHeader (resp.take 24)).bind fun (opCode, resultCode) =>
    if opCode ≠ 0x81 then none
    else some {
      resultCode
      nonce := (resp.drop 24).take 12
      protocol := number resp 36 1
      internalPort := number resp 40 2
      external := ip16ToSocketaddr (number resp 44 16) (number resp 42 2) }

structure UpnpDiscoResponse where
  location : String
  server : String
  usn : String
  deriving DecidableEq

/-- The whitespace of Unicode. -/
def isWhitespace (c : Char) : Bool :=
  let n := c.toNat
  decide (9 ≤ n ∧ n ≤ 13 ∨ 0x2000 ≤ n ∧ n ≤ 0x200a) ||
    [0x20, 0x85, 0xa0, 0x1680, 0x2028, 0x2029, 0x202f, 0x205f, 0x3000].contains n

def trim (text : List Char) : List Char := (text.dropWhile isWhitespace).rdropWhile isWhitespace

/-- The value of a header, whose name is found in any case. -/
def headerValue (name : String) (line : List Char) : Option String :=
  let trimmed := trim line
  if name.toList <+: trimmed.map Char.toLower then
    some (.ofList (trim (trimmed.drop name.length)))
  else none

/-- The last header of each name counts. -/
def parseSsdpResponse : Option UpnpDiscoResponse := do
  let text ← ofUtf8 pkt
  let last name := (text.toList.splitOn '\n').reverse.findSome? (headerValue name)
  if "InternetGatewayDevice".toList <:+: text.toList then do
    let location ← last "location:"
    return ⟨location, (last "server:").getD "", (last "usn:").getD ""⟩
  else none

/-- The windows are longer than the text that they are compared with. -/
def looksLikeIgdResponse : Bool :=
  (range (pkt.length - 22)).any fun i => (pkt.drop i).take 23 =
    "InternetGatewayDevice".toList.map fun c => BitVec.ofNat 8 c.toNat

structure GatewayInfo where
  gateway : BitVec 32
  selfIp : BitVec 32
  deriving DecidableEq

structure GatewaySnapshot where
  info : GatewayInfo
  generation : ℕ

inductive MappingKind where
  | pmp
  | pcp
  | upnp
  deriving DecidableEq

structure Mapping where
  external : IpAddr × ℕ
  kind : MappingKind
  deriving DecidableEq

abbrev Learnt (α : Type) := α × List Source

structure PxpWork where
  localPort : ℕ
  pcpNonce : List Byte
  pmpPubIp : Option (Learnt (BitVec 32))
  pmpExternalPort : Option (Learnt ℕ) := none

/-- What `probe_with_snapshot`, `try_pxp_mapping` and `try_upnp_mapping` have learnt so far. -/
inductive Work where
  | probe (responses : List (Learnt UpnpDiscoResponse))
  | pxp (work : PxpWork)
  | upnp (services : List (Learnt String))
  | done

/-- What `reset_mapping_state` forgets. -/
structure Observations where
  pmpPubIp : Option (Learnt (BitVec 32)) := none
  pmpPubIpTime : Option (Learnt ℕ) := none
  pcpSawTime : Option (Learnt ℕ) := none
  upnpServices : List (Learnt String) := []
  mapping : Option (Learnt Mapping) := none

structure Client where
  gateway : Option GatewayInfo := none
  gatewayGeneration : ℕ := 0
  closed : Bool := false
  seen : Observations := {}
  tasks : List (GatewaySnapshot × Work) := []

structure Config where
  pxpPort : ℕ
  upnpPort : ℕ

inductive Action where
  | observeGateway (info : Option GatewayInfo) (hashChanged : Bool)
  | invalidateMappings
  | close
  | releaseMapping
  | startProbe
  | startPxp (localPort : ℕ) (pcpNonce : List Byte)
  | startUpnp
  /-- Whether the port of a mapping is retained is up to the ledger of releases. -/
  | datagram (task : ℕ) (src : Source) (pkt : List Byte) (now : ℕ) (conflicts : Bool)
  | fetchService (task response : ℕ)
  | upnpMapped (task service : ℕ) (external : IpAddr × ℕ)
  | stop (task : ℕ)

def publicAddress : Option (Option (BitVec 32)) :=
  (parseResponse pkt).bind fun r =>
    if r.opCode = 0x80 ∧ r.resultCode = 0 then some r.publicAddr else none

namespace Observations
variable (cfg : Config) (current : Bool) (o : Observations)

/-- A task that finds another gateway returns. -/
def withCurrentGateway (new : Observations) (work : Work) : Observations × Work :=
  if current then (new, work) else (o, .done)

def probeReceive (responses : List (Learnt UpnpDiscoResponse)) (src : Source) (pkt : List Byte) (now : ℕ) :
    Observations × Work :=
  if src.port = cfg.upnpPort ∨ looksLikeIgdResponse pkt then
    match parseSsdpResponse pkt with
    | some response => (o, .probe (responses ++ [(response, [src])]))
    | none => (o, .probe responses)
  else if src.port = cfg.pxpPort then
    if (parseCommonHeader pkt).any (·.1 = 0x80) then
      o.withCurrentGateway current { o with pcpSawTime := some (now, [src]) } (.probe responses)
    else match publicAddress pkt with
      | some addr =>
        o.withCurrentGateway current { o with
          pmpPubIp := addr.map (·, [src])
          pmpPubIpTime := some (now, [src]) } (.probe responses)
      | none => (o, .probe responses)
  else (o, .probe responses)

def pmpMapping (w : PxpWork) (now : ℕ) (conflicts : Bool) : Observations × Work :=
  match w.pmpPubIp, w.pmpExternalPort with
  | some (ip, ipFrom), some (port, portFrom) =>
    if conflicts then (o, .done)
    else o.withCurrentGateway current { o with
      pmpPubIp := some (ip, ipFrom)
      pmpPubIpTime := some (now, ipFrom ++ portFrom)
      mapping := some (⟨(.v4 ip, port), .pmp⟩, ipFrom ++ portFrom) } .done
  | _, _ => (o, .pxp w)

def pxpReceive (gateway : BitVec 32) (w : PxpWork) (src : Source) (pkt : List Byte) (now : ℕ)
    (conflicts : Bool) : Observations × Work :=
  if src ≠ ⟨gateway, cfg.pxpPort⟩ then (o, .pxp w)
  else match parseMapResponse pkt with
    | some r =>
      if r.nonce ≠ w.pcpNonce ∨ r.protocol ≠ 17 ∨ r.internalPort ≠ w.localPort ∨
          r.resultCode ≠ 0 ∨ conflicts = true then (o, .done)
      else o.withCurrentGateway current { o with mapping := some (⟨r.external, .pcp⟩, [src]) } .done
    | none => match parseResponse pkt with
      | none => o.pmpMapping current w now conflicts
      | some r =>
        if r.opCode = 0x81 ∧ r.internalPort ≠ w.localPort then (o, .pxp w)
        else if r.resultCode ≠ 0 then (o, .done)
        else if r.opCode = 0x80 then
          o.pmpMapping current { w with pmpPubIp := r.publicAddr.map (·, [src]) } now conflicts
        else
          o.pmpMapping current { w with pmpExternalPort := some (r.externalPort, [src]) } now
            conflicts

/-- What a task does when something arrives for it. -/
def taskStep (gateway : BitVec 32) : Work → Action → Observations × Work
  | .probe responses, .datagram _ src pkt now _ => o.probeReceive cfg current responses src pkt now
  | .pxp w, .datagram _ src pkt now conflicts =>
    o.pxpReceive cfg current gateway w src pkt now conflicts
  | .probe responses, .fetchService _ k =>
    match responses[k]? with
    | some (r, sources) => o.withCurrentGateway current { o with
        upnpServices := o.upnpServices.filter (·.1 ≠ r.location) ++ [(r.location, sources)] } .done
    | none => (o, .done)
  | .upnp services, .upnpMapped _ k external =>
    match services[k]? with
    | some (_, sources) =>
      o.withCurrentGateway current { o with mapping := some (⟨external, .upnp⟩, sources) } .done
    | none => (o, .done)
  | _, .stop _ => (o, .done)
  | work, _ => (o, work)

end Observations

namespace Client
variable (cfg : Config) (s : Client)

def isCurrent (snapshot : GatewaySnapshot) : Bool :=
  !s.closed && s.gatewayGeneration == snapshot.generation && s.gateway == some snapshot.info

def atTask (i : ℕ) (a : Action) : Client :=
  match s.tasks[i]? with
  | some (snapshot, work) =>
    let (seen, work) :=
      s.seen.taskStep cfg (s.isCurrent snapshot) snapshot.info.gateway work a
    { s with seen, tasks := s.tasks.set i (snapshot, work) }
  | none => s

/-- Work starts under the gateway there is. -/
def start (seen : Observations) (work : Work) : Client :=
  match s.closed, s.gateway with
  | false, some info =>
    { s with seen, tasks := s.tasks ++ [(⟨info, s.gatewayGeneration⟩, work)] }
  | _, _ => s

def step : Action → Client
  | .observeGateway info hashChanged =>
    if s.gateway ≠ info ∨ hashChanged = true then
      { s with gateway := info, gatewayGeneration := s.gatewayGeneration + 1, seen := {} }
    else s
  | .invalidateMappings => { s with gatewayGeneration := s.gatewayGeneration + 1, seen := {} }
  | .close => { s with closed := true }
  | .releaseMapping => { s with seen := { s.seen with mapping := none } }
  | .startProbe => s.start { mapping := s.seen.mapping } (.probe [])
  | .startPxp localPort pcpNonce =>
    s.start s.seen (.pxp ⟨localPort, pcpNonce, s.seen.pmpPubIp, none⟩)
  | .startUpnp => s.start s.seen (.upnp s.seen.upnpServices)
  | a@(.datagram i ..) | a@(.fetchService i _) | a@(.upnpMapped i ..) | a@(.stop i) =>
    s.atTask cfg i a

def run (actions : List Action) : Client := actions.foldl (step cfg) {}

/-- What is reported: the mapping, and the availability of PMP and PCP. -/
def recorded : Option (Learnt Mapping) × Option (Learnt ℕ) × Option (Learnt ℕ) :=
  (s.seen.mapping, s.seen.pmpPubIpTime, s.seen.pcpSawTime)

end Client

def FromGateway (cfg : Config) (gateway : Option GatewayInfo) (src : Source) : Prop :=
  ∃ info ∈ gateway, src.ip = info.gateway ∧ (src.port = cfg.pxpPort ∨ src.port = cfg.upnpPort)

def Known {α : Type} (P : Source → Prop) (o : Option (Learnt α)) : Prop :=
  ∀ learnt ∈ o, ∀ src ∈ learnt.2, P src

structure Observations.Trusts (P : Source → Prop) (o : Observations) : Prop where
  mapping : Known P o.mapping
  pmpPubIp : Known P o.pmpPubIp
  pmpPubIpTime : Known P o.pmpPubIpTime
  pcpSawTime : Known P o.pcpSawTime
  upnpServices : ∀ learnt ∈ o.upnpServices, ∀ src ∈ learnt.2, P src

def Work.Trusts : Work → Prop
  | .probe l => ∀ learnt ∈ l, ∀ src ∈ learnt.2, P src
  | .upnp l => ∀ learnt ∈ l, ∀ src ∈ learnt.2, P src
  | .pxp w => Known P w.pmpPubIp ∧ Known P w.pmpExternalPort
  | .done => True

def Action.Trusts : Action → Prop
  | .datagram _ src _ _ _ => P src
  | _ => True

/-- What is recorded, or may be later, was learnt from the gateway of the current generation. -/
structure Believed (cfg : Config) (s : Client) : Prop where
  older : ∀ t ∈ s.tasks, t.1.generation ≤ s.gatewayGeneration
  seen : s.seen.Trusts (FromGateway cfg s.gateway)
  tasks : ∀ t ∈ s.tasks, s.isCurrent t.1 = true → t.2.Trusts (FromGateway cfg s.gateway)

/-- A datagram that a probe acts on. -/
def Heeds (cfg : Config) (src : Source) (pkt : List Byte) : Prop :=
  if src.port = cfg.upnpPort ∨ looksLikeIgdResponse pkt then parseSsdpResponse pkt ≠ none
  else src.port = cfg.pxpPort ∧
    ((parseCommonHeader pkt).any (·.1 = 0x80) ∨ publicAddress pkt ≠ none)

/-- The datagrams that a probe acts on come from the gateway. -/
def Cautious (cfg : Config) (s : Client) : Action → Prop
  | .datagram i src pkt _ _ => ∀ snapshot responses, s.tasks[i]? = some (snapshot, .probe responses) →
    s.isCurrent snapshot = true → Heeds cfg src pkt → src.ip = snapshot.info.gateway
  | _ => True

/-- Datagrams from elsewhere change nothing that is reported. -/
def Unmoved (cfg : Config) (s : Client) : Action → Prop
  | .datagram i src pkt now conflicts => ¬FromGateway cfg s.gateway src →
    (s.step cfg (.datagram i src pkt now conflicts)).recorded = s.recorded
  | _ => True

section
open Observations
variable {cfg : Config} {current : Bool} {o : Observations} {s : Client} {gateway : BitVec 32}
  {snapshot : GatewaySnapshot} {work : Work} {i : ℕ} {src : Source} {pkt : List Byte} {now : ℕ}
  {conflicts : Bool} {P : Source → Prop} {a : Action}

/-- What a task leaves behind. -/
structure Keeps (P : Source → Prop) (current : Bool) (o : Observations) (r : Observations × Work) :
    Prop where
  stale : current = false → r.1 = o
  seen : r.1.Trusts P
  work : r.2.Trusts P

theorem Keeps.same (ho : o.Trusts P) (hw : work.Trusts P) : Keeps P current o (o, work) :=
  ⟨fun _ => rfl, ho, hw⟩

theorem Keeps.withCurrentGateway {new : Observations} (ho : o.Trusts P) (hn : new.Trusts P)
    (hw : work.Trusts P) : Keeps P current o (o.withCurrentGateway current new work) := by
  cases current with
  | true => exact ⟨nofun, hn, hw⟩
  | false => exact .same ho trivial

theorem pmpMapping_keeps {w : PxpWork} (ho : o.Trusts P) (hw : (Work.pxp w).Trusts P) :
    Keeps P current o (o.pmpMapping current w now conflicts) := by
  unfold pmpMapping
  split
  · next ip ipFrom port portFrom hip hport =>
    have hfrom : ∀ x ∈ ipFrom, P x := hw.1 (ip, ipFrom) hip
    have hboth : ∀ x ∈ ipFrom ++ portFrom, P x :=
      forall_mem_append.mpr ⟨hfrom, hw.2 (port, portFrom) hport⟩
    split_ifs
    · exact .same ho trivial
    · exact .withCurrentGateway ho { ho with
        mapping := by simpa [Known] using hboth
        pmpPubIp := by simpa [Known] using hfrom
        pmpPubIpTime := by simpa [Known] using hboth } trivial
  · exact .same ho hw

/-- Step: a task learns only from the sources it trusts. -/
theorem taskStep_keeps (ho : o.Trusts P) (hw : work.Trusts P) (ha : a.Trusts P) :
    Keeps P current o (o.taskStep cfg current gateway work a) := by
  unfold taskStep
  split
  · next src pkt now _ =>
    have hsrc : P src := ha
    unfold probeReceive
    split_ifs
    · split
      · refine .same ho fun l hl => ?_
        rcases mem_append.mp hl with hl | hl
        · exact hw l hl
        · simpa [mem_singleton.mp hl] using hsrc
      · exact .same ho hw
    · exact .withCurrentGateway ho { ho with pcpSawTime := by simpa [Known] } hw
    · split
      · exact .withCurrentGateway ho { ho with
          pmpPubIp := by simp [Known, hsrc]
          pmpPubIpTime := by simpa [Known] } hw
      · exact .same ho hw
    · exact .same ho hw
  · next w _ src pkt now conflicts =>
    have hsrc : P src := ha
    unfold pxpReceive
    split_ifs
    · exact .same ho hw
    split
    · split_ifs
      · exact .same ho trivial
      · exact .withCurrentGateway ho { ho with mapping := by simpa [Known] } trivial
    split
    · exact pmpMapping_keeps ho hw
    · split_ifs
      · exact .same ho hw
      · exact .same ho trivial
      · exact pmpMapping_keeps ho ⟨by simp [Known, hsrc], hw.2⟩
      · exact pmpMapping_keeps ho ⟨hw.1, by simpa [Known]⟩
  · split
    · next r sources hr =>
      refine .withCurrentGateway ho { ho with upnpServices := fun l hl => ?_ } trivial
      rcases mem_append.mp hl with hl | hl
      · exact ho.upnpServices l (mem_filter.mp hl).1
      · exact mem_singleton.mp hl ▸ hw (r, sources) (mem_of_getElem? hr)
    · exact .same ho trivial
  · split
    · next sources hr =>
      have hsources := hw _ (mem_of_getElem? hr)
      exact .withCurrentGateway ho { ho with mapping := by simpa [Known] using hsources } trivial
    · exact .same ho trivial
  · exact .same ho trivial
  · exact .same ho hw

theorem taskStep_stale : (o.taskStep cfg false gateway work a).1 = o :=
  (taskStep_keeps (P := fun _ => True) (by constructor <;> simp [Known])
    (by cases work <;> simp [Work.Trusts, Known]) (by cases a <;> trivial)).stale rfl

theorem looksLikeIgdResponse_eq (pkt : List Byte) : looksLikeIgdResponse pkt = false := by
  rw [looksLikeIgdResponse, any_eq_false]
  intro i hi heq
  have hlen := congrArg length (of_decide_eq_true heq)
  simp at hi hlen
  omega

theorem Client.isCurrent_iff : s.isCurrent snapshot = true ↔ s.closed = false ∧
    s.gatewayGeneration = snapshot.generation ∧ s.gateway = some snapshot.info := by
  simp [Client.isCurrent, and_assoc]

/-- A task that is current acts on datagrams from the gateway only. -/
theorem taskStep_datagram (hc : Cautious cfg s (.datagram i src pkt now conflicts))
    (ht : s.tasks[i]? = some (snapshot, work)) (hcur : s.isCurrent snapshot = true) :
    FromGateway cfg s.gateway src ∨
      s.seen.taskStep cfg true snapshot.info.gateway work (.datagram i src pkt now conflicts) =
        (s.seen, work) := by
  have hgateway := (Client.isCurrent_iff.mp hcur).2.2
  cases work with
  | probe responses =>
    by_cases hh : Heeds cfg src pkt
    · refine .inl ⟨snapshot.info, hgateway, hc snapshot responses ht hcur hh, ?_⟩
      simp only [Heeds, looksLikeIgdResponse_eq, Bool.false_eq_true, or_false] at hh
      split_ifs at hh with hport
      · exact .inr hport
      · exact .inl hh.1
    · right
      simp only [Heeds] at hh
      simp only [taskStep, probeReceive]
      split_ifs at hh ⊢ with hssdp hport hpcp
      · rw [not_not.mp hh]
      · exact absurd ⟨hport, .inl hpcp⟩ hh
      · rw [show publicAddress pkt = none by tauto]
      · rfl
  | pxp w =>
    by_cases hsrc : src = ⟨snapshot.info.gateway, cfg.pxpPort⟩
    · exact .inl (hsrc ▸ ⟨snapshot.info, hgateway, rfl, .inl rfl⟩)
    · exact .inr (if_pos hsrc)
  | upnp | done => exact .inr rfl

theorem heeds_learnt {responses : List (Learnt UpnpDiscoResponse)} (hh : Heeds cfg src pkt)
    (ho : (o.probeReceive cfg true responses src pkt now).1.Trusts P)
    (hw : (o.probeReceive cfg true responses src pkt now).2.Trusts P) : P src := by
  unfold Heeds at hh
  unfold probeReceive at ho hw
  split_ifs at hh ho hw with hssdp hport hpcp
  · obtain ⟨response, hr⟩ := Option.ne_none_iff_exists'.mp hh
    rw [hr] at hw
    exact hw (response, [src]) (by simp) src (by simp)
  · exact ho.pcpSawTime _ rfl src (by simp)
  · obtain ⟨addr, hr⟩ := Option.ne_none_iff_exists'.mp (hh.2.resolve_left hpcp)
    rw [hr] at ho
    exact ho.pmpPubIpTime _ rfl src (by simp)
  · exact absurd hh.1 hport

/-- Step: what is stored still comes from the current gateway. -/
theorem Believed.atTask (h : Believed cfg s)
    (ha : ∀ snapshot work, s.tasks[i]? = some (snapshot, work) → s.isCurrent snapshot = true →
      a.Trusts (FromGateway cfg s.gateway) ∨
        s.seen.taskStep cfg true snapshot.info.gateway work a = (s.seen, work)) :
    Believed cfg (s.atTask cfg i a) := by
  unfold Client.atTask
  split
  · next snapshot work ht =>
    have hmem := mem_of_getElem? ht
    have hset : ∀ {seen : Observations} {work' : Work}, seen.Trusts (FromGateway cfg s.gateway) →
        (s.isCurrent snapshot = true → work'.Trusts (FromGateway cfg s.gateway)) →
        Believed cfg { s with seen, tasks := s.tasks.set i (snapshot, work') } := by
      intro seen work' hseen hwork
      refine ⟨fun t ht' => ?_, hseen, fun t ht' hcur => ?_⟩ <;>
        rcases mem_or_eq_of_mem_set ht' with ht' | rfl
      · exact h.older t ht'
      · exact h.older (snapshot, work) hmem
      · exact h.tasks t ht' hcur
      · exact hwork hcur
    cases hcur : s.isCurrent snapshot with
    | true =>
      have hw := h.tasks _ hmem hcur
      rcases ha snapshot work ht hcur with ha | ha
      · exact hset (taskStep_keeps h.seen hw ha).seen fun _ => (taskStep_keeps h.seen hw ha).work
      · rw [ha]
        exact hset h.seen fun _ => hw
    | false =>
      have hseen : (s.seen.taskStep cfg false snapshot.info.gateway work a).1.Trusts
          (FromGateway cfg s.gateway) := by
        rw [taskStep_stale]
        exact h.seen
      exact hset hseen fun hc => by simp [hcur] at hc
  · exact h

theorem Believed.start {seen : Observations} (h : Believed cfg s)
    (hseen : seen.Trusts (FromGateway cfg s.gateway))
    (hwork : work.Trusts (FromGateway cfg s.gateway)) : Believed cfg (s.start seen work) := by
  unfold Client.start
  split
  · refine ⟨fun t ht => ?_, hseen, fun t ht hcur => ?_⟩ <;>
      rcases mem_append.mp ht with ht | ht
    · exact h.older t ht
    · rw [mem_singleton.mp ht]
    · exact h.tasks t ht hcur
    · rw [mem_singleton.mp ht]
      exact hwork
  · exact h

/-- With a new generation everything is forgotten, and no task is current. -/
theorem Believed.reset (h : Believed cfg s) (info : Option GatewayInfo) :
    Believed cfg { s with gateway := info, gatewayGeneration := s.gatewayGeneration + 1, seen := {} } := by
  refine ⟨fun t ht => (h.older t ht).trans (Nat.le_succ _), ⟨nofun, nofun, nofun, nofun, nofun⟩, ?_⟩
  intro t ht hcur
  have hgen : s.gatewayGeneration + 1 = t.1.generation := (Client.isCurrent_iff.mp hcur).2.1
  have := h.older t ht
  omega

theorem Believed.step (h : Believed cfg s) (hc : Cautious cfg s a) : Believed cfg (s.step cfg a) := by
  cases a with
  | observeGateway info hashChanged =>
    rw [Client.step]
    split_ifs
    · exact h.reset info
    · exact h
  | invalidateMappings => exact h.reset s.gateway
  | close => exact ⟨h.older, h.seen, fun t _ hcur => by simp [Client.isCurrent, Client.step] at hcur⟩
  | releaseMapping => exact ⟨h.older, { h.seen with mapping := nofun }, h.tasks⟩
  | startProbe => exact h.start ⟨h.seen.mapping, nofun, nofun, nofun, nofun⟩ nofun
  | startPxp => exact h.start h.seen ⟨h.seen.pmpPubIp, nofun⟩
  | startUpnp => exact h.start h.seen h.seen.upnpServices
  | datagram => exact h.atTask fun _ _ ht hcur => taskStep_datagram hc ht hcur
  | fetchService | upnpMapped | stop => exact h.atTask fun _ _ _ _ => .inl trivial

theorem unmoved_of_cautious (hc : Cautious cfg s a) : Unmoved cfg s a := by
  cases a with
  | datagram i src pkt now conflicts =>
    intro hfrom
    simp only [Client.step, Client.atTask]
    split
    · next snapshot work ht =>
      cases hcur : s.isCurrent snapshot with
      | true =>
        rw [(taskStep_datagram hc ht hcur).resolve_left hfrom]
        rfl
      | false =>
        rw [Client.recorded, taskStep_stale]
        rfl
    · rfl
  | _ => trivial

theorem cautious_of_believed (h : Believed cfg (s.step cfg a)) : Cautious cfg s a := by
  cases a with
  | datagram i src pkt now conflicts =>
    intro snapshot responses ht hcur hh
    have hgateway := (Client.isCurrent_iff.mp hcur).2.2
    have hseen := h.seen
    have htasks := h.tasks
    simp only [Client.step, Client.atTask, ht, hcur] at hseen htasks
    have hlt := (List.getElem?_eq_some_iff.mp ht).1
    obtain ⟨info, hinfo, hip, -⟩ := heeds_learnt hh hseen
      (htasks (snapshot, _) (mem_set hlt _) hcur)
    rw [hip, Option.mem_unique hgateway hinfo]
  | _ => trivial

/-- In every run only the gateway is believed, and datagrams from elsewhere change nothing, exactly
if those that a current probe acts on come from the gateway. -/
theorem gateway_believed_iff (actions : List Action) :
    Machine.Every (fun front a => Believed cfg (Client.run cfg (front ++ [a])) ∧
      Unmoved cfg (Client.run cfg front) a) actions ↔
    Machine.Every (fun front a => Cautious cfg (Client.run cfg front) a) actions := by
  have hrun : ∀ front a, Client.run cfg (front ++ [a]) = (Client.run cfg front).step cfg a := by
    intro front a
    rw [Client.run, foldl_append]
    rfl
  refine ⟨fun h front a back heq => cautious_of_believed (hrun front a ▸ (h front a back heq).1),
    fun h front a back heq => ?_⟩
  have hfront : Believed cfg (Client.run cfg front) :=
    Machine.Every.invariant (heq ▸ h).left
      ⟨nofun, ⟨nofun, nofun, nofun, nofun, nofun⟩, nofun⟩ fun _ _ => Believed.step
  have hc := h front a back heq
  exact ⟨hrun front a ▸ hfront.step hc, unmoved_of_cautious hc⟩

/-- Another host answers the probe, and the address that it names is that of the mapping which the
gateway grants. -/
theorem foreign_address_mapped :
    let s := Client.run ⟨5351, 1900⟩ [
      .observeGateway (some ⟨0xc0a80101, 0xc0a80132⟩) true, .startProbe,
      .datagram 0 ⟨0xc0a80142, 5351⟩ [0, 0x80, 0, 0, 0, 0, 0, 1, 203, 0, 113, 9] 1 false,
      .startPxp 41641 [],
      .datagram 1 ⟨0xc0a80101, 5351⟩
        [0, 0x81, 0, 0, 0, 0, 0, 1, 0xa2, 0xa9, 0xa2, 0xa9, 0, 0, 0x1c, 0x20] 2 false]
    s.seen.mapping = some (⟨(.v4 0xcb007109, 41641), .pmp⟩,
      [⟨0xc0a80142, 5351⟩, ⟨0xc0a80101, 5351⟩]) := by
  decide +kernel

end
end Rustscale.Portmapper
