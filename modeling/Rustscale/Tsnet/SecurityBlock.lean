import Rustscale.Lib.Machine
import Rustscale.Router.Stateful

/-! The kernel block of direct traffic, latched by reasons, around any platform router. -/
namespace Rustscale.SecurityBlock
open Router List

/-- The commands of a platform router; any of them may fail. -/
structure PlatformRouter (ρ ε : Type) where
  set : RouterConfig → ρ → Option ε × ρ
  blockDirect : ρ → Option ε × ρ
  unblockDirect : ρ → Option ε × ρ

/-- Why direct traffic is blocked. -/
inductive SecurityBlockReason where
  | mapLoss
  | enumeration
  | linkRefresh
  | transition
  deriving DecidableEq

def SecurityBlockReason.bit : SecurityBlockReason → BitVec 8
  | .mapLoss => 1
  | .enumeration => 2
  | .linkRefresh => 4
  | .transition => 8

/-- A router with what is known of its block. -/
structure ManagedRouter (ρ : Type) where
  router : ρ
  exitNode : Bool
  securityBlockAttempted : Bool
  securityBlockVerified : Bool
  securityBlockReasons : BitVec 8

/-- Why an application fails, with the errors of the router. -/
inductive TsnetError (ε : Type) where
  | install (error : ε)
  | verify (error : ε)
  | restored (unblockError : ε)
  | fatal (unblockError reblockError : ε)
  | route (error : ε)

def TsnetError.message {ε : Type} (display : ε → String) : TsnetError ε → String
  | .install e => "install kernel direct-traffic block: " ++ display e
  | .verify e => "verify kernel direct-traffic block: " ++ display e
  | .restored e => "remove kernel direct-traffic block: " ++ display e ++
      "; emergency block restored and verified"
  | .fatal e e' => "fatal: remove kernel direct-traffic block: " ++ display e ++
      "; failed to restore emergency block: " ++ display e'
  | .route e => "route configuration failed: " ++ display e

/-- Whether the command succeeded, and what was recorded when it was issued. -/
inductive Event where
  | block (ok : Bool)
  | unblock (reason : SecurityBlockReason) (reasons : BitVec 8) (ok : Bool)
  | set (config : RouterConfig) (lanDenied exitNode verified ok : Bool)

namespace ManagedRouter
variable {ρ ε : Type} (R : PlatformRouter ρ ε)

/-- What a function returns, the router after it and the commands that it issued. -/
abbrev Result (ρ ε α : Type) := Except (TsnetError ε) α × ManagedRouter ρ × List Event

variable (config : RouterConfig) (enteringExitNode lanDenied : Bool) (reason : SecurityBlockReason)
  (m : ManagedRouter ρ)

def addSecurityReason : ManagedRouter ρ :=
  { m with securityBlockReasons := m.securityBlockReasons ||| reason.bit }

def clearSecurityReason : ManagedRouter ρ :=
  { m with securityBlockReasons := m.securityBlockReasons &&& ~~~reason.bit }

def block (failed : ε → TsnetError ε) (m : ManagedRouter ρ) : Result ρ ε Unit :=
  match R.blockDirect m.router with
  | (some error, router) => (.error (failed error), { m with router }, [.block false])
  | (none, router) => (.ok (), { m with router, securityBlockVerified := true }, [.block true])

def ensureManagedSecurityBlock : Result ρ ε Unit :=
  let m := m.addSecurityReason reason
  if m.securityBlockVerified then (.ok (), m, [])
  else { m with securityBlockAttempted := true }.block R .install

/-- The unblock command, once the block is verified and no other reason is latched. -/
def removeSecurityBlock : Result ρ ε Bool :=
  let m := { m with securityBlockVerified := false }
  let event := Event.unblock reason m.securityBlockReasons
  match R.unblockDirect m.router with
  | (some unblockError, router) =>
    match { m with router }.block R (.fatal unblockError) with
    | (.ok (), m, log) => (.error (.restored unblockError), m, event false :: log)
    | (.error error, m, log) => (.error error, m, event false :: log)
  | (none, router) =>
    (.ok false, clearSecurityReason reason { m with router, securityBlockAttempted := false },
      [event true])

def clearManagedSecurityBlockReason : Result ρ ε Bool :=
  let remaining := m.securityBlockReasons &&& ~~~reason.bit
  if remaining ≠ 0 then (.ok true, { m with securityBlockReasons := remaining }, [])
  else if !m.securityBlockAttempted && !m.securityBlockVerified then
    (.ok false, m.clearSecurityReason reason, [])
  else
    let m := m.addSecurityReason reason
    if !m.securityBlockVerified then
      match m.block R .verify with
      | (.error error, m, log) => (.error error, m, log)
      | (.ok (), m, log) =>
        let (result, m, log') := m.removeSecurityBlock R reason
        (result, m, log ++ log')
    else m.removeSecurityBlock R reason

def setConfig : Result ρ ε Unit :=
  let event := Event.set config lanDenied m.exitNode m.securityBlockVerified
  match R.set config m.router with
  | (some error, router) =>
    let m := { m with router }
    (.error (.route error), if enteringExitNode then { m with exitNode := true } else m, [event false])
  | (none, router) =>
    let m := { m with router }
    let m := if config.exitNode then { m with exitNode := true } else m
    match m.clearManagedSecurityBlockReason R .transition with
    | (.error error, m, log) => (.error error, m, event true :: log)
    | (.ok _, m, log) => (.ok (), { m with exitNode := config.exitNode }, event true :: log)

/-- A route change that needs the block starts with a verified one. -/
def applyBlocked (leavingExitNode lanDenied : Bool) (m : ManagedRouter ρ) : Result ρ ε Unit :=
  if (config.exitNode && lanDenied) || leavingExitNode then
    match m.ensureManagedSecurityBlock R .transition with
    | (.error error, m, log) => (.error error, m, log)
    | (.ok (), m, log) =>
      let (result, m, log') := m.setConfig R config enteringExitNode lanDenied
      (result, m, log ++ log')
  else m.setConfig R config enteringExitNode lanDenied

def applyManagedRouterConfig (leavingExitNode lanDenied : Bool) (m : ManagedRouter ρ) :
    Result ρ ε Unit :=
  if m.securityBlockAttempted && !m.securityBlockVerified then
    match m.block R .verify with
    | (.error error, m, log) => (.error error, m, log)
    | (.ok (), m, log) =>
      let (result, m, log') := m.applyBlocked R config enteringExitNode leavingExitNode lanDenied
      (result, m, log ++ log')
  else m.applyBlocked R config enteringExitNode leavingExitNode lanDenied

/-- The end of `sync_router_inner`, for a configuration that was built. -/
def syncRouter (exitNodeAllowLanAccess : Bool) (m : ManagedRouter ρ) : Result ρ ε Unit :=
  m.applyManagedRouterConfig R config (config.exitNode && !m.exitNode)
    (!config.exitNode && m.exitNode) (!exitNodeAllowLanAccess)

end ManagedRouter

/-- What asks for a change of the block. -/
inductive Action where
  | engage (reason : SecurityBlockReason)
  | clear (reason : SecurityBlockReason)
  | apply (config : RouterConfig) (exitNodeAllowLanAccess : Bool)

section
variable {ρ ε : Type} (R : PlatformRouter ρ ε)

/-- Whether an action succeeded, the router after it and the commands that it issued. -/
def ManagedRouter.step (m : ManagedRouter ρ) : Action → Bool × ManagedRouter ρ × List Event
  | .engage reason =>
    let (result, m, log) := m.ensureManagedSecurityBlock R reason
    (result.isOk, m, log)
  | .clear reason =>
    let (result, m, log) := m.clearManagedSecurityBlockReason R reason
    (result.isOk, m, log)
  | .apply config allowLan =>
    let (result, m, log) := m.syncRouter R config allowLan
    (result.isOk, m, log)

def ManagedRouter.run (m : ManagedRouter ρ) (actions : List Action) : ManagedRouter ρ × List Event :=
  actions.foldl (fun (m, log) action => ((m.step R action).2.1, log ++ (m.step R action).2.2)) (m, [])

/-- A router after a successful startup. -/
def ManagedRouter.new (router : ρ) (exitNode : Bool) : ManagedRouter ρ :=
  ⟨router, exitNode, false, false, 0⟩

end

/-- The last of the block and unblock commands was a block that succeeded. -/
def lastIsBlock : List Event → Bool :=
  foldl (fun last event => match event with
    | .block ok => ok
    | .unblock .. => false
    | .set .. => last) false

/-- Whether the last configuration that was applied names an exit node. -/
def installed (exitNode : Bool) : List Event → Bool :=
  foldl (fun exit event => match event with
    | .set config _ _ _ true => config.exitNode
    | _ => exit) exitNode

def ManagedRouter.Latched {ρ : Type} (m : ManagedRouter ρ) (reason : SecurityBlockReason) : Prop :=
  m.securityBlockReasons &&& reason.bit ≠ 0

/-- No other reason is latched when the block is removed, and the block was verified. -/
def UnblockOk (before : List Event) : Event → Prop
  | .unblock reason reasons _ => reasons = reason.bit ∧ lastIsBlock before = true
  | _ => True

/-- The block is verified when an exit node without LAN access is set, or an exit node is left. -/
def SetOk (exitNode : Bool) (before : List Event) : Event → Prop
  | .set config lanDenied exit verified _ =>
    config.exitNode = true ∧ lanDenied = true ∨
        config.exitNode = false ∧ (exit = true ∨ installed exitNode before = true) →
      verified = true ∧ lastIsBlock before = true
  | _ => True

section
variable {ρ ε : Type} {R : PlatformRouter ρ ε} {e ok : Bool} {log new : List Event}
  {m m' : ManagedRouter ρ} {router : ρ} {reason reason' : SecurityBlockReason}

/-- What the record says of the block is so in the log. -/
structure Inv (e : Bool) (log : List Event) (m : ManagedRouter ρ) : Prop where
  attempted : m.securityBlockVerified = true → m.securityBlockAttempted = true
  block : m.securityBlockVerified = true → lastIsBlock log = true
  exit : installed e log = true → m.exitNode = true
  unblocks : Machine.Every UnblockOk log
  sets : Machine.Every (SetOk e) log

@[simp] theorem lastIsBlock_block : lastIsBlock (log ++ [.block ok]) = ok := by simp [lastIsBlock]

@[simp] theorem installed_block : installed e (log ++ [.block ok]) = installed e log := by
  simp [installed]

@[simp] theorem installed_unblock {reasons : BitVec 8} :
    installed e (log ++ [.unblock reason reasons ok]) = installed e log := by simp [installed]

theorem latched_add (h : m.Latched reason') : (m.addSecurityReason reason).Latched reason' := by
  have hbits : ∀ reasons : BitVec 8, reasons &&& reason'.bit ≠ 0 →
      (reasons ||| reason.bit) &&& reason'.bit ≠ 0 := by
    cases reason <;> cases reason' <;> decide +kernel
  exact hbits _ h

theorem latched_clear (h : m.Latched reason') :
    (m.clearSecurityReason reason).Latched reason' ∨ reason' = reason ∧ true = true := by
  have hbits : ∀ reasons : BitVec 8, reasons &&& reason'.bit ≠ 0 →
      (reasons &&& ~~~reason.bit) &&& reason'.bit ≠ 0 ∨ reason' = reason ∧ true = true := by
    cases reason <;> cases reason' <;> decide +kernel
  exact hbits _ h

theorem or_bit_of_remaining {reasons : BitVec 8} (h : reasons &&& ~~~reason.bit = 0) :
    reasons ||| reason.bit = reason.bit := by
  have hbits : ∀ reasons : BitVec 8, reasons &&& ~~~reason.bit = 0 →
      reasons ||| reason.bit = reason.bit := by
    cases reason <;> decide +kernel
  exact hbits _ h

/-- What block commands leave behind. -/
structure Secured (e : Bool) (log : List Event) (m m' : ManagedRouter ρ) (new : List Event) :
    Prop where
  inv : Inv e (log ++ new) m'
  installed : installed e (log ++ new) = installed e log
  attempted : m'.securityBlockAttempted = true
  exitNode : m'.exitNode = m.exitNode
  reasons : m'.securityBlockReasons = m.securityBlockReasons
  commands : ∀ event ∈ new, ∃ ok, event = .block ok

theorem Secured.latched (h : Secured e log m m' new) (hr : m.Latched reason) : m'.Latched reason := by
  rwa [ManagedRouter.Latched, h.reasons]

section
variable (h : Inv e log m)
include h

open Machine

theorem Inv.unblocked (hv : m.securityBlockVerified = true)
    (hm : m.securityBlockReasons = reason.bit) {attempted : Bool} :
    Inv e (log ++ [.unblock reason m.securityBlockReasons ok])
      { m with router, securityBlockVerified := false, securityBlockAttempted := attempted } where
  attempted hv := absurd hv (by simp)
  block hv := absurd hv (by simp)
  exit hi := h.exit (by simpa using hi)
  unblocks := every_concat.mpr ⟨h.unblocks, hm, h.block hv⟩
  sets := every_concat.mpr ⟨h.sets, trivial⟩

theorem Inv.reasons (reasons : BitVec 8) : Inv e log { m with securityBlockReasons := reasons } :=
  ⟨h.attempted, h.block, h.exit, h.unblocks, h.sets⟩

section
variable (ha : m.securityBlockAttempted = true)
include ha

theorem Inv.blocked :
    Secured e log m { m with router, securityBlockVerified := ok } [.block ok] where
  inv := ⟨fun _ => ha, fun hok => by simpa using hok, fun hi => h.exit (by simpa using hi),
    every_concat.mpr ⟨h.unblocks, trivial⟩, every_concat.mpr ⟨h.sets, trivial⟩⟩
  installed := installed_block
  attempted := ha
  exitNode := rfl
  reasons := rfl
  commands := by simp

theorem Inv.secure (hv : m.securityBlockVerified = false) (failed : ε → TsnetError ε) :
    let r := m.block R failed
    Secured e log m r.2.1 r.2.2 ∧ (r.1.isOk = true → r.2.1.securityBlockVerified = true) := by
  intro r
  simp only [r, ManagedRouter.block]
  split
  · next error router _ =>
    have hm : { m with router } = { m with router, securityBlockVerified := false } := by rw [← hv]
    exact ⟨hm ▸ h.blocked ha, nofun⟩
  · exact ⟨h.blocked ha, fun _ => rfl⟩

end

theorem Inv.ensure (reason : SecurityBlockReason) :
    let r := m.ensureManagedSecurityBlock R reason
    Secured e log (m.addSecurityReason reason) r.2.1 r.2.2 ∧
      (r.1.isOk = true → r.2.1.securityBlockVerified = true) := by
  have hadd : Inv e log (m.addSecurityReason reason) := h.reasons _
  intro r
  simp only [r, ManagedRouter.ensureManagedSecurityBlock]
  split
  · next hv =>
    exact ⟨⟨by simpa using hadd, by simp, hadd.attempted hv, rfl, rfl, by simp⟩, fun _ => hv⟩
  · next hv =>
    have hinv : Inv e log { m.addSecurityReason reason with securityBlockAttempted := true } :=
      ⟨fun _ => rfl, hadd.block, hadd.exit, hadd.unblocks, hadd.sets⟩
    obtain ⟨hsecured, hok⟩ := hinv.secure rfl (by simpa using hv) .install
    exact ⟨{ hsecured with }, hok⟩

end

/-- What giving up a reason leads to. -/
structure Cleared (e : Bool) (log : List Event) (m : ManagedRouter ρ) (reason : SecurityBlockReason)
    (ok : Bool) (m' : ManagedRouter ρ) (new : List Event) : Prop where
  inv : Inv e (log ++ new) m'
  installed : installed e (log ++ new) = installed e log
  latched : ∀ reason', m.Latched reason' → m'.Latched reason' ∨ reason' = reason ∧ ok = true
  failed : ok = false → m'.securityBlockAttempted = true

theorem Inv.remove (h : Inv e log m) (hv : m.securityBlockVerified = true)
    (hm : m.securityBlockReasons = reason.bit) :
    let r := m.removeSecurityBlock R reason
    Cleared e log m reason r.1.isOk r.2.1 r.2.2 := by
  intro r
  simp only [r, ManagedRouter.removeSecurityBlock]
  split
  · next error router _ =>
    have hinv : Inv e (log ++ [.unblock reason m.securityBlockReasons false])
        { m with router, securityBlockVerified := false } := h.unblocked hv hm
    obtain ⟨hsecured, -⟩ := hinv.secure (h.attempted hv) rfl (.fatal error)
    generalize ManagedRouter.block R (.fatal error) _ = result at hsecured ⊢
    obtain ⟨_ | _, m', new⟩ := result <;>
      exact ⟨by simpa using hsecured.inv, by simpa using hsecured.installed,
        fun _ hr => .inl (hsecured.latched hr), fun _ => hsecured.attempted⟩
  · exact ⟨(h.unblocked hv hm).reasons _, installed_unblock, fun _ => latched_clear, nofun⟩

/-- Clearing a reason, with the unblock it may lead to. -/
theorem Inv.clear (h : Inv e log m) (reason : SecurityBlockReason) :
    let r := m.clearManagedSecurityBlockReason R reason
    Cleared e log m reason r.1.isOk r.2.1 r.2.2 := by
  intro r
  simp only [r, ManagedRouter.clearManagedSecurityBlockReason]
  split
  · exact ⟨by simpa using h.reasons _, by simp, fun _ => latched_clear, nofun⟩
  next hremaining =>
  have hbit := or_bit_of_remaining (not_not.mp hremaining)
  split
  · exact ⟨by rw [append_nil]; exact h.reasons _, by simp, fun _ => latched_clear, nofun⟩
  next huncertain =>
  have hadd : Inv e log (m.addSecurityReason reason) := h.reasons _
  split
  · next hv =>
    have hv : m.securityBlockVerified = false := by simpa [ManagedRouter.addSecurityReason] using hv
    have ha : m.securityBlockAttempted = true := by simpa [hv] using huncertain
    obtain ⟨hsecured, hverified⟩ := hadd.secure ha hv .verify
    generalize ManagedRouter.block R .verify _ = result at hsecured hverified ⊢
    obtain ⟨error | _, m', new⟩ := result
    · exact ⟨hsecured.inv, hsecured.installed, fun _ hr => .inl (hsecured.latched (latched_add hr)),
        fun _ => hsecured.attempted⟩
    · obtain ⟨hinv, hinst, hlatched, hfailed⟩ := hsecured.inv.remove (hverified rfl)
        (hsecured.reasons.trans hbit)
      refine ⟨by simpa using hinv, ?_, fun _ hr => hlatched _ (hsecured.latched (latched_add hr)), hfailed⟩
      rw [← append_assoc, hinst, hsecured.installed]
  · next hv =>
    have hv : (m.addSecurityReason reason).securityBlockVerified = true := by simpa using hv
    have hcleared := hadd.remove (R := R) hv hbit
    exact { hcleared with latched := fun _ hr => hcleared.latched _ (latched_add hr) }

/-- What an application of a configuration leads to. -/
structure Applied (e : Bool) (log : List Event) (m : ManagedRouter ρ) (ok : Bool)
    (m' : ManagedRouter ρ) (new : List Event) : Prop where
  inv : Inv e (log ++ new) m'
  latched : ∀ reason, m.Latched reason → m'.Latched reason ∨ reason = .transition ∧ ok = true
  failed : ok = false → ∀ reason reasons done, Event.unblock reason reasons done ∈ new →
    m'.securityBlockAttempted = true

def Needs (config : RouterConfig) (lanDenied : Bool) (m : ManagedRouter ρ) : Prop :=
  config.exitNode = true ∧ lanDenied = true ∨ config.exitNode = false ∧ m.exitNode = true

theorem Inv.set (h : Inv e log m) {config : RouterConfig} {lanDenied : Bool}
    (hneeds : Needs config lanDenied m → m.securityBlockVerified = true) {exitNode : Bool}
    (hexit : installed e (log ++ [.set config lanDenied m.exitNode m.securityBlockVerified ok]) = true →
      exitNode = true) :
    Inv e (log ++ [.set config lanDenied m.exitNode m.securityBlockVerified ok])
      { m with router, exitNode } where
  attempted := h.attempted
  block hv := by simpa [lastIsBlock] using h.block hv
  exit := hexit
  unblocks := Machine.every_concat.mpr ⟨h.unblocks, trivial⟩
  sets := by
    refine Machine.every_concat.mpr ⟨h.sets, fun hcond => ?_⟩
    have hv := hneeds (hcond.imp id fun hleave => ⟨hleave.1, hleave.2.elim id h.exit⟩)
    exact ⟨hv, h.block hv⟩

/-- A configuration that needs the block is applied only behind a verified one. -/
theorem Inv.setConfig (h : Inv e log m) {config : RouterConfig} {entering lanDenied : Bool}
    (hneeds : Needs config lanDenied m → m.securityBlockVerified = true) :
    let r := m.setConfig R config entering lanDenied
    Applied e log m r.1.isOk r.2.1 r.2.2 := by
  intro r
  simp only [r, ManagedRouter.setConfig]
  split
  · next error router hs =>
    have hfailed : ∀ exitNode, (m.exitNode = true → exitNode = true) →
        Inv e (log ++ [.set config lanDenied m.exitNode m.securityBlockVerified false])
          { m with router, exitNode } := fun exitNode hexit =>
      h.set hneeds fun hi => hexit (h.exit (by simpa [installed] using hi))
    refine ⟨?_, fun _ hr => .inl (by split <;> exact hr), fun _ _ _ _ hmem => by simp at hmem⟩
    split
    · exact hfailed true fun _ => rfl
    · exact hfailed m.exitNode id
  · next router hs =>
    have hset : Inv e (log ++ [.set config lanDenied m.exitNode m.securityBlockVerified true])
        { m with router, exitNode := config.exitNode || m.exitNode } :=
      h.set hneeds fun hi => by simp_all [installed]
    have hm : (if config.exitNode = true then { m with router, exitNode := true }
        else { m with router }) = { m with router, exitNode := config.exitNode || m.exitNode } := by
      cases config.exitNode <;> rfl
    have hcleared := hset.clear (R := R) .transition
    rw [hm]
    generalize ManagedRouter.clearManagedSecurityBlockReason R .transition _ = result at hcleared ⊢
    obtain ⟨hinv, hinst, hlatched, hfailed⟩ := hcleared
    obtain ⟨result | result, m', new⟩ := result
    · exact ⟨by simpa using hinv, hlatched, fun _ _ _ _ _ => hfailed rfl⟩
    · refine ⟨⟨hinv.attempted, ?_, ?_, ?_, ?_⟩, hlatched, nofun⟩
      · simpa using hinv.block
      · intro hi
        rw [append_assoc] at hinst
        simpa [installed] using hinst.symm.trans hi
      · simpa using hinv.unblocks
      · simpa using hinv.sets

theorem Applied.of_add (h : Applied e log (m.addSecurityReason reason) ok m' new) :
    Applied e log m ok m' new :=
  { h with latched := fun _ hr => h.latched _ (latched_add hr) }

theorem Secured.unblock_notMem (h : Secured e log m m' new) (reasons : BitVec 8) :
    Event.unblock reason reasons ok ∉ new := fun hmem => nomatch (h.commands _ hmem).choose_spec

theorem Secured.applied (h : Secured e log m m' new) {m'' : ManagedRouter ρ} {new' : List Event}
    (h' : Applied e (log ++ new) m' ok m'' new') : Applied e log m ok m'' (new ++ new') := by
  refine ⟨by simpa using h'.inv, fun _ hr => h'.latched _ (h.latched hr), ?_⟩
  intro hok reason reasons done hmem
  exact h'.failed hok reason reasons done ((mem_append.mp hmem).resolve_left (h.unblock_notMem _))

theorem Secured.failed (h : Secured e log m m' new) : Applied e log m false m' new :=
  ⟨h.inv, fun _ hr => .inl (h.latched hr), fun _ _ _ _ hmem => absurd hmem (h.unblock_notMem _)⟩

theorem Inv.applyBlocked (h : Inv e log m) (config : RouterConfig) (entering lanDenied : Bool) :
    let r := m.applyBlocked R config entering (!config.exitNode && m.exitNode) lanDenied
    Applied e log m r.1.isOk r.2.1 r.2.2 := by
  intro r
  simp only [r, ManagedRouter.applyBlocked]
  split
  · obtain ⟨hsecured, hverified⟩ := h.ensure .transition
    generalize ManagedRouter.ensureManagedSecurityBlock R .transition m = result at hsecured hverified ⊢
    obtain ⟨error | _, m', new⟩ := result
    · exact hsecured.failed.of_add
    · exact (hsecured.applied (hsecured.inv.setConfig fun _ => hverified rfl)).of_add
  · next hneeds =>
    refine h.setConfig fun hn => absurd hn ?_
    rw [Needs]
    cases hc : config.exitNode <;> simp_all

theorem Inv.apply (h : Inv e log m) (config : RouterConfig) (allowLan : Bool) :
    let r := m.syncRouter R config allowLan
    Applied e log m r.1.isOk r.2.1 r.2.2 := by
  intro r
  simp only [r, ManagedRouter.syncRouter, ManagedRouter.applyManagedRouterConfig]
  split
  · next hretry =>
    obtain ⟨ha, hv⟩ : m.securityBlockAttempted = true ∧ m.securityBlockVerified = false := by
      simpa using hretry
    obtain ⟨hsecured, -⟩ := h.secure ha hv .verify
    generalize ManagedRouter.block R .verify m = result at hsecured ⊢
    obtain ⟨error | _, m', new⟩ := result
    · exact hsecured.failed
    · rw [← hsecured.exitNode]
      exact hsecured.applied (hsecured.inv.applyBlocked config _ _)
  · exact h.applyBlocked config _ _

def Action.clears : Action → Option SecurityBlockReason
  | .engage _ => none
  | .clear reason => some reason
  | .apply .. => some .transition

/-- Step: every action keeps the invariant, and a reason is unlatched by its own clear only. -/
theorem Inv.step (h : Inv e log m) (action : Action) :
    let r := m.step R action
    Inv e (log ++ r.2.2) r.2.1 ∧
      (∀ reason, m.Latched reason → ¬r.2.1.Latched reason →
        action.clears = some reason ∧ r.1 = true) ∧
      (r.1 = false → ∀ reason reasons done, Event.unblock reason reasons done ∈ r.2.2 →
        r.2.1.securityBlockAttempted = true) := by
  cases action with
  | engage reason =>
    obtain ⟨hsecured, -⟩ := h.ensure reason
    exact ⟨hsecured.inv, fun reason' hr hn => absurd (hsecured.latched (latched_add hr)) hn,
      fun _ _ _ _ hmem => absurd hmem (hsecured.unblock_notMem _)⟩
  | clear reason =>
    have hcleared := h.clear (R := R) reason
    refine ⟨hcleared.inv, fun reason' hr hn => ?_, fun hok _ _ _ _ => hcleared.failed hok⟩
    obtain ⟨rfl, hok⟩ := (hcleared.latched reason' hr).resolve_left hn
    exact ⟨rfl, hok⟩
  | apply config allowLan =>
    have happlied := h.apply (R := R) config allowLan
    refine ⟨happlied.inv, fun reason' hr hn => ?_, happlied.failed⟩
    obtain ⟨rfl, hok⟩ := (happlied.latched reason' hr).resolve_left hn
    exact ⟨rfl, hok⟩

theorem new_inv (router : ρ) (exitNode : Bool) : Inv exitNode [] (ManagedRouter.new router exitNode) :=
  ⟨by simp [ManagedRouter.new], by simp [ManagedRouter.new], id, Machine.every_nil, Machine.every_nil⟩

theorem run_inv (R : PlatformRouter ρ ε) (router : ρ) (exitNode : Bool) (actions : List Action) :
    Inv exitNode ((ManagedRouter.new router exitNode).run R actions).2
      ((ManagedRouter.new router exitNode).run R actions).1 := by
  induction actions using reverseRecOn with
  | nil => exact new_inv router exitNode
  | append_singleton actions action ih =>
    rw [ManagedRouter.run, foldl_concat]
    exact (ih.step action).1

end

/-- After any actions, with commands that succeed or fail in any way: the block is verified only if
it was the last command, and succeeded; it is removed with no other reason latched, from a verified
block; exit routes change only with the block verified; a reason is lost only when it is cleared
successfully; and a failed action that commanded a removal leaves the block verified or attempted.
-/
theorem run_latched {ρ ε : Type} (R : PlatformRouter ρ ε) (router : ρ) (exitNode : Bool)
    (actions : List Action) :
    let s := (ManagedRouter.new router exitNode).run R actions
    (s.1.securityBlockVerified = true → lastIsBlock s.2 = true) ∧
      Machine.Every UnblockOk s.2 ∧
      Machine.Every (SetOk exitNode) s.2 ∧
      ∀ action, let r := s.1.step R action
        (∀ reason, s.1.Latched reason → ¬r.2.1.Latched reason →
          action.clears = some reason ∧ r.1 = true) ∧
        (r.1 = false → (∃ reason reasons done, Event.unblock reason reasons done ∈ r.2.2) →
          r.2.1.securityBlockVerified = true ∨ r.2.1.securityBlockAttempted = true) := by
  have hinv := run_inv R router exitNode actions
  refine ⟨hinv.block, hinv.unblocks, hinv.sets, fun action => ⟨(hinv.step action).2.1, ?_⟩⟩
  rintro hok ⟨reason, reasons, done, hmem⟩
  exact .inr ((hinv.step action).2.2 hok reason reasons done hmem)

end Rustscale.SecurityBlock
