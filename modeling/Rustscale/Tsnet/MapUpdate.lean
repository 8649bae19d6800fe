import Rustscale.Filter.Filter
import Rustscale.Tsnet.PeerMap

/-! Map responses applied to a running node: its peers and its packet filter. -/
namespace Rustscale.MapUpdate
open IpAddr Checks Tailcfg PacketFilter PeerMap Ipset PacketFilter.Filter List

abbrev NamedFilters := List (String × List FilterRule)

namespace NamedFilters

def insert (key : String) (rules : List FilterRule) : NamedFilters → NamedFilters
  | [] => [(key, rules)]
  | (k, r) :: named =>
    if key = k then (key, rules) :: named
    else if key < k then (key, rules) :: (k, r) :: named
    else (k, r) :: insert key rules named

/-- Whether the name was there, and the lists without it. -/
def remove (named : NamedFilters) (key : String) : Bool × NamedFilters :=
  (named.any fun p => p.1 = key, named.filter fun p => p.1 ≠ key)

def rules (named : NamedFilters) : List FilterRule := named.flatMap Prod.snd

end NamedFilters

/-- An absent or empty list removes the name, and `*` is not a name. -/
def processFilterDelta (s : Bool × NamedFilters) (delta : String × Option (List FilterRule)) :
    Bool × NamedFilters :=
  if delta.1 = "*" then s
  else
    match delta.2 with
    | none | some [] =>
      let (removed, named) := s.2.remove delta.1
      (s.1 || removed, named)
    | some rules => (true, s.2.insert delta.1 rules)

def processFilterDeltas (resp : MapResponse) (named : NamedFilters) : Bool × NamedFilters :=
  let s := match resp.packetFilter with
    | some rules => (true, named.insert "base" rules)
    | none => (false, named)
  match resp.packetFilters with
  | none => s
  | some deltas =>
    let s := match deltas.lookup "*" with
      | some none => (true, [])
      | _ => s
    deltas.foldl processFilterDelta s

def extractNodeIps (node : Node) : List IpAddr :=
  node.addresses.filterMap fun text => IpText.parseIpAddr (text.toList.takeWhile (· ≠ '/'))

def addCapHolder (caps : List String) (holders : CapHolders) (ip : IpAddr) : CapHolders :=
  Function.update holders ip (some (((holders ip).getD []) ++ caps))

def buildCapHolders (peers : List Node) : CapHolders :=
  peers.foldl (fun holders peer =>
    if peer.capMap = [] then holders
    else (extractNodeIps peer).foldl (addCapHolder (peer.capMap.map Prod.fst)) holders)
    fun _ => none

/-- The first filter of a node; rules that do not parse deny everything. -/
def buildFilterFromMapResponse (resp : MapResponse) (localIps : List IpAddr) (peers : List Node)
    (shieldsUp : Bool) : Filter × NamedFilters :=
  let named := (processFilterDeltas resp []).2
  let filter := match new named.rules localIps (buildCapHolders peers) with
    | .ok filter => filter
    | .error _ => .allowNone
  (filter.setShieldsUp shieldsUp, named)

/-- Rules that do not parse deny everything, and drop the flows. -/
def rebuildFilter (old : Filter) (named : NamedFilters) (localIps : List IpAddr)
    (advertiseRoutes : List String) (peers : List Node) (shieldsUp : Bool) : Filter :=
  match new named.rules localIps (buildCapHolders peers) with
  | .ok newFilter =>
    let newFilter := if advertiseRoutes ≠ [] then newFilter.addLocalCidrs advertiseRoutes
      else newFilter
    ((newFilter.setShieldsUp shieldsUp).shareStateWith old).1
  | .error _ => allowNone.setShieldsUp shieldsUp

/-- What a session knows of its own node. -/
structure Profile where
  tailnetIdentity : String
  tailscaleIps : List IpAddr
  advertiseRoutes : List String

/-- What map responses and preference edits change. `shieldsUp` is the preference. -/
structure Session where
  filter : Filter
  namedFilters : NamedFilters
  rawPeers : List Node
  peers : List Node
  runtime : Runtime
  shieldsUp : Bool
  peerSnapshotFresh : Bool
  firstNonKeepalive : Bool
  stopped : Bool

/-- Whether a response carries lock state, whether the authority is ready afterwards, and which
peers it retains. -/
structure Lock where
  info : Bool
  ready : Bool
  retain : List Node → List Node
  retain_sublist : ∀ peers, (retain peers).Sublist peers

/-- What may happen to a session. -/
inductive Event where
  | mapResponse (resp : MapResponse) (lock : Lock)
  | withdraw
  | editPrefs (shieldsUp : Option Bool)
  | close

namespace Session

variable (profile : Profile) (s : Session) (resp : MapResponse)

/-- The peers after a response, and whether the response was rejected. -/
def reconciled : List Node × Bool :=
  match reconcile s.rawPeers resp with
  | .ok peers => (peers, false)
  | .error _ => ([], true)

/-- A rejected peer map or an authority that is not ready denies everything. -/
def commit (lock : Lock) : Session :=
  let (rawPeers, invalidPeerMap) := s.reconciled resp
  let fresh := s.peerSnapshotFresh || resp.peers.isSome
  let nextPeers := lock.retain (if fresh then rawPeers else [])
  let peersChanged := s.firstNonKeepalive || lock.info || resp.peers.isSome || invalidPeerMap ||
    decide (nextPeers ≠ s.peers)
  let (filterChanged, named) := processFilterDeltas resp s.namedFilters
  { s with
    rawPeers
    peerSnapshotFresh := fresh
    firstNonKeepalive := false
    namedFilters := if invalidPeerMap then [] else named
    filter :=
      if invalidPeerMap || !lock.ready then .allowNone
      else if filterChanged || peersChanged then
        rebuildFilter s.filter named profile.tailscaleIps profile.advertiseRoutes nextPeers
          s.filter.shieldsUp
      else s.filter
    peers := nextPeers
    runtime := (s.runtime.install nextPeers).2 }

/-- Everything derived from the peers goes before the lock is synchronized. -/
def withdraw : Session :=
  { s with filter := .allowNone, peers := [], runtime := (s.runtime.install []).2 }

/-- Control changed the tailnet of the profile: the session ends without peers. -/
def revoke : Session :=
  { s with
    filter := .allowNone, rawPeers := [], peers := [], runtime := (s.runtime.install []).2
    stopped := true }

/-- An edit that sets the preference also sets the flag of the filter. -/
def editPrefs : Option Bool → Session
  | some on =>
    { s with
      shieldsUp := on, filter := s.filter.setShieldsUp on
      runtime := s.runtime.advanceAuthorizationEpoch }
  | none => s

def Mismatch : Prop :=
  resp.domain ≠ "" ∧ resp.domain ≠ profile.tailnetIdentity

instance (profile : Profile) (resp : MapResponse) : Decidable (Mismatch profile resp) :=
  inferInstanceAs (Decidable (_ ∧ _))

def step : Event → Session
  | .mapResponse resp lock =>
    if s.stopped || resp.keepAlive then s
    else if Mismatch profile resp then s.revoke
    else s.commit profile resp lock
  | .withdraw => s.withdraw
  | .editPrefs shieldsUp => s.editPrefs shieldsUp
  | .close => { s with stopped := true }

def run (es : List Event) : Session := es.foldl (step profile) s

/-- A node with the first map response; the response may come from the cache. -/
def start (peers : List Node) (runtime : Runtime) (shieldsUp fresh : Bool) : Session :=
  let (filter, named) := buildFilterFromMapResponse resp profile.tailscaleIps peers shieldsUp
  { filter := if profile.advertiseRoutes ≠ [] then filter.addLocalCidrs profile.advertiseRoutes
      else filter
    namedFilters := named
    rawPeers := peers
    peers
    runtime
    shieldsUp
    peerSnapshotFresh := fresh
    firstNonKeepalive := true
    stopped := false }

def InSync : Prop := s.filter.shieldsUp = s.shieldsUp

/-- A fresh filter denies everything: a withdrawal, another tailnet, a rejected peer map, or an
authority that is not ready. -/
def Denies : Event → Prop
  | .mapResponse resp lock =>
    s.stopped = false ∧ resp.keepAlive = false ∧
      (Mismatch profile resp ∨ (∃ e, reconcile s.rawPeers resp = .error e) ∨ lock.ready = false)
  | .withdraw => True
  | _ => False

section
variable {profile : Profile} {s : Session} {e : Event}

theorem reconciled_snd (s : Session) (resp : MapResponse) :
    (s.reconciled resp).2 = true ↔ ∃ e, reconcile s.rawPeers resp = .error e := by
  unfold reconciled
  cases reconcile s.rawPeers resp <;> simp

theorem start_inSync (profile : Profile) (resp : MapResponse) (peers : List Node)
    (runtime : Runtime) (on fresh : Bool) :
    (start profile resp peers runtime on fresh).InSync := by
  unfold InSync start
  dsimp only
  split <;> rfl

theorem commit_filter (s : Session) (resp : MapResponse) (lock : Lock) :
    (s.commit profile resp lock).filter.shieldsUp =
      if (s.reconciled resp).2 || !lock.ready then false else s.filter.shieldsUp := by
  unfold commit
  dsimp only
  generalize lock.retain _ = nextPeers
  split_ifs with hdeny hchanged
  · rfl
  · unfold rebuildFilter
    split <;> rfl
  · rfl

/-- Step: the filter keeps the shields of the preferences unless access is denied while they are up.
-/
theorem step_inSync_iff (h : s.InSync) :
    (s.step profile e).InSync ↔ ¬ (s.Denies profile e ∧ s.shieldsUp = true) := by
  have hfresh : (false = s.shieldsUp) ↔ ¬ s.shieldsUp = true := by
    cases s.shieldsUp <;> simp
  cases e with
  | withdraw => simp [step, InSync, withdraw, Denies, allowNone]
  | editPrefs on =>
    cases on with
    | none => simpa [step, editPrefs, Denies] using h
    | some on => simp [step, editPrefs, InSync, setShieldsUp, Denies]
  | close => simpa [step, InSync, Denies] using h
  | mapResponse resp lock =>
    dsimp only [step, Denies]
    by_cases hskip : (s.stopped || resp.keepAlive) = true
    · rw [if_pos hskip]
      refine iff_of_true h fun hd => ?_
      rw [hd.1.1, hd.1.2.1] at hskip
      cases hskip
    · rw [if_neg hskip]
      have hgo : s.stopped = false ∧ resp.keepAlive = false := by simpa using hskip
      by_cases hm : Mismatch profile resp
      · simp [hm, hgo, InSync, revoke, allowNone]
      · have hsame : (s.commit profile resp lock).shieldsUp = s.shieldsUp := rfl
        rw [if_neg hm, InSync, commit_filter, hsame, ← reconciled_snd]
        by_cases hd : ((s.reconciled resp).2 || !lock.ready) = true
        · rw [if_pos hd, hfresh]
          simp_all
        · rw [if_neg hd]
          have hd' : (s.reconciled resp).2 = false ∧ lock.ready = true := by simpa using hd
          exact iff_of_true h (by simp [hm, hd'])

end

/-- A filter with the flag of the preference keeps it after every step iff no step denies everything
while the preference is set. -/
theorem run_inSync_iff (h : s.InSync) (es : List Event) :
    (∀ done, done <+: es → (s.run profile done).InSync) ↔
      ∀ done e, done ++ [e] <+: es →
        ¬ ((s.run profile done).Denies profile e ∧ (s.run profile done).shieldsUp = true) := by
  constructor
  · intro hall done e hpre
    rw [← step_inSync_iff (hall done ((prefix_append _ _).trans hpre))]
    have hs := hall _ hpre
    rwa [run, foldl_append] at hs
  · intro hall done
    -- induction on the steps done, from the first to the last
    induction done using reverseRecOn with
    | nil => exact fun _ => h
    | append_singleton done e ih =>
      intro hpre
      have hs := (step_inSync_iff (ih ((prefix_append _ _).trans hpre))).mpr (hall done e hpre)
      rwa [run, foldl_append]

/-- A node whose rule lets a peer connect to its SSH port. -/
def sshProfile : Profile where
  tailnetIdentity := "example.com"
  tailscaleIps := [.v4 0x64400001#32]
  advertiseRoutes := []

def sshResponse : MapResponse where
  peers := some [{ id := 2, key := 2, addresses := ["100.64.0.2/32"] }]
  packetFilter := some
    [{ srcIPs := ["100.64.0.2"], dstPorts := [{ ip := "100.64.0.1", ports := ⟨22, 22⟩ }] }]

def sshNode : Session :=
  start sshProfile sshResponse [] ⟨fun _ => none, 1, 1, []⟩ false true

def openLock : Lock where
  info := true
  ready := true
  retain := id
  retain_sublist _ := List.Sublist.refl _

/-- Shields are raised, and then the netmap is withdrawn. -/
theorem run_inSync_iff_withdraw : sshNode.InSync ∧
    ((∀ done, done <+: [.editPrefs (some true), .withdraw] →
        (sshNode.run sshProfile done).InSync) ↔
      ∀ done e, done ++ [e] <+: [.editPrefs (some true), .withdraw] →
        ¬ ((sshNode.run sshProfile done).Denies sshProfile e ∧
          (sshNode.run sshProfile done).shieldsUp = true)) :=
  have h : sshNode.InSync := start_inSync ..
  ⟨h, run_inSync_iff sshProfile sshNode h _⟩

/-- Shields go up, the peers are withdrawn and restored: the shields of the filter are down, and it
admits a new connection. -/
theorem withdraw_lowers_shields :
    let s := sshNode.run sshProfile
      [.editPrefs (some true), .withdraw, .mapResponse sshResponse openLock]
    s.shieldsUp = true ∧ s.filter.shieldsUp = false ∧
      (s.filter.check (.v4 0x64400002#32) (.v4 0x64400001#32) 6 22).1 = .accept := by
  decide

end Session

/-- An installed filter with its connection counter and the local addresses it was built for. -/
structure Installed (κ : Type) where
  filter : Filter
  connectionCounter : Option κ
  localIps : List IpAddr

/-- The ways in which a filter is rebuilt. -/
inductive Rebuild where
  | filter (named : NamedFilters) (localIps : List IpAddr) (advertiseRoutes : List String)
      (peers : List Node) (shieldsUp : Bool)
  | ifChanged (unchanged : Bool) (rules : List FilterRule) (localIps : List IpAddr)
      (capHolders : CapHolders)

/-- Prefixes that are local beside the addresses, by family. -/
abbrev Extra := List SetPrefix × List SetPrefix

/-- The prefixes that advertised routes add. -/
def extraCidrs (routes : List String) : Extra :=
  let prefixes := routes.filterMap localPrefix
  (prefixes.filter fun p => p.val.addr.isIpv4, prefixes.filter fun p => !p.val.addr.isIpv4)

namespace Installed
variable {κ : Type} {s s' : Installed κ} {extra e : Extra}

/-- `rebuild_filter` makes a filter without a counter; `rebuild_if_changed` moves the counter. -/
def rebuild (s : Installed κ) : Rebuild → Installed κ
  | .filter named localIps advertiseRoutes peers shieldsUp =>
    ⟨rebuildFilter s.filter named localIps advertiseRoutes peers shieldsUp, none,
      match new named.rules localIps (buildCapHolders peers) with
      | .ok _ => localIps
      | .error _ => []⟩
  | .ifChanged unchanged rules localIps capHolders =>
    match s.filter.rebuildIfChanged unchanged rules localIps capHolders with
    | .ok (true, filter) => { s with filter, localIps }
    | .ok (false, filter) => { s with filter }
    | .error _ => s

/-- What is local to the filter beside its addresses. -/
def HasExtra (s : Installed κ) (extra : Extra) : Prop :=
  s.filter.local4.prefixes = (partitionLocalIps s.localIps).1.prefixes ++ extra.1 ∧
    s.filter.local6.prefixes = (partitionLocalIps s.localIps).2.prefixes ++ extra.2

/-- What a rebuild is to keep. -/
structure Preserved (extra : Extra) (s s' : Installed κ) : Prop where
  state : s'.filter.state = s.filter.state
  shieldsUp : s'.filter.shieldsUp = s.filter.shieldsUp
  connectionCounter : s'.connectionCounter = s.connectionCounter
  extra : s'.HasExtra extra

/-- There is no counter and no extra prefix to be lost, and the flag and the routes are passed on. -/
def Harmless (extra : Extra) (s : Installed κ) : Rebuild → Prop
  | .filter named localIps advertiseRoutes peers shieldsUp =>
    s.connectionCounter = none ∧ shieldsUp = s.filter.shieldsUp ∧
      match new named.rules localIps (buildCapHolders peers) with
      | .ok _ => extraCidrs advertiseRoutes = extra
      | .error _ => s.filter.state = .empty ∧ extra = ([], [])
  | .ifChanged unchanged rules localIps capHolders =>
    unchanged = true ∨ extra = ([], []) ∨ ∃ e, new rules localIps capHolders = .error e

theorem local_of_new {rules : List FilterRule} {localIps : List IpAddr} {capHolders : CapHolders}
    {f : Filter} (h : new rules localIps capHolders = .ok f) :
    f.local4 = (partitionLocalIps localIps).1 ∧ f.local6 = (partitionLocalIps localIps).2 := by
  simp only [new, bind_eq_ok] at h
  obtain ⟨ms, -, ⟨⟩⟩ := h
  exact ⟨rfl, rfl⟩

theorem preserved_iff (he : s'.HasExtra e) : Preserved extra s s' ↔
    s'.filter.state = s.filter.state ∧ s'.filter.shieldsUp = s.filter.shieldsUp ∧
      s'.connectionCounter = s.connectionCounter ∧ e = extra := by
  constructor
  · rintro ⟨hstate, hup, hcounter, h4, h6⟩
    exact ⟨hstate, hup, hcounter, Prod.ext (append_cancel_left (he.1.symm.trans h4))
      (append_cancel_left (he.2.symm.trans h6))⟩
  · rintro ⟨hstate, hup, hcounter, rfl⟩
    exact ⟨hstate, hup, hcounter, he⟩

/-- One more rebuild, after some that left all in place. -/
theorem Preserved.rebuild_iff (h : Preserved extra s s') (r : Rebuild) :
    Preserved extra s (s'.rebuild r) ↔ s.Harmless extra r := by
  cases r with
  | filter named localIps advertiseRoutes peers shieldsUp =>
    simp only [rebuild, rebuildFilter, Harmless]
    cases hnew : new named.rules localIps (buildCapHolders peers) with
    | ok f =>
      obtain ⟨h4, h6⟩ := local_of_new hnew
      rw [preserved_iff]
      · simp [setShieldsUp, shareStateWith, h.state, eq_comm]
        tauto
      · dsimp only
        split_ifs with hroutes
        · simp [HasExtra, setShieldsUp, shareStateWith, addLocalCidrs, h4, h6,
            extraCidrs, LocalIpSet.extend]
        · simp [HasExtra, setShieldsUp, shareStateWith, h4, h6, extraCidrs, not_not.mp hroutes]
    | error e =>
      rw [preserved_iff]
      · simp [setShieldsUp, allowNone, eq_comm]
        tauto
      · simp [HasExtra, setShieldsUp, allowNone, partitionLocalIps]
  | ifChanged unchanged rules localIps capHolders =>
    simp only [rebuild, rebuildIfChanged, Harmless]
    cases unchanged with
    | true => simpa using h
    | false =>
      cases hnew : new rules localIps capHolders with
      | ok f =>
        obtain ⟨h4, h6⟩ := local_of_new hnew
        refine (preserved_iff (e := ([], [])) ?_).trans ?_
        · simp [HasExtra, setShieldsUp, shareStateWith, h4, h6]
        · simp [setShieldsUp, shareStateWith, h.state, h.shieldsUp, h.connectionCounter, eq_comm]
      | error e => simpa using h

/-- Every one of successive rebuilds leaves in place what was there before the first exactly if each
of them is harmless. -/
theorem rebuilds_preserved_iff (h : s.HasExtra extra) (rs : List Rebuild) :
    (∀ done, done <+: rs → Preserved extra s (done.foldl rebuild s)) ↔
      ∀ r ∈ rs, s.Harmless extra r := by
  constructor
  · intro hall r hr
    obtain ⟨done, rest, rfl⟩ := append_of_mem hr
    have hafter := hall (done ++ [r]) ⟨rest, by simp⟩
    rw [foldl_append] at hafter
    exact ((hall done (prefix_append _ _)).rebuild_iff r).mp hafter
  · intro hall done
    induction done using reverseRecOn with
    | nil => exact fun _ => ⟨rfl, rfl, rfl, h⟩
    | append_singleton done r ih =>
      intro hpre
      rw [foldl_append]
      exact ((ih ((prefix_append _ _).trans hpre)).rebuild_iff r).mpr
        (hall r (hpre.subset (by simp)))

/-- A filter that counts connections counts none after it is rebuilt from the same inputs. -/
theorem rebuild_loses_counter :
    let s : Installed Unit := ⟨.allowNone, some (), []⟩
    s.HasExtra ([], []) ∧ (s.rebuild (.filter [] [] [] [] false)).connectionCounter = none ∧
      ¬Preserved ([], []) s (s.rebuild (.filter [] [] [] [] false)) :=
  ⟨⟨rfl, rfl⟩, rfl, fun h => nomatch h.connectionCounter⟩

/-- A filter with a flow, shields up and an advertised route, and one rebuild of each kind. -/
theorem rebuilds_preserved_iff_flow :
    let named : NamedFilters :=
      [("base", [{ srcIPs := ["*"], dstPorts := [{ ip := "*", ports := ⟨0, 80⟩ }] }])]
    let flow : Tuple := ⟨0x64400002, 0x64400001, 53, 4000, Packet.udp⟩
    let build : Rebuild := .filter named [.v4 0x64400001#32] ["10.0.0.0/8"] [] true
    let s : Installed Unit :=
      rebuild ⟨{ Filter.allowNone with state := FlowState.empty.add flow }, none, []⟩ build
    let rs := [build, .ifChanged true named.rules [] fun _ => none]
    s.HasExtra (extraCidrs ["10.0.0.0/8"]) ∧ flow ∈ s.filter.state.entries ∧
      s.filter.shieldsUp = true ∧
      ∀ done, done <+: rs → Preserved (extraCidrs ["10.0.0.0/8"]) s (done.foldl rebuild s) := by
  intro named flow build s rs
  have hflow : flow ∈ (FlowState.empty.add flow).entries := by decide +kernel
  have hextra : s.HasExtra (extraCidrs ["10.0.0.0/8"]) := ⟨rfl, rfl⟩
  refine ⟨hextra, hflow, rfl, (rebuilds_preserved_iff hextra rs).mpr fun r hr => ?_⟩
  rcases mem_pair.mp hr with rfl | rfl
  · exact ⟨rfl, rfl, rfl⟩
  · exact .inl rfl

end Installed
end Rustscale.MapUpdate
