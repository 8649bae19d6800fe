import Rustscale.Filter.Parse

/-! Reconciliation of the peer map with the deltas of a map response. -/
namespace Rustscale.Tailcfg

abbrev PublicKey := BitVec 256

/-- The fields that the peer map, the routes and the filter read or patch. -/
structure Node where
  id : ℤ := 0
  key : PublicKey := 0
  keySignature : Option (List Octets.Byte) := none
  discoKey : PublicKey := 0
  addresses : List String := []
  allowedIps : List String := []
  endpoints : List String := []
  homeDerp : ℤ := 0
  cap : ℤ := 0
  capMap : List (String × List String) := []
  online : Option Bool := none
  lastSeen : Option ℤ := none
  keyExpiry : Option ℤ := none
  deriving DecidableEq

/-- A patch of a node; zero, empty and `none` stand for no change. -/
structure PeerChange where
  nodeId : ℤ
  derpRegion : ℤ := 0
  cap : ℤ := 0
  capMap : List (String × List String) := []
  endpoints : List String := []
  key : Option PublicKey := none
  keySignature : Option (List Octets.Byte) := none
  discoKey : Option PublicKey := none
  online : Option Bool := none
  lastSeen : Option ℤ := none
  keyExpiry : Option ℤ := none

/-- The parts of a map response that peers and filters are built from. -/
structure MapResponse where
  keepAlive : Bool := false
  domain : String := ""
  peers : Option (List Node) := none
  peersChanged : List Node := []
  peersRemoved : List ℤ := []
  peersChangedPatch : Option (List PeerChange) := none
  packetFilter : Option (List FilterRule) := none
  packetFilters : Option (List (String × Option (List FilterRule))) := none

def hexDigit (n : ℕ) : Char := if n < 10 then Char.ofNat (48 + n) else Char.ofNat (87 + n)

def nodeKeyText (k : PublicKey) : String :=
  "nodekey:" ++ String.ofList ((List.range 64).map fun i =>
    hexDigit ((k.toNat >>> (4 * (63 - i))) % 16))

end Rustscale.Tailcfg

namespace Rustscale.PeerMap
open IpAddr Checks Tailcfg List Function

/-- Why a set of peers is refused. -/
inductive ReconcileError where
  | missingStableId
  | duplicateStableId (id : ℤ)
  | missingNodeKey (id : ℤ)
  | duplicateNodeKey (key : String)
  | invalidAddress (address : String)
  | duplicateAddress (ip : IpAddr)

/-- The host address of a text with the full prefix length. -/
def parseNodeAddress (address : String) : Option IpAddr := do
  let (ip, bits) ← IpText.splitOnce '/' address.toList
  if '/' ∈ bits then none
  else
    let ip ← IpText.parseIpAddr ip
    let bits ← IpText.parseU8 bits
    if bits = ip.bitLen then some ip else none

def ips (peer : Node) : List IpAddr := peer.addresses.filterMap parseNodeAddress

abbrev ByIp := IpAddr → Option PublicKey

def addAddress (key : PublicKey) (byIp : ByIp) (address : String) : Except ReconcileError ByIp := do
  let ip ← okOr (parseNodeAddress address) (.invalidAddress address)
  match byIp ip with
  | some owner =>
    if owner ≠ key then .error (.duplicateAddress ip)
    else .ok (update byIp ip (some key))
  | none => .ok (update byIp ip (some key))

/-- What has been seen of the peers before. -/
structure Seen where
  ids : List ℤ := []
  keys : List PublicKey := []
  byIp : ByIp := fun _ => none

def addPeer (s : Seen) (peer : Node) : Except ReconcileError Seen := do
  ensure (peer.id ≠ 0) .missingStableId
  ensure (peer.id ∉ s.ids) (.duplicateStableId peer.id)
  ensure (peer.key ≠ 0) (.missingNodeKey peer.id)
  ensure (peer.key ∉ s.keys) (.duplicateNodeKey (nodeKeyText peer.key))
  let byIp ← peer.addresses.foldlM (addAddress peer.key) s.byIp
  return ⟨peer.id :: s.ids, peer.key :: s.keys, byIp⟩

/-- The owners of the addresses, if the peers are in order. -/
def fromPeers (peers : List Node) : Except ReconcileError ByIp := do
  let s ← peers.foldlM addPeer {}
  return s.byIp

def applyPatch (node : Node) (patch : PeerChange) : Node :=
  { node with
    homeDerp := if patch.derpRegion ≠ 0 then patch.derpRegion else node.homeDerp
    cap := if patch.cap ≠ 0 then patch.cap else node.cap
    capMap := if patch.capMap ≠ [] then patch.capMap else node.capMap
    endpoints := if patch.endpoints ≠ [] then patch.endpoints else node.endpoints
    key := patch.key.getD node.key
    keySignature := patch.keySignature.or node.keySignature
    discoKey := patch.discoKey.getD node.discoKey
    online := patch.online.or node.online
    lastSeen := patch.lastSeen.or node.lastSeen
    keyExpiry := patch.keyExpiry.or node.keyExpiry }

/-- Replace the first peer with the identifier of the changed one, or append it. -/
def upsert (peers : List Node) (changed : Node) : List Node :=
  match peers.findIdx? fun peer => peer.id = changed.id with
  | some i => peers.set i changed
  | none => peers ++ [changed]

def patchFirst : List Node → PeerChange → List Node
  | [], _ => []
  | peer :: peers, patch =>
    if peer.id = patch.nodeId then applyPatch peer patch :: peers
    else peer :: patchFirst peers patch

/-- Apply deltas one by one; each has an identifier of its own that is not zero. -/
def applyEach {δ : Type} (id : δ → ℤ) (apply : List Node → δ → List Node) :
    List ℤ → List Node → List δ → Except ReconcileError (List Node)
  | _, peers, [] => .ok peers
  | seen, peers, d :: ds => do
    ensure (id d ≠ 0) .missingStableId
    ensure (id d ∉ seen) (.duplicateStableId (id d))
    applyEach id apply (id d :: seen) (apply peers d) ds

def reconcile (current : List Node) (response : MapResponse) :
    Except ReconcileError (List Node) := do
  let peers := response.peers.getD current
  let peers ← applyEach Node.id upsert [] peers response.peersChanged
  let peers := peers.filter fun peer => peer.id ∉ response.peersRemoved
  let peers ← applyEach PeerChange.nodeId patchFirst [] peers
    (response.peersChangedPatch.getD [])
  let _ ← fromPeers peers
  return peers

/-- A connection attempt and the peer that it came from. -/
structure Flow where
  remote : IpAddr × ℕ
  local_ : IpAddr × ℕ
  peer : PublicKey
  seen : ℕ

/-- The owners of the addresses, the epochs and the flows. -/
structure Runtime where
  identity : ByIp
  authorizationEpoch : ℕ
  dialEpoch : ℕ
  flows : List Flow

namespace Runtime

def advanceDialEpoch (r : Runtime) : Runtime := { r with dialEpoch := (r.dialEpoch + 1) % 2 ^ 64 }

def advanceAuthorizationEpoch (r : Runtime) : Runtime :=
  { r.advanceDialEpoch with
    authorizationEpoch := (r.authorizationEpoch + 1) % 2 ^ 64
    flows := [] }

/-- Install the owners of a peer set; peers that are not in order change nothing. -/
def install (r : Runtime) (peers : List Node) : Except ReconcileError Unit × Runtime :=
  match fromPeers peers with
  | .error e => (.error e, r)
  | .ok identity => (.ok (), { r with identity }.advanceAuthorizationEpoch)

end Runtime

/-- Each peer has an identifier and a key of its own, not zero, and host addresses that no other
has. -/
structure Valid (peers : List Node) : Prop where
  ids : (peers.map Node.id).Nodup
  idsNonzero : ∀ p ∈ peers, p.id ≠ 0
  keys : (peers.map Node.key).Nodup
  keysNonzero : ∀ p ∈ peers, p.key ≠ 0
  hosts : ∀ p ∈ peers, ∀ a ∈ p.addresses, (parseNodeAddress a).isSome = true
  owners : peers.Pairwise fun p q => (ips p).Disjoint (ips q)

/-- A peer that can be added: it has an id, a key and addresses, none of them taken. -/
structure Fits (peers : List Node) (p : Node) : Prop where
  idNonzero : p.id ≠ 0
  id : p.id ∉ peers.map Node.id
  keyNonzero : p.key ≠ 0
  key : p.key ∉ peers.map Node.key
  hosts : ∀ a ∈ p.addresses, (parseNodeAddress a).isSome = true
  owners : ∀ q ∈ peers, (ips q).Disjoint (ips p)

/-- What has been seen is what the peers have. -/
structure Seen.Tracks (s : Seen) (peers : List Node) : Prop where
  ids : ∀ id, id ∈ s.ids ↔ id ∈ peers.map Node.id
  keys : ∀ key, key ∈ s.keys ↔ key ∈ peers.map Node.key
  byIp : ∀ ip key, s.byIp ip = some key ↔ ∃ p ∈ peers, p.key = key ∧ ip ∈ ips p

section Accepted
variable {peers sub : List Node} {p : Node} {s s' : Seen}

/-- A list is valid when each peer fits those before it. -/
theorem valid_concat : Valid (peers ++ [p]) ↔ Valid peers ∧ Fits peers p := by
  constructor
  · rintro ⟨h1, h2, h3, h4, h5, h6⟩
    rw [map_append, nodup_append] at h1 h3
    rw [pairwise_append] at h6
    refine ⟨⟨h1.1, fun q hq => h2 q (by simp [hq]), h3.1, fun q hq => h4 q (by simp [hq]),
      fun q hq => h5 q (by simp [hq]), h6.1⟩, ⟨h2 p (by simp), fun hm => ?_, h4 p (by simp),
      fun hm => ?_, h5 p (by simp), fun q hq => h6.2.2 q hq p (by simp)⟩⟩
    · exact h1.2.2 _ hm _ (by simp) rfl
    · exact h3.2.2 _ hm _ (by simp) rfl
  · rintro ⟨hv, hf⟩
    refine ⟨?_, ?_, ?_, ?_, ?_, ?_⟩
    · rw [map_append, nodup_append]
      refine ⟨hv.ids, by simp, fun a ha b hb heq => hf.id ?_⟩
      have hb' : b = p.id := by simpa using hb
      exact hb' ▸ heq ▸ ha
    · grind [hv.idsNonzero, hf.idNonzero]
    · rw [map_append, nodup_append]
      refine ⟨hv.keys, by simp, fun a ha b hb heq => hf.key ?_⟩
      have hb' : b = p.key := by simpa using hb
      exact hb' ▸ heq ▸ ha
    · grind [hv.keysNonzero, hf.keyNonzero]
    · grind [hv.hosts, hf.hosts]
    · rw [pairwise_append]
      refine ⟨hv.owners, pairwise_singleton _ _, fun q hq r hr => ?_⟩
      rw [mem_singleton.mp hr]
      exact hf.owners q hq

theorem Valid.sublist (h : Valid peers) (hs : sub.Sublist peers) : Valid sub where
  ids := h.ids.sublist (hs.map _)
  idsNonzero p hp := h.idsNonzero p (hs.subset hp)
  keys := h.keys.sublist (hs.map _)
  keysNonzero p hp := h.keysNonzero p (hs.subset hp)
  hosts p hp := h.hosts p (hs.subset hp)
  owners := h.owners.sublist hs

theorem addAddress_eq_ok {key : PublicKey} {address : String} {byIp byIp' : ByIp} :
    addAddress key byIp address = .ok byIp' ↔
      ∃ ip, parseNodeAddress address = some ip ∧ (∀ owner, byIp ip = some owner → owner = key) ∧
        update byIp ip (some key) = byIp' := by
  simp only [addAddress, bind_eq_ok, okOr_eq_ok]
  refine exists_congr fun ip => and_congr_right fun _ => ?_
  cases h : byIp ip with
  | none => simp
  | some owner =>
    by_cases ho : owner = key
    · simp [ho]
    · simp [ho]

/-- The loop succeeds when each address parses and is no other peer's. -/
theorem addAddresses_eq_ok {key : PublicKey} {addresses : List String} {byIp byIp' : ByIp} :
    addresses.foldlM (addAddress key) byIp = .ok byIp' ↔
      (∀ a ∈ addresses, ∃ ip, parseNodeAddress a = some ip ∧
        ∀ owner, byIp ip = some owner → owner = key) ∧
      (fun ip => if ip ∈ addresses.filterMap parseNodeAddress then some key
        else byIp ip) = byIp' := by
  induction addresses generalizing byIp with
  | nil => simp [pure, Except.pure]
  | cons a addresses ih =>
    simp only [foldlM_cons, bind_eq_ok, addAddress_eq_ok, forall_mem_cons]
    constructor
    · rintro ⟨_, ⟨ip, hip, hown, rfl⟩, hrest⟩
      obtain ⟨hall, rfl⟩ := ih.mp hrest
      refine ⟨⟨⟨ip, hip, hown⟩, fun b hb => ?_⟩, ?_⟩
      · obtain ⟨ip', hip', hown'⟩ := hall b hb
        refine ⟨ip', hip', fun owner ho => ?_⟩
        by_cases heq : ip' = ip
        · exact hown owner (heq ▸ ho)
        · exact hown' owner (by rwa [update_of_ne heq])
      · funext ip'
        by_cases heq : ip' = ip <;> simp [hip, heq]
    · rintro ⟨⟨⟨ip, hip, hown⟩, hall⟩, rfl⟩
      refine ⟨_, ⟨ip, hip, hown, rfl⟩, ih.mpr ⟨fun b hb => ?_, ?_⟩⟩
      · obtain ⟨ip', hip', hown'⟩ := hall b hb
        refine ⟨ip', hip', fun owner ho => ?_⟩
        by_cases heq : ip' = ip
        · rw [heq, update_self] at ho
          exact (Option.some.inj ho).symm
        · exact hown' owner (by rwa [update_of_ne heq] at ho)
      · funext ip'
        by_cases heq : ip' = ip <;> simp [hip, heq]

theorem addPeer_eq_ok : addPeer s p = .ok s' ↔
    (p.id ≠ 0 ∧ p.id ∉ s.ids ∧ p.key ≠ 0 ∧ p.key ∉ s.keys ∧
      ∀ a ∈ p.addresses, ∃ ip, parseNodeAddress a = some ip ∧
        ∀ owner, s.byIp ip = some owner → owner = p.key) ∧
    ⟨p.id :: s.ids, p.key :: s.keys, fun ip => if ip ∈ ips p then some p.key else s.byIp ip⟩ =
      s' := by
  simp only [addPeer, bind_eq_ok, ensure_eq_ok, exists_unit, decide_eq_true_eq,
    addAddresses_eq_ok, ips, and_assoc]
  constructor
  · rintro ⟨h1, h2, h3, h4, _, h5, rfl, h6⟩
    exact ⟨h1, h2, h3, h4, h5, Except.ok.inj h6⟩
  · rintro ⟨h1, h2, h3, h4, h5, rfl⟩
    exact ⟨h1, h2, h3, h4, _, h5, rfl, rfl⟩

/-- A peer is accepted exactly when it fits the peers before it. -/
theorem Seen.Tracks.addPeer_ok_iff (h : s.Tracks peers) :
    (∃ s', addPeer s p = .ok s') ↔ Fits peers p := by
  simp only [addPeer_eq_ok, exists_and_left, exists_eq', and_true]
  constructor
  · rintro ⟨h1, h2, h3, h4, h5⟩
    have hkey : p.key ∉ peers.map Node.key := mt (h.keys _).mpr h4
    refine ⟨h1, mt (h.ids _).mpr h2, h3, hkey, fun a ha => ?_, fun q hq ip hiq hip => hkey ?_⟩
    · obtain ⟨ip, hip, -⟩ := h5 a ha
      simp [hip]
    · obtain ⟨a, ha, hpa⟩ := mem_filterMap.mp hip
      obtain ⟨ip', hip', hown⟩ := h5 a ha
      obtain rfl := Option.mem_unique hpa hip'
      rw [← hown q.key ((h.byIp ip q.key).mpr ⟨q, hq, rfl, hiq⟩)]
      exact mem_map_of_mem hq
  · intro hf
    refine ⟨hf.idNonzero, mt (h.ids _).mp hf.id, hf.keyNonzero, mt (h.keys _).mp hf.key,
      fun a ha => ?_⟩
    obtain ⟨ip, hip⟩ := Option.isSome_iff_exists.mp (hf.hosts a ha)
    refine ⟨ip, hip, fun owner ho => ?_⟩
    obtain ⟨q, hq, -, hiq⟩ := (h.byIp ip owner).mp ho
    exact absurd (mem_filterMap.mpr ⟨a, ha, hip⟩) (hf.owners q hq hiq)

/-- Step: the maps of the loop track the peers accepted so far. -/
theorem Seen.Tracks.addPeer (h : s.Tracks peers) (hp : addPeer s p = .ok s') :
    s'.Tracks (peers ++ [p]) := by
  have hf := h.addPeer_ok_iff.mp ⟨s', hp⟩
  obtain ⟨-, rfl⟩ := addPeer_eq_ok.mp hp
  refine ⟨fun id => ?_, fun key => ?_, fun ip key => ?_⟩
  · simp [h.ids, or_comm]
  · simp [h.keys, or_comm]
  · by_cases hip : ip ∈ ips p
    · have hno : ∀ q ∈ peers, ip ∉ ips q := fun q hq hiq => hf.owners q hq hiq hip
      simp only [hip, if_true, Option.some.injEq]
      constructor
      · rintro rfl
        exact ⟨p, by simp, rfl, hip⟩
      · rintro ⟨q, hq, rfl, hiq⟩
        rcases mem_append.mp hq with hq | hq
        · exact absurd hiq (hno q hq)
        · rw [mem_singleton.mp hq]
    · simp only [hip, if_false, h.byIp]
      constructor
      · rintro ⟨q, hq, hk, hiq⟩
        exact ⟨q, by simp [hq], hk, hiq⟩
      · rintro ⟨q, hq, hk, hiq⟩
        rcases mem_append.mp hq with hq | hq
        · exact ⟨q, hq, hk, hiq⟩
        · exact absurd hiq (mem_singleton.mp hq ▸ hip)

/-- Run lemma: the loop accepts exactly the valid lists and tracks them. -/
theorem Seen.Tracks.foldlM (h : s.Tracks peers) (hv : Valid peers) (rest : List Node) :
    ((∃ s', rest.foldlM PeerMap.addPeer s = .ok s') ↔ Valid (peers ++ rest)) ∧
      ∀ s', rest.foldlM PeerMap.addPeer s = .ok s' → s'.Tracks (peers ++ rest) := by
  induction rest generalizing s peers with
  | nil =>
    refine ⟨iff_of_true ⟨s, rfl⟩ (by simpa using hv), fun s' hs => ?_⟩
    cases hs
    simpa using h
  | cons p rest ih =>
    simp only [foldlM_cons, bind_eq_ok]
    rw [show peers ++ p :: rest = peers ++ [p] ++ rest by simp]
    constructor
    · constructor
      · rintro ⟨s', s1, hp, hr⟩
        have hv1 := valid_concat.mpr ⟨hv, h.addPeer_ok_iff.mp ⟨s1, hp⟩⟩
        exact (ih (h.addPeer hp) hv1).1.mp ⟨s', hr⟩
      · intro hall
        have hv1 := hall.sublist (sublist_append_left _ _)
        obtain ⟨s1, hp⟩ := h.addPeer_ok_iff.mpr (valid_concat.mp hv1).2
        obtain ⟨s', hr⟩ := (ih (h.addPeer hp) hv1).1.mpr hall
        exact ⟨s', s1, hp, hr⟩
    · rintro s' ⟨s1, hp, hr⟩
      have hv1 := valid_concat.mpr ⟨hv, h.addPeer_ok_iff.mp ⟨s1, hp⟩⟩
      exact (ih (h.addPeer hp) hv1).2 s' hr

theorem Seen.tracks_nil : Seen.Tracks {} [] := ⟨by simp, by simp, by simp⟩

theorem valid_nil : Valid [] := ⟨by simp, by simp, by simp, by simp, by simp, by simp⟩

theorem fromPeers_isOk_iff : (∃ byIp, fromPeers peers = .ok byIp) ↔ Valid peers := by
  have h := (Seen.tracks_nil.foldlM valid_nil peers).1
  rw [nil_append] at h
  rw [← h]
  simp [fromPeers, pure, Except.pure]

end Accepted

def byId (peers : List Node) (id : ℤ) : Option Node := peers.find? fun p => p.id = id

namespace PeerTable

variable (m : ℤ → Option Node)

def upsert (changed : Node) : ℤ → Option Node :=
  update m changed.id (some changed)

def remove (ids : List ℤ) : ℤ → Option Node :=
  fun id => if id ∈ ids then none else m id

/-- A peer with the fields that a patch gives; those it does not give stay. -/
def amended (c : PeerChange) (p : Node) : Node where
  id := p.id
  addresses := p.addresses
  allowedIps := p.allowedIps
  homeDerp := if c.derpRegion = 0 then p.homeDerp else c.derpRegion
  cap := if c.cap = 0 then p.cap else c.cap
  capMap := if c.capMap = [] then p.capMap else c.capMap
  endpoints := if c.endpoints = [] then p.endpoints else c.endpoints
  key := match c.key with | some key => key | none => p.key
  keySignature := match c.keySignature with | some sig => some sig | none => p.keySignature
  discoKey := match c.discoKey with | some key => key | none => p.discoKey
  online := match c.online with | some online => some online | none => p.online
  lastSeen := match c.lastSeen with | some seen => some seen | none => p.lastSeen
  keyExpiry := match c.keyExpiry with | some expiry => some expiry | none => p.keyExpiry

def patch (c : PeerChange) : ℤ → Option Node :=
  update m c.nodeId ((m c.nodeId).map (amended c))

/-- The full list or the current peers, then the changed peers, the removals and the patches. -/
def reconcile (current : List Node) (response : MapResponse) : ℤ → Option Node :=
  let m := byId (response.peers.getD current)
  let m := response.peersChanged.foldl upsert m
  let m := remove m response.peersRemoved
  (response.peersChangedPatch.getD []).foldl patch m

end PeerTable

section Deltas
variable {peers peers' current : List Node} {response : MapResponse}

theorem byId_cons (p : Node) (peers : List Node) :
    byId (p :: peers) = update (byId peers) p.id (some p) := by
  funext id
  by_cases h : id = p.id
  · simp [byId, h]
  · rw [update_of_ne h, byId, byId, find?_cons_of_neg (by simpa using Ne.symm h)]

theorem upsert_cons (p : Node) (peers : List Node) (changed : Node) :
    upsert (p :: peers) changed =
      if p.id = changed.id then changed :: peers else p :: upsert peers changed := by
  unfold upsert
  rw [findIdx?_cons]
  by_cases h : p.id = changed.id
  · simp [h]
  · cases peers.findIdx? fun peer => peer.id = changed.id <;> simp [h]

theorem byId_upsert (peers : List Node) (changed : Node) :
    byId (upsert peers changed) = PeerTable.upsert (byId peers) changed := by
  unfold PeerTable.upsert
  induction peers with
  | nil => exact byId_cons changed []
  | cons p peers ih =>
    rw [upsert_cons, byId_cons]
    split_ifs with h
    · rw [byId_cons, h, update_idem]
    · rw [byId_cons, ih, update_comm h]

theorem byId_filter (peers : List Node) (ids : List ℤ) :
    byId (peers.filter fun p => p.id ∉ ids) = PeerTable.remove (byId peers) ids := by
  funext id
  unfold PeerTable.remove byId
  rw [find?_filter]
  split_ifs with h
  · refine find?_eq_none.mpr fun p _ hp => ?_
    have hp' : p.id ∉ ids ∧ p.id = id := by simpa using hp
    exact hp'.1 (hp'.2 ▸ h)
  · congr 1
    funext p
    by_cases hp : p.id = id <;> simp [hp, h]

theorem applyPatch_eq (p : Node) (c : PeerChange) : applyPatch p c = PeerTable.amended c p := by
  simp only [applyPatch, PeerTable.amended, ne_eq, ite_not, Node.mk.injEq]
  refine ⟨trivial, ?_, ?_, ?_, trivial, trivial, trivial, trivial, trivial, trivial, ?_, ?_, ?_⟩
  all_goals split <;> simp_all

theorem byId_patchFirst (peers : List Node) (c : PeerChange) :
    byId (patchFirst peers c) = PeerTable.patch (byId peers) c := by
  unfold PeerTable.patch
  induction peers with
  | nil => simp [patchFirst, byId]
  | cons p peers ih =>
    rw [patchFirst, byId_cons]
    split_ifs with h
    · rw [byId_cons, applyPatch_eq, PeerTable.amended, h, update_idem, update_self, Option.map_some,
      PeerTable.amended, h]
    · rw [byId_cons, ih, update_comm h, update_of_ne (Ne.symm h)]

theorem applyEach_eq_ok {δ : Type} {id : δ → ℤ} {apply : List Node → δ → List Node} {ds : List δ}
    {seen : List ℤ} {peers : List Node} : applyEach id apply seen peers ds = .ok peers' ↔
      (∀ d ∈ ds, id d ≠ 0 ∧ id d ∉ seen) ∧ (ds.map id).Nodup ∧ ds.foldl apply peers = peers' := by
  induction ds generalizing seen peers with
  | nil => simp [applyEach]
  | cons d ds ih =>
    simp only [applyEach, bind_eq_ok, ensure_eq_ok, exists_unit, decide_eq_true_eq, ih, map_cons,
      nodup_cons, foldl_cons, mem_cons, mem_map]
    grind

/-- The peers that the deltas give, in order or not. -/
def merged (current : List Node) (response : MapResponse) : List Node :=
  (response.peersChangedPatch.getD []).foldl patchFirst
    ((response.peersChanged.foldl upsert (response.peers.getD current)).filter
      fun peer => peer.id ∉ response.peersRemoved)

theorem byId_merged (current : List Node) (response : MapResponse) :
    byId (merged current response) = PeerTable.reconcile current response := by
  rw [merged, ← foldl_hom byId fun peers d => (byId_patchFirst peers d).symm, byId_filter,
    ← foldl_hom byId fun peers d => (byId_upsert peers d).symm]
  rfl

/-- Changed peers and patches each have an identifier of their own. -/
structure OwnIds (response : MapResponse) : Prop where
  changed : (response.peersChanged.map Node.id).Nodup
  changedNonzero : ∀ p ∈ response.peersChanged, p.id ≠ 0
  patched : ((response.peersChangedPatch.getD []).map PeerChange.nodeId).Nodup
  patchedNonzero : ∀ c ∈ response.peersChangedPatch.getD [], c.nodeId ≠ 0

theorem reconcile_eq_ok : reconcile current response = .ok peers ↔
    OwnIds response ∧ merged current response = peers ∧ Valid peers := by
  simp only [reconcile, bind_eq_ok, applyEach_eq_ok, not_mem_nil, not_false_eq_true, and_true, pure,
    Except.pure, Except.ok.injEq]
  constructor
  · rintro ⟨_, ⟨h1, h2, rfl⟩, _, ⟨h3, h4, rfl⟩, byIp, hok, rfl⟩
    exact ⟨⟨h2, h1, h4, h3⟩, rfl, fromPeers_isOk_iff.mp ⟨byIp, hok⟩⟩
  · rintro ⟨h, rfl, hv⟩
    obtain ⟨byIp, hok⟩ := fromPeers_isOk_iff.mpr hv
    exact ⟨_, ⟨h.changedNonzero, h.changed, rfl⟩, _, ⟨h.patchedNonzero, h.patched, rfl⟩, byIp, hok, rfl⟩

end Deltas

theorem Runtime.install_eq_ok (r : Runtime) (peers : List Node) :
    (r.install peers).1 = .ok () ↔ Valid peers := by
  rw [← fromPeers_isOk_iff, Runtime.install]
  cases fromPeers peers <;> simp

/-- A reconciliation that succeeds gives the peers that the deltas amount to, in order. One that
fails gives none, and does so exactly if a delta has no identifier of its own or these peers are not
in order; they cannot be installed then, and trying to changes nothing. Any part of accepted peers
is accepted again. -/
theorem reconcile_spec (current : List Node) (response : MapResponse) :
    (∀ peers, reconcile current response = .ok peers →
      Valid peers ∧ byId peers = PeerTable.reconcile current response ∧
      ∀ part : List Node, part.Sublist peers →
        Valid part ∧ ∀ r : Runtime, (r.install part).1 = .ok ()) ∧
    ((∃ e, reconcile current response = .error e) ↔
      ¬(OwnIds response ∧ Valid (merged current response))) ∧
    ∀ (r : Runtime) (peers : List Node) (e : ReconcileError),
      (r.install peers).1 = .error e → (r.install peers).2 = r := by
  refine ⟨fun peers h => ?_, ?_, fun r peers e h => ?_⟩
  · obtain ⟨-, rfl, hv⟩ := reconcile_eq_ok.mp h
    refine ⟨hv, byId_merged current response, fun part hp => ⟨hv.sublist hp, fun r => ?_⟩⟩
    exact (r.install_eq_ok part).mpr (hv.sublist hp)
  · have hok : (∃ peers, reconcile current response = .ok peers) ↔
        OwnIds response ∧ Valid (merged current response) := by simp [reconcile_eq_ok]
    rw [← hok]
    cases reconcile current response <;> simp
  · unfold Runtime.install at *
    cases hf : fromPeers peers with
    | error e' => rfl
    | ok byIp => simp [hf] at h

def alice : Node := { id := 1, key := 1, addresses := ["100.64.0.1/32"] }

def bob : Node := { id := 2, key := 2, addresses := ["100.64.0.2/32", "fd7a::2/128"] }

def joinAndRotate : MapResponse where
  peersChanged := [bob]
  peersChangedPatch := some [{ nodeId := 1, key := some 3 }]

/-- A peer joins while another changes its key. -/
theorem reconcile_spec_join : ∃ peers, reconcile [alice] joinAndRotate = .ok peers ∧
    Valid peers ∧ byId peers = PeerTable.reconcile [alice] joinAndRotate ∧ Valid [bob] ∧
    ∀ r : Runtime, (r.install [bob]).1 = .ok () ∧
      (∃ e, (r.install [bob, bob]).1 = .error e) ∧ (r.install [bob, bob]).2 = r := by
  obtain ⟨peers, hok, hpart⟩ : ∃ peers, reconcile [alice] joinAndRotate = .ok peers ∧
      [bob].Sublist peers := ⟨_, rfl, by decide⟩
  obtain ⟨hok', -, herr⟩ := reconcile_spec [alice] joinAndRotate
  obtain ⟨hv, hmap, hsub⟩ := hok' peers hok
  refine ⟨peers, hok, hv, hmap, (hsub _ hpart).1, fun r => ⟨(hsub _ hpart).2 r, ⟨_, rfl⟩, ?_⟩⟩
  exact herr r [bob, bob] _ rfl

end Rustscale.PeerMap
