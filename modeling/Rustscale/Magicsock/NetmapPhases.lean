import Rustscale.Magicsock.PathIndex

/-! Which peers the endpoints and indexes name while a netmap is installed. -/
namespace Rustscale.Magicsock
open Disco List AList HashTable Magicsock.Inner
open Udprelay (SocketAddr)

variable {s s' : Inner} {p q : NodePublic} {peers old : List NetmapPeer}

def Inner.disco (s : Inner) (p : NodePublic) : Option DiscoPublic :=
  (s.endpoints.lookup p).map (·.peerDiscoKey)

/-- The indices name peers of the netmap only. -/
structure Names (s : Inner) (peers : List NetmapPeer) : Prop where
  addr : ∀ a p, s.addrToPeer.lookup a = some p → p ∈ desired peers
  disco : ∀ d p, s.discoToPeer.lookup d = some p → p ∈ desired peers

def Changed (old peers : List NetmapPeer) (p : NodePublic) : Prop :=
  ∃ d d', (desiredDisco old).lookup p = some d ∧ (desiredDisco peers).lookup p = some d' ∧ d ≠ d'

def Purged (old peers : List NetmapPeer) (refreshed : List NodePublic) (s : Inner) : Prop :=
  ∀ p, s.disco p =
    if p ∈ desired peers ∧ p ∉ refreshed then (desiredDisco old).lookup p else none

def Consistent (old : List NetmapPeer) (s : Inner) : Prop :=
  match s.netmap with
  | none => (∀ p, s.disco p = (desiredDisco old).lookup p) ∧ Names s old
  | some netmap =>
    (∀ p, p ∈ netmap.refreshed ↔ Changed old netmap.peers p) ∧
      match netmap.phase with
      | .purged => Purged old netmap.peers netmap.refreshed s
      | .unmapped => Purged old netmap.peers netmap.refreshed s ∧ Names s netmap.peers
      | .replaced => (∀ p, s.disco p = (desiredDisco netmap.peers).lookup p) ∧ Names s netmap.peers
      | .remapped => (∀ p, s.disco p = (desiredDisco netmap.peers).lookup p) ∧ Names s netmap.peers

theorem isSome_lookup_foldl_insert {κ ν : Type} [DecidableEq κ] {k : κ} (l : List (κ × ν)) :
    ∀ m : HashTable κ ν, ((l.foldl (fun m e => m.insert e.1 e.2) m).lookup k).isSome ↔
      k ∈ l.map Prod.fst ∨ (m.lookup k).isSome := by
  induction l with
  | nil => simp
  | cons e l ih =>
    intro m
    rw [foldl_cons, ih, map_cons, mem_cons]
    by_cases hk : k = e.1
    · subst hk
      simp
    · simp [hk, lookup_insert_ne hk]

theorem isSome_desiredDisco : ((desiredDisco peers).lookup p).isSome ↔ p ∈ desired peers := by
  rw [desiredDisco, ofList, isSome_lookup_foldl_insert, map_map]
  simp [desired, Function.comp_def]

theorem desiredDisco_eq_none : (desiredDisco peers).lookup p = none ↔ p ∉ desired peers := by
  rw [← isSome_desiredDisco, Option.not_isSome_iff_eq_none]

/-- A step outside a netmap update: it adds to the indices only what endpoints have. -/
structure Undisturbed (s s' : Inner) : Prop where
  netmap : s'.netmap = s.netmap
  authorization : s'.authorization = s.authorization
  disco : s'.disco = s.disco
  addr : ∀ a p, s'.addrToPeer.lookup a = some p →
    s.addrToPeer.lookup a = some p ∨ (s.disco p).isSome
  index : ∀ d p, s'.discoToPeer.lookup d = some p →
    s.discoToPeer.lookup d = some p ∨ (s.disco p).isSome

theorem Undisturbed.refl (s : Inner) : Undisturbed s s :=
  ⟨rfl, rfl, rfl, fun _ _ h => .inl h, fun _ _ h => .inl h⟩

theorem Undisturbed.names (h : Undisturbed s s') (hnames : Names s peers)
    (hdisco : ∀ p, (s.disco p).isSome → p ∈ desired peers) : Names s' peers where
  addr a p hp := (h.addr a p hp).elim (hnames.addr a p) (hdisco p)
  disco d p hp := (h.index d p hp).elim (hnames.disco d p) (hdisco p)

theorem Purged.isSome {refreshed : List NodePublic} (h : Purged old peers refreshed s)
    (hp : (s.disco p).isSome) : p ∈ desired peers := by
  rw [h p] at hp
  split at hp
  · next hdesired => exact hdesired.1
  · cases hp

theorem isSome_of_disco (h : ∀ p, s.disco p = (desiredDisco peers).lookup p)
    (hp : (s.disco p).isSome) : p ∈ desired peers := by
  rw [h p] at hp
  exact isSome_desiredDisco.mp hp

theorem Consistent.undisturbed (h : Consistent old s) (hstep : Undisturbed s s') :
    Consistent old s' := by
  -- the keys of the endpoints are the same, and the indexes name peers that have one
  have hnames : ∀ {peers}, (∀ p, s.disco p = (desiredDisco peers).lookup p) ∧ Names s peers →
      (∀ p, s'.disco p = (desiredDisco peers).lookup p) ∧ Names s' peers := fun h =>
    ⟨hstep.disco ▸ h.1, hstep.names h.2 fun p => isSome_of_disco h.1⟩
  unfold Consistent at h ⊢
  rw [hstep.netmap]
  split at h
  · exact hnames h
  · next netmap hnetmap =>
    have hpurged : Purged old netmap.peers netmap.refreshed s →
        Purged old netmap.peers netmap.refreshed s' := fun hp p => hstep.disco ▸ hp p
    refine ⟨h.1, ?_⟩
    replace h := h.2
    split at h
    · exact hpurged h
    · exact ⟨hpurged h.1, hstep.names h.2 fun p => h.1.isSome⟩
    all_goals exact hnames h

theorem disco_insert {ep ep' : Endpoint} (hep : s.endpoints.lookup p = some ep)
    (hs : s'.endpoints = s.endpoints.insert p ep') (hkey : ep'.peerDiscoKey = ep.peerDiscoKey) :
    s'.disco = s.disco := by
  funext q
  unfold disco
  rw [hs]
  by_cases hq : q = p
  · subst hq
    rw [lookup_insert, hep, Option.map_some, Option.map_some, hkey]
  · rw [lookup_insert_ne hq]

theorem setRelay_undisturbed {peerDisco : DiscoPublic} {generation : ℕ} {path : RelayPath}
    (h : s.setRelay p peerDisco generation path = some s') : Undisturbed s s' := by
  unfold setRelay at h
  split at h
  · cases h
  split at h
  · cases h
  next ep hep =>
  split at h
  · cases h
  cases h
  refine ⟨rfl, rfl, disco_insert hep rfl rfl, fun a q hq => ?_, fun _ _ hq => .inl hq⟩
  rcases lookup_insert_eq_some.mp hq with ⟨-, rfl⟩ | ⟨-, hq⟩
  · exact .inr (by simp [disco, hep])
  · exact .inl (lookup_foldl_release.mp (lookup_foldl_release.mp hq).1).1

theorem Endpoint.clearRelayServer_peerDiscoKey (ep : Endpoint) (serverKey : NodePublic)
    (serverGeneration : ℕ) :
    (ep.clearRelayServer serverKey serverGeneration).1.peerDiscoKey = ep.peerDiscoKey := by
  unfold clearRelayServer
  dsimp only
  split
  · rfl
  · split <;> rfl

theorem clearRelayServer_undisturbed (s : Inner) (serverKey : NodePublic)
    (serverDisco : DiscoPublic) (serverGeneration : ℕ) :
    Undisturbed s (s.clearRelayServer serverKey serverDisco serverGeneration) := by
  refine ⟨rfl, rfl, ?_, fun a q hq => ?_, fun d q hq => ?_⟩
  · funext q
    unfold disco clearRelayServer
    rw [lookup_update, Option.map_map]
    congr 1
    funext ep
    exact ep.clearRelayServer_peerDiscoKey serverKey serverGeneration
  · exact .inl ((lookup_foldl_foldl_release
      fun ep => (ep.clearRelayServer serverKey serverGeneration).2).mp hq).1
  · unfold clearRelayServer at hq
    dsimp only at hq
    split at hq
    · exact .inl (lookup_erase_eq_some.mp hq).2
    · exact .inl hq

theorem setPendingPings_undisturbed (s : Inner) (p : NodePublic) (pings : List (BitVec 96)) :
    Undisturbed s (s.setPendingPings p pings) := by
  unfold setPendingPings
  split
  · exact .refl s
  · next ep hep =>
    exact ⟨rfl, rfl, disco_insert hep rfl rfl, fun _ _ h => .inl h, fun _ _ h => .inl h⟩

theorem isSome_disco_of_authorized {senderDisco : DiscoPublic}
    (h : (s.authorizedDiscoGeneration p senderDisco).isSome) : (s.disco p).isSome := by
  unfold authorizedDiscoGeneration at h
  split at h
  · cases h
  · next ep hep => simp [disco, hep]

theorem sender_spec {senderDisco : DiscoPublic} {msg : Message}
    {index : HashTable DiscoPublic NodePublic}
    (h : s.sender senderDisco msg = some (p, index)) : (s.disco p).isSome ∧
      (index = s.discoToPeer ∨ index = s.discoToPeer.insert senderDisco p) := by
  unfold sender at h
  split at h
  · next peer hpeer =>
    cases h
    exact ⟨isSome_disco_of_authorized (Option.filter_eq_some_iff.mp hpeer).2, .inl rfl⟩
  · split at h
    · split at h
      · cases h
      split at h
      · cases h
      next hauthorized =>
      cases h
      rw [Bool.not_eq_true, Option.isNone_eq_false_iff] at hauthorized
      exact ⟨isSome_disco_of_authorized hauthorized, .inr rfl⟩
    · obtain ⟨e, he, heq⟩ := Option.map_eq_some_iff.mp h
      cases heq
      have hlookup := mem_pairs.mp (mem_of_find?_eq_some he)
      exact ⟨by rw [disco, hlookup]; rfl, .inl rfl⟩
    · cases h

/-- A disco message changes neither the keys nor the authorization of a netmap. -/
theorem handleDiscoUdp_undisturbed (s : Inner) (disableDirectPaths : Bool)
    (senderDisco : DiscoPublic) (msg : Message) (src : SocketAddr) :
    Undisturbed s (s.handleDiscoUdp disableDirectPaths senderDisco msg src).1 := by
  unfold handleDiscoUdp
  split
  · exact .refl s
  next peer discoToPeer hsender =>
  obtain ⟨hpeer, hindex⟩ := sender_spec hsender
  have hindex' : ∀ d p, discoToPeer.lookup d = some p →
      s.discoToPeer.lookup d = some p ∨ (s.disco p).isSome := by
    intro d p hp
    rcases hindex with rfl | rfl
    · exact .inl hp
    · rcases lookup_insert_eq_some.mp hp with ⟨-, rfl⟩ | ⟨-, hp⟩
      · exact .inr hpeer
      · exact .inl hp
  have haddr : ∀ a p, (s.addrToPeer.insert src peer).lookup a = some p →
      s.addrToPeer.lookup a = some p ∨ (s.disco p).isSome := by
    intro a p hp
    rcases lookup_insert_eq_some.mp hp with ⟨-, rfl⟩ | ⟨-, hp⟩
    · exact .inr hpeer
    · exact .inl hp
  have hkept : Undisturbed s { s with discoToPeer } := ⟨rfl, rfl, rfl, fun _ _ h => .inl h, hindex'⟩
  split
  · split
    · exact hkept
    · exact ⟨rfl, rfl, rfl, haddr, hindex'⟩
  · dsimp only
    split
    · exact hkept
    next ep hep =>
    split
    · exact ⟨rfl, rfl, disco_insert hep rfl rfl, haddr, hindex'⟩
    · exact hkept
  · exact hkept

theorem reorder_undisturbed {endpoints : HashTable NodePublic Endpoint}
    (h : s.endpoints.Reordered endpoints) : Undisturbed s { s with endpoints } := by
  refine ⟨rfl, rfl, ?_, fun _ _ h => .inl h, fun _ _ h => .inl h⟩
  funext p
  rw [disco, h.lookup_eq, disco]

/-- Only a netmap's own actions change its keys and authorization. -/
theorem step_undisturbed {disableDirectPaths : Bool} {action : Action} {new : List Event}
    (hs : s.step disableDirectPaths action = some (s', new))
    (hset : ∀ peers, action ≠ .setNetmap peers) (hgo : ∀ order, action ≠ .goOn order) :
    Undisturbed s s' := by
  cases action <;> simp only [step] at hs
  case setNetmap peers => exact absurd rfl (hset peers)
  case goOn order => exact absurd rfl (hgo order)
  case setRelay peerKey peerDisco authorizationGeneration path =>
    split at hs
    · cases hs
      exact .refl s
    · next s1 hrelay =>
      cases hs
      exact setRelay_undisturbed hrelay
  case clearRelayServer serverKey serverDisco serverGeneration =>
    cases hs
    exact clearRelayServer_undisturbed s serverKey serverDisco serverGeneration
  case discoUdp senderDisco msg src =>
    split at hs
    · cases hs
      exact handleDiscoUdp_undisturbed s disableDirectPaths senderDisco msg src
    · cases hs
  case setPendingPings peer pendingPings =>
    cases hs
    exact setPendingPings_undisturbed s peer pendingPings
  case wgUdpRelay src vni =>
    split at hs
    · cases hs
      exact .refl s
    · cases hs
  case reorder endpoints =>
    split at hs
    · next hperm =>
      cases hs
      exact reorder_undisturbed hperm
    · cases hs

theorem disco_retain (keep : NodePublic → Bool)
    (hs : s'.endpoints = s.endpoints.retain fun peer _ => keep peer) (q : NodePublic) :
    s'.disco q = if keep q then s.disco q else none := by
  rw [disco, hs, lookup_retain, disco]
  cases s.endpoints.lookup q with
  | none => simp
  | some ep => by_cases hq : keep q <;> simp [Option.filter, hq]

theorem mem_refreshedBy (h : ∀ p, s.disco p = (desiredDisco old).lookup p) :
    p ∈ s.refreshedBy peers ↔ Changed old peers p := by
  have hold : ∀ d, (desiredDisco old).lookup p = some d ↔
      ∃ ep, s.endpoints.lookup p = some ep ∧ ep.peerDiscoKey = d := by
    intro d
    rw [← h p, disco, Option.map_eq_some_iff]
  unfold refreshedBy Changed
  simp only [mem_map, mem_filter, mem_pairs, hold, Option.any_eq_true]
  constructor
  · rintro ⟨⟨q, ep⟩, ⟨hep, d', hd', hne⟩, rfl⟩
    exact ⟨ep.peerDiscoKey, d', ⟨ep, hep, rfl⟩, hd', by simpa using hne⟩
  · rintro ⟨d, d', ⟨ep, hep, rfl⟩, hd', hne⟩
    exact ⟨(p, ep), ⟨hep, d', hd', by simpa using hne⟩, rfl⟩

theorem Consistent.purge (h : Consistent old s) (hnone : s.netmap = none)
    (peers : List NetmapPeer) : Consistent old (s.purge peers) := by
  unfold Consistent at h
  rw [hnone] at h
  refine ⟨fun p => mem_refreshedBy h.1, fun p => ?_⟩
  rw [disco_retain
    (fun peer => decide (peer ∈ desired peers) && decide (peer ∉ s.refreshedBy peers)) rfl, h.1 p]
  simp

theorem unmap_names (s : Inner) (peers : List NetmapPeer) (refreshed : List NodePublic) :
    Names (s.unmap peers refreshed) peers where
  addr a p hp := by
    have hkeep := (lookup_retain_eq_some.mp hp).2
    simp only [Bool.and_eq_true, decide_eq_true_eq] at hkeep
    exact hkeep.1
  disco d p hp := by
    have hkeep := (lookup_retain_eq_some.mp hp).2
    rw [Bool.and_eq_true, Option.any_eq_true] at hkeep
    obtain ⟨-, d', hd', -⟩ := hkeep
    exact isSome_desiredDisco.mp (by rw [hd']; rfl)

theorem upsert_disco (s : Inner) (peer : NetmapPeer) (q : NodePublic) :
    (s.upsert peer).disco q =
      if peer.key ≠ 0 ∧ q = peer.key then some peer.discoKey else s.disco q := by
  unfold upsert disco
  split
  · next hzero => simp [hzero]
  · next hkey =>
    by_cases hq : q = peer.key
    · subst hq
      rw [if_pos ⟨hkey, rfl⟩, lookup_insert]
      rfl
    · rw [if_neg fun h => hq h.2, lookup_insert_ne hq]

/-- After the loop a peer has the disco key of its last entry. -/
theorem foldl_upsert_disco (base : NodePublic → Option DiscoPublic) (peers : List NetmapPeer) :
    ∀ (s : Inner) (m : HashTable NodePublic DiscoPublic),
      (∀ p, s.disco p = (m.lookup p).or (base p)) →
      ∀ p, (peers.foldl upsert s).disco p =
        ((((peers.filter fun peer => peer.key ≠ 0).map fun peer =>
          (peer.key, peer.discoKey)).foldl (fun m e => m.insert e.1 e.2) m).lookup p).or (base p) := by
  induction peers with
  | nil => exact fun s m h => h
  | cons peer peers ih =>
    intro s m h
    rw [foldl_cons]
    by_cases hkey : peer.key = 0
    · have hskip : s.upsert peer = s := by rw [upsert, if_pos hkey]
      rw [hskip, filter_cons_of_neg (by simpa using hkey)]
      exact ih s m h
    · rw [filter_cons_of_pos (by simpa using hkey), map_cons, foldl_cons]
      refine ih _ _ fun p => ?_
      rw [upsert_disco]
      by_cases hp : p = peer.key
      · subst hp
        rw [if_pos ⟨hkey, rfl⟩, lookup_insert]
        rfl
      · rw [if_neg fun h => hp h.2, lookup_insert_ne hp, h p]

theorem replace_disco (s : Inner) (peers : List NetmapPeer) (refreshed : List NodePublic)
    (p : NodePublic) : (s.replace peers refreshed).disco p = (desiredDisco peers).lookup p := by
  let retained : Inner := { s with
    endpoints := s.endpoints.retain fun peer _ => decide (peer ∈ desired peers)
    discoToPeer := s.discoToPeer.retain fun _ peer => decide (peer ∈ desired peers)
    netmap := some ⟨peers, refreshed, .replaced⟩ }
  have hretained : ∀ q, retained.disco q = if decide (q ∈ desired peers) then s.disco q else none :=
    disco_retain (fun peer => decide (peer ∈ desired peers)) rfl
  have hfold := foldl_upsert_disco _ peers retained ∅
    (fun p => by rw [hretained p, lookup_empty, Option.none_or]) p
  rw [Inner.replace, hfold]
  change ((desiredDisco peers).lookup p).or _ = _
  cases hp : (desiredDisco peers).lookup p with
  | some d => rfl
  | none => simp [desiredDisco_eq_none.mp hp]

theorem upsert_index (s : Inner) {peer : NetmapPeer} {d : DiscoPublic}
    (h : (s.upsert peer).discoToPeer.lookup d = some p) :
    s.discoToPeer.lookup d = some p ∨ peer.key ≠ 0 ∧ p = peer.key := by
  unfold upsert at h
  split at h
  · exact .inl h
  next hkey =>
  -- the old key of the peer may go, its new key may come
  have herased : ∀ index : HashTable DiscoPublic NodePublic, ∀ b : Prop, [Decidable b] → ∀ d',
      (if b then index.erase d' else index).lookup d = some p → index.lookup d = some p := by
    intro index b _ d' h
    split at h
    · exact (lookup_erase_eq_some.mp h).2
    · exact h
  dsimp only at h
  split at h
  · rcases lookup_insert_eq_some.mp h with ⟨-, rfl⟩ | ⟨-, h⟩
    · exact .inr ⟨hkey, rfl⟩
    · exact .inl (herased _ _ _ h)
  · exact .inl (herased _ _ _ h)

theorem foldl_upsert_index {peers : List NetmapPeer} {d : DiscoPublic} : ∀ s : Inner,
    (peers.foldl upsert s).discoToPeer.lookup d = some p →
      s.discoToPeer.lookup d = some p ∨ p ∈ desired peers := by
  induction peers with
  | nil => exact fun s h => .inl h
  | cons peer peers ih =>
    intro s h
    rcases ih _ h with h | h
    · rcases upsert_index s h with h | ⟨hkey, rfl⟩
      · exact .inl h
      · exact .inr (mem_map.mpr ⟨peer, by simpa using hkey, rfl⟩)
    · refine .inr ?_
      obtain ⟨peer', hpeer', rfl⟩ := mem_map.mp h
      rw [mem_filter] at hpeer'
      exact mem_map.mpr ⟨peer', by simpa using ⟨.inr hpeer'.1, by simpa using hpeer'.2⟩, rfl⟩

theorem Names.replace (h : Names s peers) (refreshed : List NodePublic) :
    Names (s.replace peers refreshed) peers where
  addr a p hp := by
    have hindex : (s.replace peers refreshed).addrToPeer = s.addrToPeer := (foldl_upsert_rest _).1
    rw [hindex] at hp
    exact h.addr a p hp
  disco d p hp := by
    rcases foldl_upsert_index _ hp with hp | hp
    · exact h.disco d p (lookup_retain_eq_some.mp hp).1
    · exact hp

theorem Names.remap (h : Names s peers) (refreshed : List NodePublic) :
    Names (s.remap peers refreshed) peers where
  addr a p hp := h.addr a p (lookup_retain_eq_some.mp hp).1
  disco := h.disco

def installed (old : List NetmapPeer) (s s' : Inner) : List NetmapPeer :=
  match s.netmap, s'.netmap with
  | some netmap, none => netmap.peers
  | _, _ => old

/-- Step: each phase of a netmap keeps the tables consistent. -/
theorem Consistent.goOn {netmap : Netmap} {order : List NodePublic} (h : Consistent old s)
    (hnetmap : s.netmap = some netmap) (hs : netmap.goOn s order = some s') :
    Consistent (installed old s s') s' := by
  unfold Consistent at h
  rw [hnetmap] at h
  obtain ⟨hrefreshed, h⟩ := h
  unfold Netmap.goOn at hs
  cases hp : netmap.phase <;> simp only [hp] at hs h
  case purged =>
    cases hs
    rw [installed, hnetmap]
    exact ⟨hrefreshed, h, unmap_names s netmap.peers netmap.refreshed⟩
  case unmapped =>
    cases hs
    have hnetmap' : (s.replace netmap.peers netmap.refreshed).netmap =
        some ⟨netmap.peers, netmap.refreshed, .replaced⟩ := (foldl_upsert_rest _).2
    rw [installed, hnetmap, hnetmap', Consistent, hnetmap']
    exact ⟨hrefreshed, replace_disco s netmap.peers netmap.refreshed, h.2.replace netmap.refreshed⟩
  case replaced =>
    cases hs
    rw [installed, hnetmap]
    exact ⟨hrefreshed, h.1, h.2.remap netmap.refreshed⟩
  case remapped =>
    split at hs
    · cases hs
      rw [installed, hnetmap]
      exact ⟨h.1, h.2.addr, h.2.disco⟩
    · cases hs

end Rustscale.Magicsock
