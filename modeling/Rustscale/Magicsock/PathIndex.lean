import Rustscale.Magicsock.Paths

/-! What is received over relay paths. The index has one peer for an address, so a path is heard as
long as its peer was the last recorded there. -/
namespace Rustscale.Magicsock
open Disco List Function AList Option HashTable Magicsock.Inner
open Udprelay (SocketAddr)

variable {s s' : Inner} {log : List Event} {p q : NodePublic} {a : SocketAddr} {path : RelayPath}

def Inner.paths (s : Inner) (p : NodePublic) : Option (Option RelayPath) :=
  (s.endpoints.lookup p).map (·.relay)

variable {addr : SocketAddr} {new : List Event} {ep : Endpoint} {peers : List NetmapPeer}
  {refreshed : List NodePublic} {disableDirectPaths : Bool}

theorem lookup_release {index : HashTable SocketAddr NodePublic} :
    (release p index addr).lookup a = some q ↔
      index.lookup a = some q ∧ (q = p → a ≠ addr) := by
  unfold release
  split
  · next h =>
    rw [lookup_erase_eq_some]
    constructor
    · exact fun ⟨hne, hq⟩ => ⟨hq, fun _ => hne⟩
    · rintro ⟨hq, hne⟩
      refine ⟨?_, hq⟩
      rintro rfl
      exact hne (mem_unique hq h) rfl
  · next h =>
    refine ⟨fun hq => ⟨hq, ?_⟩, And.left⟩
    rintro rfl rfl
    exact h hq

theorem lookup_foldl_release {addrs : List SocketAddr} :
    ∀ {index : HashTable SocketAddr NodePublic},
      (addrs.foldl (release p) index).lookup a = some q ↔
        index.lookup a = some q ∧ (q = p → a ∉ addrs) := by
  induction addrs with
  | nil => simp
  | cons addr addrs ih =>
    intro index
    rw [foldl_cons, ih, lookup_release, mem_cons, not_or]
    tauto

theorem lookup_foldl_foldl_release (f : Endpoint → List SocketAddr)
    {peers : List (NodePublic × Endpoint)} :
    ∀ {index : HashTable SocketAddr NodePublic},
      (peers.foldl (fun index e => (f e.2).foldl (release e.1) index) index).lookup a = some q ↔
        index.lookup a = some q ∧ ∀ e ∈ peers, q = e.1 → a ∉ f e.2 := by
  induction peers with
  | nil => simp
  | cons e peers ih =>
    intro index
    rw [foldl_cons, ih, lookup_foldl_release, forall_mem_cons, and_assoc]

def Event.at (a : SocketAddr) : Event → Option NodePublic
  | .recorded addr peer => if addr = a then some peer else none
  | .delivered .. => none

def lastRecorded (log : List Event) (a : SocketAddr) : Option NodePublic :=
  (log.filterMap (Event.at a)).getLast?

theorem lastRecorded_append (h : ∀ e ∈ new, e.at a = none) :
    lastRecorded (log ++ new) a = lastRecorded log a := by
  rw [lastRecorded, filterMap_append, filterMap_eq_nil_iff.mpr h, append_nil, lastRecorded]

theorem lastRecorded_recorded :
    lastRecorded (log ++ [.recorded addr p]) a =
      if addr = a then some p else lastRecorded log a := by
  by_cases h : addr = a <;> simp [lastRecorded, Event.at, h]

/-- The index holds what was recorded last, and a peer at its path's address if that was last. -/
structure Indexed (log : List Event) (s : Inner) : Prop where
  recorded : ∀ a p, s.addrToPeer.lookup a = some p → lastRecorded log a = some p
  current : ∀ p path, s.paths p = some (some path) → lastRecorded log path.addr = some p →
    s.addrToPeer.lookup path.addr = some p

theorem Indexed.shrink (h : Indexed log s)
    (hindex : ∀ a p, s'.addrToPeer.lookup a = some p → s.addrToPeer.lookup a = some p)
    (hpath : ∀ p path, s'.paths p = some (some path) → s.paths p = some (some path) ∧
      (s.addrToPeer.lookup path.addr = some p → s'.addrToPeer.lookup path.addr = some p)) :
    Indexed log s' where
  recorded a p hp := h.recorded a p (hindex a p hp)
  current p path hp hlast :=
    (hpath p path hp).2 (h.current p path (hpath p path hp).1 hlast)

theorem Indexed.append (h : Indexed log s) (hnew : ∀ a, ∀ e ∈ new, e.at a = none) :
    Indexed (log ++ new) s where
  recorded a p hp := (lastRecorded_append (hnew a)).trans (h.recorded a p hp)
  current p path hp hlast :=
    h.current p path hp ((lastRecorded_append (hnew path.addr)).symm.trans hlast)

theorem Indexed.record (h : Indexed log s) (hp : s'.addrToPeer.lookup a = some p)
    (hindex : ∀ b q, b ≠ a → s'.addrToPeer.lookup b = some q → s.addrToPeer.lookup b = some q)
    (hpath : ∀ q path, s'.paths q = some (some path) → path.addr ≠ a → s.paths q = some (some path) ∧
      (s.addrToPeer.lookup path.addr = some q → s'.addrToPeer.lookup path.addr = some q)) :
    Indexed (log ++ [.recorded a p]) s' where
  recorded b q hq := by
    rw [lastRecorded_recorded]
    split
    · next heq =>
      subst heq
      exact hp.symm.trans hq
    · next hne => exact h.recorded b q (hindex b q (Ne.symm hne) hq)
  current q path hq hlast := by
    rw [lastRecorded_recorded] at hlast
    split at hlast
    · next heq => rw [← heq, hp, hlast]
    · next hne =>
      obtain ⟨hq, hkept⟩ := hpath q path hq (Ne.symm hne)
      exact hkept (h.current q path hq hlast)

/-- Which peers have an endpoint while a netmap is installed. -/
def Phased (s : Inner) : Prop :=
  ∀ netmap, s.netmap = some netmap → ∀ p, (s.paths p).isSome →
    match netmap.phase with
    | .purged => p ∈ desired netmap.peers ∧ p ∉ netmap.refreshed
    | .replaced => p ∈ desired netmap.peers
    | _ => True

theorem Phased.of_paths (h : Phased s) (hnetmap : s'.netmap = s.netmap)
    (hpaths : ∀ p, (s'.paths p).isSome → (s.paths p).isSome) : Phased s' := by
  intro netmap hn p hp
  exact h netmap (hnetmap ▸ hn) p (hpaths p hp)

theorem paths_insert (hs : s'.endpoints = s.endpoints.insert p ep) :
    s'.paths = update s.paths p (some ep.relay) := by
  funext q
  unfold paths
  by_cases hq : q = p
  · subst hq
    rw [hs, lookup_insert, update_self]
    rfl
  · rw [hs, lookup_insert_ne hq, update_of_ne hq]

theorem paths_insert_same (ep' : Endpoint) (hep : s.endpoints.lookup p = some ep)
    (hs : s'.endpoints = s.endpoints.insert p ep') (hrelay : ep'.relay = ep.relay) :
    s'.paths = s.paths := by
  have hp : s.paths p = some ep'.relay := by rw [paths, hep, hrelay]; rfl
  rw [paths_insert hs, ← hp, update_eq_self]

namespace Inner

theorem setPendingPings_paths (s : Inner) (p : NodePublic) (pings : List (BitVec 96)) :
    (s.setPendingPings p pings).paths = s.paths := by
  unfold setPendingPings
  split
  · rfl
  · next ep hep =>
    exact paths_insert_same { ep with pendingPings := pings } hep rfl rfl

theorem setPendingPings_rest (s : Inner) (p : NodePublic) (pings : List (BitVec 96)) :
    (s.setPendingPings p pings).addrToPeer = s.addrToPeer ∧
      (s.setPendingPings p pings).netmap = s.netmap := by
  unfold setPendingPings
  split <;> exact ⟨rfl, rfl⟩

/-- A disco message changes the index only at its source. -/
theorem handleDiscoUdp_spec (s : Inner) (disableDirectPaths : Bool) (senderDisco : DiscoPublic)
    (msg : Message) (src : SocketAddr) :
    let r := s.handleDiscoUdp disableDirectPaths senderDisco msg src
    r.1.paths = s.paths ∧ r.1.netmap = s.netmap ∧
      r.1.addrToPeer = r.2.elim s.addrToPeer (s.addrToPeer.insert src) := by
  intro r
  simp only [r, handleDiscoUdp]
  split
  · exact ⟨rfl, rfl, rfl⟩
  · next peer discoToPeer hsender =>
    split
    · split <;> exact ⟨rfl, rfl, rfl⟩
    · next pong =>
      split
      · exact ⟨rfl, rfl, rfl⟩
      · next ep hep =>
        split
        · refine ⟨?_, rfl, rfl⟩
          exact paths_insert_same
            { ep with pendingPings := ep.pendingPings.filter (· ≠ pong.txId) } hep rfl rfl
        · exact ⟨rfl, rfl, rfl⟩
    · exact ⟨rfl, rfl, rfl⟩

end Inner

theorem Indexed.handleDiscoUdp (h : Indexed log s) (disableDirectPaths : Bool)
    (senderDisco : DiscoPublic) (msg : Message) (src : SocketAddr) :
    let r := s.handleDiscoUdp disableDirectPaths senderDisco msg src
    Indexed (log ++ r.2.toList.map (.recorded src)) r.1 := by
  obtain ⟨hpaths, -, hindex⟩ := s.handleDiscoUdp_spec disableDirectPaths senderDisco msg src
  generalize s.handleDiscoUdp disableDirectPaths senderDisco msg src = r at hpaths hindex
  obtain ⟨s', _ | p⟩ := r
  · rw [elim_none] at hindex
    refine h.append (by simp) |>.shrink (fun a q hq => hindex ▸ hq) fun q path hq => ?_
    rw [hindex]
    exact ⟨hpaths ▸ hq, id⟩
  · rw [elim_some] at hindex
    refine h.record (by rw [hindex, lookup_insert]) ?_ ?_
    · intro b q hb hq
      rwa [hindex, lookup_insert_ne hb] at hq
    · intro q path hq haddr
      rw [hindex, lookup_insert_ne haddr]
      exact ⟨hpaths ▸ hq, id⟩

theorem Endpoint.clearRelayServer_relay {serverKey : NodePublic} {serverGeneration : ℕ}
    (h : (ep.clearRelayServer serverKey serverGeneration).1.relay = some path) :
    ep.relay = some path ∧ path.addr ∉ (ep.clearRelayServer serverKey serverGeneration).2 := by
  unfold clearRelayServer at h ⊢
  cases hrelay : ep.relay with
  | none => simp [hrelay] at h
  | some relay =>
    simp only [hrelay] at h ⊢
    split at h
    · cases h
    · next hother =>
      obtain rfl : relay = path := some.inj h
      simp [if_neg hother]

/-- Step: a relay path enters the index with its peer. -/
theorem Indexed.setRelay (h : Indexed log s) {peerDisco : DiscoPublic} {generation : ℕ}
    (hs : s.setRelay p peerDisco generation path = some s') :
    Indexed (log ++ [.recorded path.addr p]) s' ∧ s'.netmap = s.netmap ∧
      ∀ q, (s'.paths q).isSome → (s.paths q).isSome := by
  unfold Inner.setRelay at hs
  split at hs
  · cases hs
  split at hs
  · cases hs
  next ep hep =>
  split at hs
  · cases hs
  cases hs
  refine ⟨h.record (lookup_insert _) ?_ ?_, rfl, ?_⟩
  · intro b q hb hq
    rw [lookup_insert_ne hb] at hq
    exact (lookup_foldl_release.mp (lookup_foldl_release.mp hq).1).1
  · intro q path' hq haddr
    rw [paths_insert rfl] at hq
    by_cases hqp : q = p
    · subst hqp
      rw [update_self, some.injEq] at hq
      obtain rfl : path = path' := some.inj hq
      exact absurd rfl haddr
    · rw [update_of_ne hqp] at hq
      refine ⟨hq, fun hindex => ?_⟩
      -- only entries of the peer itself are released
      rw [lookup_insert_ne haddr]
      exact lookup_foldl_release.mpr
        ⟨lookup_foldl_release.mpr ⟨hindex, fun heq => absurd heq hqp⟩, fun heq => absurd heq hqp⟩
  · intro q hq
    rw [paths_insert rfl] at hq
    by_cases hqp : q = p
    · rw [hqp, paths, hep]
      rfl
    · rwa [update_of_ne hqp] at hq

/-- Step: the paths of a server leave the index with it. -/
theorem Indexed.clearRelayServer (h : Indexed log s) (serverKey : NodePublic)
    (serverDisco : DiscoPublic) (serverGeneration : ℕ) :
    Indexed log (s.clearRelayServer serverKey serverDisco serverGeneration) := by
  have hpaths : ∀ q path,
      (s.clearRelayServer serverKey serverDisco serverGeneration).paths q = some (some path) →
      ∃ ep, s.endpoints.lookup q = some ep ∧
        (ep.clearRelayServer serverKey serverGeneration).1.relay = some path := by
    intro q path hq
    simpa [Inner.paths, Inner.clearRelayServer, HashTable.lookup_update] using hq
  have hindex : ∀ a q,
      (s.clearRelayServer serverKey serverDisco serverGeneration).addrToPeer.lookup a = some q ↔
        s.addrToPeer.lookup a = some q ∧ ∀ e ∈ s.endpoints.pairs, q = e.1 →
          a ∉ (e.2.clearRelayServer serverKey serverGeneration).2 := fun _ _ =>
    lookup_foldl_foldl_release fun ep => (ep.clearRelayServer serverKey serverGeneration).2
  refine h.shrink (fun a q hq => ((hindex a q).mp hq).1) fun q path hq => ?_
  obtain ⟨ep, hep, hrelay⟩ := hpaths q path hq
  obtain ⟨hold, haddr⟩ := Endpoint.clearRelayServer_relay hrelay
  refine ⟨by rw [paths, hep, map_some, hold], fun hold => ?_⟩
  refine (hindex path.addr q).mpr ⟨hold, ?_⟩
  rintro ⟨q', ep'⟩ he rfl
  obtain rfl : ep = ep' := some.inj (hep.symm.trans (mem_pairs.mp he))
  exact haddr

theorem paths_retain (keep : NodePublic → Bool)
    (hs : s'.endpoints = s.endpoints.retain fun peer _ => keep peer) (q : NodePublic) :
    s'.paths q = if keep q then s.paths q else none := by
  rw [paths, hs, lookup_retain, paths]
  cases s.endpoints.lookup q with
  | none => simp
  | some ep => by_cases hq : keep q <;> simp [hq]

theorem purge_paths (s : Inner) (peers : List NetmapPeer) (q : NodePublic) :
    (s.purge peers).paths q =
      if q ∈ desired peers ∧ q ∉ s.refreshedBy peers then s.paths q else none := by
  rw [paths_retain
    (fun peer => decide (peer ∈ desired peers) && decide (peer ∉ s.refreshedBy peers)) rfl]
  simp

theorem Indexed.purge (h : Indexed log s) (peers : List NetmapPeer) :
    Indexed log (s.purge peers) := by
  refine h.shrink (fun _ _ hq => hq) fun q path hq => ⟨?_, id⟩
  rw [purge_paths] at hq
  split at hq
  · exact hq
  · cases hq

theorem Phased.purge (s : Inner) (peers : List NetmapPeer) : Phased (s.purge peers) := by
  intro netmap hn q hq
  cases hn
  rw [purge_paths] at hq
  split at hq
  · next hkeep => exact hkeep
  · cases hq

theorem Indexed.unmap (h : Indexed log s)
    (hkept : ∀ q, (s.paths q).isSome → q ∈ desired peers ∧ q ∉ refreshed) :
    Indexed log (s.unmap peers refreshed) := by
  refine h.shrink (fun a q hq => (lookup_retain_eq_some.mp hq).1) fun q path hq => ?_
  refine ⟨hq, fun hindex => lookup_retain_eq_some.mpr ⟨hindex, ?_⟩⟩
  simpa using hkept q (by rw [show s.paths q = some (some path) from hq]; rfl)

theorem Indexed.remap (h : Indexed log s) (hkept : ∀ q, (s.paths q).isSome → q ∈ desired peers) :
    Indexed log (s.remap peers refreshed) := by
  refine h.shrink (fun a q hq => (lookup_retain_eq_some.mp hq).1) fun q path hq => ?_
  refine ⟨hq, fun hindex => lookup_retain_eq_some.mpr ⟨hindex, ?_⟩⟩
  simpa using hkept q (by rw [show s.paths q = some (some path) from hq]; rfl)

theorem upsert_paths (s : Inner) (peer : NetmapPeer) (q : NodePublic) :
    (s.upsert peer).paths q = s.paths q ∨
      peer.key ≠ 0 ∧ q = peer.key ∧ s.paths q = none ∧ (s.upsert peer).paths q = some none := by
  unfold upsert
  split
  · exact .inl rfl
  · next hkey =>
    rw [paths_insert rfl]
    by_cases hq : q = peer.key
    · subst hq
      rw [update_self, paths]
      cases s.endpoints.lookup peer.key with
      | none => exact .inr ⟨hkey, rfl, rfl, rfl⟩
      | some ep => exact .inl rfl
    · rw [update_of_ne hq]
      exact .inl rfl

theorem foldl_upsert_paths (peers : List NetmapPeer) : ∀ (s : Inner) (q : NodePublic),
    (peers.foldl upsert s).paths q = s.paths q ∨
      q ∈ desired peers ∧ (peers.foldl upsert s).paths q = some none := by
  induction peers with
  | nil => exact fun s q => .inl rfl
  | cons peer peers ih =>
    intro s q
    have hdesired : q ∈ desired peers → q ∈ desired (peer :: peers) := fun hq =>
      map_subset _ ((sublist_cons_self peer peers).filter _).subset hq
    rcases ih (s.upsert peer) q with heq | ⟨hq, hnone⟩
    · rw [foldl_cons, heq]
      rcases upsert_paths s peer q with heq' | ⟨hkey, rfl, -, hnone⟩
      · exact .inl heq'
      · have hpeer : peer ∈ (peer :: peers).filter fun peer => peer.key ≠ 0 :=
          mem_filter.mpr ⟨mem_cons_self, by simpa using hkey⟩
        exact .inr ⟨mem_map_of_mem hpeer, hnone⟩
    · exact .inr ⟨hdesired hq, hnone⟩

theorem foldl_upsert_rest : ∀ s : Inner,
    (peers.foldl upsert s).addrToPeer = s.addrToPeer ∧
      (peers.foldl upsert s).netmap = s.netmap := by
  induction peers with
  | nil => exact fun s => ⟨rfl, rfl⟩
  | cons peer peers ih =>
    intro s
    have hstep : (s.upsert peer).addrToPeer = s.addrToPeer ∧ (s.upsert peer).netmap = s.netmap := by
      unfold upsert
      split <;> exact ⟨rfl, rfl⟩
    exact ⟨(ih _).1.trans hstep.1, (ih _).2.trans hstep.2⟩

theorem replace_paths (s : Inner) (peers : List NetmapPeer) (refreshed : List NodePublic)
    (q : NodePublic) :
    ((s.replace peers refreshed).paths q = s.paths q ∧ q ∈ desired peers) ∨
      (s.replace peers refreshed).paths q = none ∨
      q ∈ desired peers ∧ (s.replace peers refreshed).paths q = some none := by
  rcases foldl_upsert_paths peers _ q with heq | hnew
  · rw [Inner.replace, heq, paths_retain (fun peer => decide (peer ∈ desired peers)) rfl]
    split
    · next hq => exact .inl ⟨rfl, by simpa using hq⟩
    · exact .inr (.inl rfl)
  · exact .inr (.inr hnew)

theorem Indexed.replace (h : Indexed log s) (peers : List NetmapPeer)
    (refreshed : List NodePublic) : Indexed log (s.replace peers refreshed) := by
  have hindex : (s.replace peers refreshed).addrToPeer = s.addrToPeer := (foldl_upsert_rest _).1
  refine h.shrink (fun a q hq => hindex ▸ hq) fun q path hq => ?_
  rw [hindex]
  rcases replace_paths s peers refreshed q with
    ⟨heq, -⟩ | hnone | ⟨-, hnone⟩
  · exact ⟨heq ▸ hq, id⟩
  all_goals
    rw [hnone] at hq
    cases hq

theorem Phased.replace (s : Inner) (peers : List NetmapPeer) (refreshed : List NodePublic) :
    Phased (s.replace peers refreshed) := by
  intro netmap hn q hq
  obtain rfl := some.inj ((foldl_upsert_rest _).2.symm.trans hn)
  rcases replace_paths s peers refreshed q with
    ⟨-, hdesired⟩ | hnone | ⟨hdesired, -⟩
  · exact hdesired
  · rw [hnone] at hq
    cases hq
  · exact hdesired

theorem Indexed.goOn {netmap : Netmap} {order : List NodePublic} (h : Indexed log s)
    (hphase : Phased s) (hnetmap : s.netmap = some netmap)
    (hs : netmap.goOn s order = some s') : Indexed log s' ∧ Phased s' := by
  have hkept := hphase netmap hnetmap
  unfold Netmap.goOn at hs
  cases hp : netmap.phase with
  | purged =>
    simp only [hp] at hs hkept
    cases hs
    refine ⟨h.unmap hkept, fun netmap' hn q hq => ?_⟩
    cases hn
    trivial
  | unmapped =>
    simp only [hp] at hs
    cases hs
    exact ⟨h.replace _ _, Phased.replace _ _ _⟩
  | replaced =>
    simp only [hp] at hs hkept
    cases hs
    refine ⟨h.remap hkept, fun netmap' hn q hq => ?_⟩
    cases hn
    trivial
  | remapped =>
    simp only [hp] at hs
    split at hs
    · cases hs
      exact ⟨h.shrink (fun _ _ hq => hq) fun _ _ hq => ⟨hq, id⟩, nofun⟩
    · cases hs

/-- Step: an address in the index belongs to the peer it was last recorded for. -/
theorem step_indexed {action : Action} (h : Indexed log s) (hphase : Phased s)
    (hs : s.step disableDirectPaths action = some (s', new)) :
    Indexed (log ++ new) s' ∧ Phased s' := by
  cases action <;> simp only [step] at hs
  case setNetmap peers =>
    split at hs
    · cases hs
      rw [append_nil]
      exact ⟨h.purge peers, Phased.purge s peers⟩
    · cases hs
  case goOn order =>
    split at hs
    · cases hs
    · next netmap hnetmap =>
      obtain ⟨s1, hs1, heq⟩ := map_eq_some_iff.mp hs
      cases heq
      rw [append_nil]
      exact h.goOn hphase hnetmap hs1
  case setRelay peerKey peerDisco authorizationGeneration path =>
    split at hs
    · cases hs
      rw [append_nil]
      exact ⟨h, hphase⟩
    · next s1 hset =>
      cases hs
      obtain ⟨hindexed, hnetmap, hpaths⟩ := h.setRelay hset
      exact ⟨hindexed, hphase.of_paths hnetmap hpaths⟩
  case clearRelayServer serverKey serverDisco serverGeneration =>
    cases hs
    rw [append_nil]
    refine ⟨h.clearRelayServer _ _ _, hphase.of_paths rfl fun q hq => ?_⟩
    simpa [paths, clearRelayServer, lookup_update] using hq
  case discoUdp senderDisco msg src =>
    split at hs
    · cases hs
      obtain ⟨hpaths, hnetmap, -⟩ :=
        s.handleDiscoUdp_spec disableDirectPaths senderDisco msg src
      exact ⟨h.handleDiscoUdp _ _ _ _, hphase.of_paths hnetmap fun q hq => by rwa [hpaths] at hq⟩
    · cases hs
  case setPendingPings peer pendingPings =>
    cases hs
    obtain ⟨hindex, hnetmap⟩ := s.setPendingPings_rest peer pendingPings
    have hpaths := s.setPendingPings_paths peer pendingPings
    rw [append_nil]
    refine ⟨h.shrink (fun a q hq => hindex ▸ hq) fun q path hq => ?_,
      hphase.of_paths hnetmap fun q hq => by rwa [hpaths] at hq⟩
    rw [hindex]
    exact ⟨hpaths ▸ hq, id⟩
  case wgUdpRelay src vni =>
    split at hs
    · cases hs
      refine ⟨h.append fun a e he => ?_, hphase⟩
      obtain ⟨d, -, rfl⟩ := mem_map.mp he
      rfl
    · cases hs
  case reorder endpoints =>
    split at hs
    · next hperm =>
      cases hs
      have hpaths : paths { s with endpoints } = s.paths := by
        funext q
        rw [paths, hperm.lookup_eq, paths]
      rw [append_nil]
      exact ⟨h.shrink (fun _ _ hq => hq) fun q path hq => ⟨hpaths ▸ hq, id⟩,
        hphase.of_paths rfl fun q hq => by rwa [hpaths] at hq⟩
    · cases hs

theorem run_indexed (run : (machine disableDirectPaths).Run (fun _ _ => True) log s) :
    Indexed log s := by
  refine (run.invariant (fun log s => Indexed log s ∧ Phased s) ?_ ?_).1
  · refine ⟨⟨fun a p hp => ?_, fun p path hp => ?_⟩, fun netmap hn => ?_⟩
    · simp [machine, new] at hp
    · simp [machine, new, paths] at hp
    · cases hn
  · exact fun _ _ _ _ _ h hs _ => step_indexed h.1 h.2 hs

/-- The current relay path of the peer, with peer and server authorized in their current
generations. -/
def Inner.Live (s : Inner) (p : NodePublic) (a : SocketAddr) (v : ℕ) : Prop :=
  (s.authorization.generation p).isSome ∧ ∃ path, s.paths p = some (some path) ∧ path.addr = a ∧
    path.vni = v ∧ s.authorization.isCurrent path.serverKey path.serverGeneration = true

theorem handleWgUdpRelay_eq_some {v g : ℕ} : s.handleWgUdpRelay a v = some (p, g) ↔
    s.addrToPeer.lookup a = some p ∧ s.authorization.generation p = some g ∧ s.Live p a v := by
  unfold handleWgUdpRelay Inner.Live paths
  constructor
  · intro h
    obtain ⟨peer, hpeer, h⟩ := bind_eq_some_iff.mp h
    obtain ⟨generation, hgen, h⟩ := bind_eq_some_iff.mp h
    obtain ⟨ep, hep, h⟩ := bind_eq_some_iff.mp h
    obtain ⟨relay, hrelay, h⟩ := bind_eq_some_iff.mp h
    split at h
    · cases h
    · next hcond =>
      cases h
      simp only [not_or, not_not, Bool.not_eq_false] at hcond
      refine ⟨hpeer, hgen, by rw [hgen]; rfl, relay, ?_, hcond⟩
      rw [hep, map_some, hrelay]
  · rintro ⟨hpeer, hgen, -, path, hpath, rfl, rfl, hcurrent⟩
    obtain ⟨ep, hep, hrelay⟩ := map_eq_some_iff.mp hpath
    simp [hpeer, hgen, hep, hrelay, hcurrent]

/-- What comes over a relay path is delivered as from its peer, and nothing else is. -/
def Inner.HearsRelay (s : Inner) (a : SocketAddr) (v : ℕ) : Prop :=
  (∀ p, s.Live p a v → (s.handleWgUdpRelay a v).map (·.1) = some p) ∧
    ((∀ p path, s.paths p = some (some path) → ¬(path.addr = a ∧ path.vni = v)) →
      s.handleWgUdpRelay a v = none)

/-- In every run: a live path is heard as long as no other peer was recorded at its address later.
-/
theorem hearsRelay_iff {disableDirectPaths : Bool}
    (run : (machine disableDirectPaths).Run (fun _ _ => True) log s) (a : SocketAddr) (v : ℕ) :
    s.HearsRelay a v ↔ ∀ p, s.Live p a v → lastRecorded log a = some p := by
  have hindexed := run_indexed run
  constructor
  · intro h p hp
    obtain ⟨⟨q, g⟩, hdelivered, hq⟩ := map_eq_some_iff.mp (h.1 p hp)
    obtain rfl : q = p := hq
    exact hindexed.recorded a q (handleWgUdpRelay_eq_some.mp hdelivered).1
  · intro h
    constructor
    · intro p hp
      obtain ⟨hgen, path, hpath, rfl, -⟩ := id hp
      obtain ⟨g, hg⟩ := isSome_iff_exists.mp hgen
      have hindex := hindexed.current p path hpath (h p hp)
      rw [handleWgUdpRelay_eq_some.mpr ⟨hindex, hg, hp⟩]
      rfl
    · intro hnone
      rw [eq_none_iff_forall_ne_some]
      rintro ⟨p, g⟩ hdelivered
      obtain ⟨-, -, -, path, hpath, haddr, hvni, -⟩ := handleWgUdpRelay_eq_some.mp hdelivered
      exact hnone p path hpath ⟨haddr, hvni⟩

/-- Two peers with paths through one server, at one address under two VNIs. -/
def sharedAddress : List Action :=
  [.setNetmap [⟨1, 11⟩, ⟨2, 12⟩, ⟨3, 13⟩], .goOn [], .goOn [], .goOn [], .goOn [1, 2, 3],
    .setRelay 1 11 1 ⟨.v4 9 9, 7, 3, 3⟩, .setRelay 2 12 2 ⟨.v4 9 9, 8, 3, 3⟩]

/-- Two peers behind one relay address. -/
theorem hearsRelay_iff_sharedAddress : ∃ log s,
    (machine false).Run (fun _ _ => True) log s ∧ s.Live 2 (.v4 9 9) 8 ∧
      (s.HearsRelay (.v4 9 9) 8 ↔
        ∀ p, s.Live p (.v4 9 9) 8 → lastRecorded log (.v4 9 9) = some p) := by
  obtain ⟨log, s, run, hgen, hpath, hcurrent⟩ := Machine.exists_run (machine false)
    (fun _ _ => True) sharedAddress
    (fun _ s => s.authorization.generation 2 = some 2 ∧
      s.paths 2 = some (some ⟨.v4 9 9, 8, 3, 3⟩) ∧ s.authorization.isCurrent 3 3 = true)
    (by decide +kernel) (Machine.kept_of_forall (fun _ _ => trivial) _ _ _)
  exact ⟨log, s, run, ⟨by rw [hgen]; rfl, _, hpath, rfl, rfl, hcurrent⟩, hearsRelay_iff run _ _⟩

/-- The first peer's packets are dropped once the second one has its path. -/
theorem sharedAddress_not_heard : ∃ log s,
    (machine false).Run (fun _ _ => True) log s ∧ s.Live 1 (.v4 9 9) 7 ∧
      s.handleWgUdpRelay (.v4 9 9) 7 = none ∧ ¬s.HearsRelay (.v4 9 9) 7 := by
  obtain ⟨log, s, run, hgen, hpath, hcurrent, hnone⟩ := Machine.exists_run (machine false)
    (fun _ _ => True) sharedAddress
    (fun _ s => s.authorization.generation 1 = some 1 ∧
      s.paths 1 = some (some ⟨.v4 9 9, 7, 3, 3⟩) ∧ s.authorization.isCurrent 3 3 = true ∧
      s.handleWgUdpRelay (.v4 9 9) 7 = none)
    (by decide +kernel) (Machine.kept_of_forall (fun _ _ => trivial) _ _ _)
  have hlive : s.Live 1 (.v4 9 9) 7 := ⟨by rw [hgen]; rfl, _, hpath, rfl, rfl, hcurrent⟩
  refine ⟨log, s, run, hlive, hnone, fun h => ?_⟩
  have hdelivered := h.1 1 hlive
  rw [hnone] at hdelivered
  cases hdelivered

end Rustscale.Magicsock
