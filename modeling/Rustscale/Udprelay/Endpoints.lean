import Rustscale.Udprelay.Allocation

/-! Over every run, an endpoint is in the maps until it is closed. -/
namespace Rustscale.Udprelay
open Octets Bytes Disco List RelayEndpoint Udprelay.System

def allocations (log : List Event) : List ((DiscoPublic × DiscoPublic) × ℕ × ℕ) :=
  log.filterMap fun
    | .allocated _ pair vni lamportId => some (pair, vni, lamportId)
    | _ => none

def ClosedAt (endpoints : List RelayEndpoint) (id : ℕ) : Prop :=
  ∃ e, endpoints[id]? = some e ∧ e.inner.closed = true

def AllClosed (endpoints : List RelayEndpoint) : Prop := ∀ e ∈ endpoints, e.inner.closed = true

def Drains (server : Server) : Option Drain → Prop
  | none => True
  | some (.gc _ todo removed) =>
    (∀ x ∈ todo, server.state.endpointsByDisco.lookup x.1 = some x.2) ∧
    Entries server.state server.endpoints removed ∧
    ∀ x ∈ removed, ∀ id, server.state.endpointsByDisco.lookup x.1 = some id →
      ClosedAt server.endpoints id
  | some (.disable todo) => ∀ v id, server.state.endpointsByVni.lookup v = some id →
    id ∈ todo ∨ ClosedAt server.endpoints id
  | some (.close todo) => server.closed = true ∧
    ∀ v id, server.state.endpointsByVni.lookup v = some id →
      id ∈ todo ∨ ClosedAt server.endpoints id

def Draining : Option Drain → Prop
  | some (.disable _) => True
  | some (.close _) => True
  | _ => False

/-- The endpoints agree with the log, also while they are being closed. -/
structure Live (c : ServerInner) (log : List Event) (server : Server) (drain : Option Drain)
    (closing : ℕ) : Prop where
  allocated : Allocated c server.state server.endpoints
  logged : allocations log = server.endpoints.map static
  places : ∀ id pair vni lamportId, .allocated id pair vni lamportId ∈ log →
    ∃ e, server.endpoints[id]? = some e ∧ e.static = (pair, vni, lamportId)
  live : ∀ id e, server.endpoints[id]? = some e → e.inner.closed = false →
    server.state.endpointsByVni.lookup e.vni = some id
  closedLog : ∀ id closer, .closed id closer ∈ log → ClosedAt server.endpoints id
  closedBy : ∀ id, ClosedAt server.endpoints id → ∃ closer, .closed id closer ∈ log
  drains : Drains server drain
  serverClosed : server.state.serverClosed = true → AllClosed server.endpoints ∨ Draining drain
  flag : server.closed = true →
    AllClosed server.endpoints ∨ 0 < closing ∨ ∃ todo, drain = some (.close todo)
  closers : 0 < closing → server.closed = true
  addrPorts : server.state.staticAddrPorts = [c.localAddr] ∨
    .advertised server.state.staticAddrPorts ∈ log

section
variable {c : ServerInner} {log new : List Event} {server server' : Server}
  {drain drain' : Option Drain} {closing : ℕ}

theorem live_start (c : ServerInner) : Live c [] (.new c) none 0 where
  allocated := allocated_nil c
  logged := rfl
  places id pair vni lamportId hmem := by cases hmem
  live id e he := by simp [Server.new] at he
  closedLog id closer hmem := by cases hmem
  closedBy id hid := by simp [ClosedAt, Server.new] at hid
  drains := trivial
  serverClosed hc := by cases hc
  flag hc := by cases hc
  closers hc := by cases hc
  addrPorts := .inl rfl

/-- The parts of an endpoint that decide whether it lives. -/
def RelayEndpoint.shape (e : RelayEndpoint) : ((DiscoPublic × DiscoPublic) × ℕ × ℕ) × Bool :=
  (e.static, e.inner.closed)

variable {endpoints endpoints' : List RelayEndpoint} {id : ℕ} {e : RelayEndpoint} {κ : Type}
  {m : AList fun _ : κ => ℕ} {s s' : System} {now k : ℕ} {todo : List ℕ}

theorem map_shape_set {inner : EndpointInner} (he : endpoints[id]? = some e)
    (hc : inner.closed = e.inner.closed) :
    (endpoints.set id { e with inner }).map shape = endpoints.map shape :=
  map_set_eq he (congrArg (Prod.mk _) hc)

/-- Events that say nothing about which endpoints there are. -/
def Silent (new : List Event) : Prop :=
  (∀ id pair vni lamportId, .allocated id pair vni lamportId ∉ new) ∧
    ∀ id closer, .closed id closer ∉ new

theorem allocations_append (log new : List Event) :
    allocations (log ++ new) = allocations log ++ allocations new := filterMap_append ..

theorem ClosedAt.of_shape (h : endpoints'.map shape = endpoints.map shape) :
    ClosedAt endpoints id → ClosedAt endpoints' id := by
  rintro ⟨e, he, hc⟩
  obtain ⟨e', he', heq⟩ := exists_of_map h he
  exact ⟨e', he', (congrArg Prod.snd heq).trans hc⟩

theorem AllClosed.of_static (h : AllClosed endpoints)
    (hs : endpoints'.map static = endpoints.map static)
    (hc : ∀ id, ClosedAt endpoints id → ClosedAt endpoints' id) : AllClosed endpoints' := by
  intro e he
  obtain ⟨id, hid⟩ := getElem?_of_mem he
  obtain ⟨x, hx, -⟩ := exists_of_map hs.symm hid
  obtain ⟨e', he', hc'⟩ := hc id ⟨x, hx, h x (mem_of_getElem? hx)⟩
  rwa [Option.mem_unique hid he']

theorem Entries.of_static {removed} (h : Entries server.state server.endpoints removed)
    (hd : server'.state.endpointsByDisco = server.state.endpointsByDisco)
    (hs : server'.endpoints.map static = server.endpoints.map static) :
    Entries server'.state server'.endpoints removed := by
  intro x hx
  obtain ⟨id, e, hid, he, hev⟩ := h x hx
  obtain ⟨e', he', heq⟩ := exists_of_map hs he
  exact ⟨id, e', hd ▸ hid, he', (congrArg (·.2.1) heq).trans hev⟩

/-- The endpoints stay in place, and the new events say which of them are closed. -/
theorem Live.change (h : Live c log server drain closing) {closing' : ℕ}
    (hmaps : SameMaps server.state server'.state)
    (ha : server'.state.staticAddrPorts = server.state.staticAddrPorts)
    (hnew : ∀ id pair vni lamportId, .allocated id pair vni lamportId ∉ new)
    (hstatic : server'.endpoints.map static = server.endpoints.map static)
    (hclosed : ∀ id, ClosedAt server'.endpoints id ↔
      (∃ closer, .closed id closer ∈ new) ∨ ClosedAt server.endpoints id)
    (hdrain : Drains server' drain')
    (hsc : server'.state.serverClosed = true → AllClosed server.endpoints ∨ Draining drain')
    (hflag : server'.closed = true →
      AllClosed server.endpoints ∨ 0 < closing' ∨ ∃ todo, drain' = some (.close todo))
    (hcl : 0 < closing' → server'.closed = true) :
    Live c (log ++ new) server' drain' closing' := by
  have hkeep {id : ℕ} {e e' : RelayEndpoint} (he : server.endpoints[id]? = some e)
      (he' : server'.endpoints[id]? = some e') (hc : e.inner.closed = true) :
      e'.inner.closed = true := by
    obtain ⟨x, hx, hxc⟩ := (hclosed id).mpr (.inr ⟨e, he, hc⟩)
    rwa [Option.mem_unique he' hx]
  have hall : AllClosed server.endpoints → AllClosed server'.endpoints :=
    fun hall => hall.of_static hstatic fun id hid => (hclosed id).mpr (.inr hid)
  refine ⟨(h.allocated.of_state hmaps).of_static hstatic, ?_, ?_, ?_, ?_, ?_, hdrain,
    fun hs => (hsc hs).imp_left hall, fun hs => (hflag hs).imp_left hall, hcl, ?_⟩
  · have hnil : allocations new = [] := by
      rw [allocations, filterMap_eq_nil_iff]
      intro e he
      cases e with
      | allocated id pair vni lamportId => exact absurd he (hnew id pair vni lamportId)
      | _ => rfl
    rw [allocations_append, hnil, append_nil, h.logged, hstatic]
  · intro id pair vni lamportId hmem
    rcases mem_append.mp hmem with hmem | hmem
    · obtain ⟨e, he, hes⟩ := h.places id pair vni lamportId hmem
      obtain ⟨e', he', heq⟩ := exists_of_map hstatic he
      exact ⟨e', he', heq.trans hes⟩
    · exact absurd hmem (hnew id pair vni lamportId)
  · intro id e he hc
    obtain ⟨x, hx, hxe⟩ := exists_of_map hstatic.symm he
    have hst : x.vni = e.vni := congrArg (·.2.1) hxe
    rw [← hst, hmaps.byVni]
    refine h.live id x hx (Bool.eq_false_iff.mpr fun hxc => ?_)
    simp [hkeep hx he hxc] at hc
  · intro id closer hmem
    rw [hclosed]
    exact (mem_append.mp hmem).symm.imp (⟨closer, ·⟩) (h.closedLog id closer)
  · intro id hid
    rcases (hclosed id).mp hid with ⟨closer, hmem⟩ | hid
    · exact ⟨closer, mem_append_right _ hmem⟩
    · exact (h.closedBy id hid).imp fun _ => mem_append_left _
  · rw [ha]
    exact h.addrPorts.imp_right (mem_append_left _)

/-- Only the maps, the flags and the shapes of the endpoints matter. -/
theorem Live.frame (h : Live c log server drain closing) (hnew : Silent new)
    (hmaps : SameMaps server.state server'.state)
    (hsc : server'.state.serverClosed = server.state.serverClosed)
    (hc : server'.closed = server.closed)
    (ha : server'.state.staticAddrPorts = server.state.staticAddrPorts)
    (hs : server'.endpoints.map shape = server.endpoints.map shape) :
    Live c (log ++ new) server' drain closing := by
  have hstatic : server'.endpoints.map static = server.endpoints.map static := by
    have := congrArg (map Prod.fst) hs
    rwa [map_map, map_map] at this
  have hclosed : ∀ id, ClosedAt server'.endpoints id ↔ ClosedAt server.endpoints id :=
    fun id => ⟨.of_shape hs.symm, .of_shape hs⟩
  refine h.change hmaps ha hnew.1 hstatic (fun id => ?_) ?_ (hsc ▸ h.serverClosed) (hc ▸ h.flag)
    (hc ▸ h.closers)
  · simp [hclosed, hnew.2]
  · have hdr := h.drains
    match drain, hdr with
    | none, _ => trivial
    | some (.gc _ todo removed), ⟨htodo, hent, hcl⟩ =>
      refine ⟨hmaps.byDisco ▸ htodo, hent.of_static hmaps.byDisco hstatic, fun x hx id hid => ?_⟩
      exact (hclosed id).mpr (hcl x hx id (hmaps.byDisco ▸ hid))
    | some (.disable todo), hdr =>
      intro v id hid
      rw [hclosed]
      exact hdr v id (hmaps.byVni ▸ hid)
    | some (.close todo), ⟨hcl, hdr⟩ =>
      refine ⟨hc ▸ hcl, fun v id hid => ?_⟩
      rw [hclosed]
      exact hdr v id (hmaps.byVni ▸ hid)

theorem Live.of_drain (h : Live c log server drain closing) {closing' : ℕ}
    (hmaps : SameMaps server.state server'.state)
    (ha : server'.state.staticAddrPorts = server.state.staticAddrPorts)
    (he : server'.endpoints = server.endpoints) (hdrain : Drains server' drain')
    (hsc : server'.state.serverClosed = true → AllClosed server.endpoints ∨ Draining drain')
    (hflag : server'.closed = true →
      AllClosed server.endpoints ∨ 0 < closing' ∨ ∃ todo, drain' = some (.close todo))
    (hcl : 0 < closing' → server'.closed = true) : Live c log server' drain' closing' := by
  rw [← append_nil log]
  exact h.change hmaps ha (by simp) (by rw [he]) (by simp [he]) hdrain hsc hflag hcl

theorem mem_todo {κ : Type} [DecidableEq κ] {m : AList fun _ : κ => ℕ} {v : κ}
    (h : m.lookup v = some id) : id ∈ m.entries.map (·.2) :=
  mem_map.mpr ⟨⟨v, id⟩, AList.mem_lookup_iff.mp h, rfl⟩

/-- Taking the lock for a removal closes no endpoint yet. -/
theorem Live.lock (h : Live c log s.server s.drain s.closing) (hd : s.drain = none)
    (hl : Locks s s') : Live c log s'.server s'.drain s'.closing := by
  have hsc := h.serverClosed
  have hflag := h.flag
  rw [hd] at hsc hflag
  have hnone : ¬∃ todo, (none : Option Drain) = some (.close todo) := by simp
  cases hl with
  | gc now =>
    refine h.of_drain ⟨rfl, rfl, rfl, rfl⟩ rfl rfl ⟨?_, ?_, ?_⟩ ?_ ?_ h.closers
    · intro x hx
      obtain ⟨y, hy, rfl⟩ := mem_map.mp hx
      exact AList.mem_lookup_iff.mpr hy
    · nofun
    · nofun
    · exact fun hs => .inl ((hsc hs).resolve_right id)
    · exact fun hs => (hflag hs).imp_right fun h => .inl (h.resolve_right hnone)
  | disable hw =>
    refine h.of_drain ⟨rfl, rfl, rfl, rfl⟩ rfl rfl (fun v id hid => .inl (mem_todo hid))
      (fun _ => .inr trivial) ?_ h.closers
    exact fun hs => (hflag hs).imp_right fun h => .inl (h.resolve_right hnone)
  | close hc =>
    refine h.of_drain ⟨rfl, rfl, rfl, rfl⟩ rfl rfl
      ⟨h.closers hc, fun v id hid => .inl (mem_todo hid)⟩ (fun _ => .inr trivial)
      (fun _ => .inr (.inr ⟨_, rfl⟩)) fun _ => h.closers hc

theorem Live.flags (h : Live c log s.server s.drain s.closing) (hf : Flags s s') :
    Live c log s'.server s'.drain s'.closing := by
  cases hf with
  | disableGate | disableDone | enableTest => exact h
  | closeStore =>
    refine h.of_drain ⟨rfl, rfl, rfl, rfl⟩ rfl rfl ?_ h.serverClosed
      (fun _ => .inr (.inl (Nat.succ_pos _))) fun _ => rfl
    have hdr := h.drains
    match s.drain, hdr with
    | none, _ => trivial
    | some (.gc _ todo removed), hdr => exact hdr
    | some (.disable todo), hdr => exact hdr
    | some (.close todo), ⟨_, hdr⟩ => exact ⟨rfl, hdr⟩
  | enableStore hd =>
    refine h.of_drain ⟨rfl, rfl, rfl, rfl⟩ rfl rfl ?_ nofun h.flag h.closers
    change Drains _ s.drain
    rw [hd]
    trivial

theorem Live.skip {todo removed : List ((DiscoPublic × DiscoPublic) × ℕ)}
    (h : Live c log server (some (.gc now todo removed)) closing) :
    Live c log server (some (.gc now (todo.eraseIdx k) removed)) closing := by
  obtain ⟨htodo, hrest⟩ := h.drains
  refine h.of_drain ⟨rfl, rfl, rfl, rfl⟩ rfl rfl
    ⟨fun x hx => htodo x (mem_of_mem_eraseIdx hx), hrest⟩ ?_ ?_ h.closers
  · exact fun hs => .inl ((h.serverClosed hs).resolve_right id)
  · exact fun hs => (h.flag hs).imp_right fun h => .inl (h.resolve_right (by simp))

theorem closedAt_set (he : endpoints[id]? = some e) (id' : ℕ) :
    ClosedAt (endpoints.set id { e with inner := { e.inner with closed := true } }) id' ↔
      id' = id ∨ ClosedAt endpoints id' := by
  obtain ⟨hlt, rfl⟩ := List.getElem?_eq_some_iff.mp he
  by_cases hid : id = id'
  · subst hid
    simp [ClosedAt, hlt]
  · simp [ClosedAt, getElem?_set_ne hid, Ne.symm hid]

theorem mem_or_of_eraseIdx {id' : ℕ} {P : Prop} (hk : todo[k]? = some id) (h : id' ∈ todo ∨ P) :
    id' ∈ todo.eraseIdx k ∨ id' = id ∨ P := by
  rcases h with hmem | hp
  · by_cases hne : id' = id
    · exact .inr (.inl hne)
    · refine .inl (mem_eraseIdx_iff_getElem?.mpr ?_)
      obtain ⟨j, hj⟩ := getElem?_of_mem hmem
      refine ⟨j, ?_, hj⟩
      rintro rfl
      exact hne (Option.mem_unique hj hk)
  · exact .inr (.inr hp)

/-- Closing the visited endpoint, with the event that says for whom. -/
theorem Live.visit {closer : Closer} {d : Drain} (h : Live c log s.server s.drain s.closing)
    (hv : Visits c s id closer d) (he : s.server.endpoints[id]? = some e) :
    Live c (log ++ [.closed id closer])
      ({ s with drain := some d }.withInner id e { e.inner with closed := true }).server
      (some d) s.closing := by
  have hstatic : (s.server.endpoints.set id { e with inner := { e.inner with closed := true } }).map
      static = _ := map_set_eq he rfl
  have hclosed := closedAt_set he
  refine h.change ⟨rfl, rfl, rfl, rfl⟩ rfl (by simp) hstatic (fun id' => ?_) ?_ ?_ ?_ h.closers
  · refine (hclosed id').trans (or_congr_left ?_)
    simp
  · have hdr := h.drains
    cases hv with
    | gc now k id e' pair todo removed hd hk he' =>
      rw [hd] at hdr
      obtain ⟨htodo, hent, hcl⟩ := hdr
      have hpair := htodo _ (mem_of_getElem? hk)
      refine ⟨fun x hx => htodo x (mem_of_mem_eraseIdx hx), ?_, ?_⟩
      · have hent : Entries s.server.state s.server.endpoints (removed ++ [(pair, e'.vni)]) :=
          forall_mem_append.mpr ⟨hent, forall_mem_singleton.mpr ⟨id, e', hpair, he', rfl⟩⟩
        exact hent.of_static rfl hstatic
      · intro x hx id' hid
        refine (hclosed id').mpr ?_
        rcases mem_append.mp hx with hx | hx
        · exact .inr (hcl x hx id' hid)
        · rw [mem_singleton.mp hx] at hid
          exact .inl (Option.mem_unique hid hpair)
    | disable k id todo hd hk =>
      rw [hd] at hdr
      exact fun v id' hid => (mem_or_of_eraseIdx hk (hdr v id' hid)).imp_right (hclosed id').mpr
    | close k id todo hd hk =>
      rw [hd] at hdr
      exact ⟨hdr.1, fun v id' hid =>
        (mem_or_of_eraseIdx hk (hdr.2 v id' hid)).imp_right (hclosed id').mpr⟩
  · intro hs
    have hsc := h.serverClosed hs
    cases hv with
    | gc now k id e' pair todo removed hd hk he' =>
      rw [hd] at hsc
      exact .inl (hsc.resolve_right not_false)
    | disable | close => exact .inr trivial
  · intro hs
    have hflag := h.flag hs
    cases hv with
    | gc now k id e' pair todo removed hd hk he' | disable k id todo hd hk =>
      rw [hd] at hflag
      exact hflag.imp_right fun h => .inl (h.resolve_right (by simp))
    | close => exact .inr (.inr ⟨_, rfl⟩)

theorem allClosed_of_closedAt
    (h : ∀ id e, endpoints[id]? = some e → e.inner.closed = false → ClosedAt endpoints id) :
    AllClosed endpoints := by
  intro e he
  obtain ⟨id, hid⟩ := getElem?_of_mem he
  by_contra hc
  obtain ⟨e', he', hc'⟩ := h id e hid (by simpa using hc)
  obtain rfl := Option.mem_unique hid he'
  exact hc hc'

theorem Live.drained (h : Live c log server drain closing) (hempty : todo = [])
    (hdr : ∀ v id, server.state.endpointsByVni.lookup v = some id →
      id ∈ todo ∨ ClosedAt server.endpoints id) : AllClosed server.endpoints := by
  refine allClosed_of_closedAt fun id e he hc => ?_
  refine (hdr e.vni id (h.live id e he hc)).resolve_left ?_
  simp [hempty]

theorem Live.cleared {state : ServerState} (h : Live c log server drain closing)
    (hall : AllClosed server.endpoints)
    (hv : state.endpointsByVni = ∅) (hd : state.endpointsByDisco = ∅)
    (hn : state.nextVni = server.state.nextVni) (hl : state.lamportId = server.state.lamportId)
    (ha : state.staticAddrPorts = server.state.staticAddrPorts) :
    Live c log { server with state } none closing where
  allocated := h.allocated.cleared.of_state ⟨hv, hd, hn, hl⟩
  logged := h.logged
  places := h.places
  live id e he hc := by
    have := hall e (mem_of_getElem? he)
    simp [hc] at this
  closedLog := h.closedLog
  closedBy := h.closedBy
  drains := trivial
  serverClosed _ := .inl hall
  flag _ := .inl hall
  closers := h.closers
  addrPorts := by
    dsimp only
    rw [ha]
    exact h.addrPorts

/-- The end of a removal takes the closed endpoints out of the tables. -/
theorem Live.finish (h : Live c log s.server s.drain s.closing) (hf : Finishes s s') :
    Live c log s'.server s'.drain s'.closing := by
  have hdr := h.drains
  cases hf with
  | gc now removed hd =>
    rw [hd] at hdr
    obtain ⟨-, hent, hcl⟩ := hdr
    obtain ⟨byVni, byDisco, heq⟩ := removeAll_rest removed s.server.state
    have hsc := h.serverClosed
    have hflag := h.flag
    rw [hd] at hsc hflag
    have hlive : ∀ id e, s.server.endpoints[id]? = some e → e.inner.closed = false →
        (removeAll s.server.state removed).endpointsByVni.lookup e.vni = some id := by
      intro id e he hc
      have hv := h.live id e he hc
      obtain ⟨e', he', -, hdisco⟩ := h.allocated.byVni _ _ hv
      obtain rfl := Option.mem_unique he he'
      rw [(lookup_removeAll removed s.server.state).2, if_neg, hv]
      -- an endpoint that was removed is closed
      rw [← h.allocated.mem_removed_iff hent he hdisco]
      intro hmem
      obtain ⟨x, hx, hxe⟩ := mem_map.mp hmem
      obtain ⟨e1, he1, hc1⟩ := hcl x hx id (hxe ▸ hdisco)
      obtain rfl := Option.mem_unique he he1
      simp [hc] at hc1
    refine ⟨h.allocated.removeAll hent, h.logged, h.places, hlive, h.closedLog, h.closedBy,
      trivial, ?_, ?_, h.closers, ?_⟩
    · change (removeAll s.server.state removed).serverClosed = true → _
      rw [heq]
      exact fun hs => .inl ((hsc hs).resolve_right fun h => h)
    · exact fun hs => (hflag hs).imp_right fun h => .inl (h.resolve_right (by simp))
    · change (removeAll s.server.state removed).staticAddrPorts = _ ∨
        .advertised (removeAll s.server.state removed).staticAddrPorts ∈ log
      rw [heq]
      exact h.addrPorts
  | disable hd =>
    rw [hd] at hdr
    exact h.cleared (h.drained rfl hdr) rfl rfl rfl rfl rfl
  | close hd =>
    rw [hd] at hdr
    exact h.cleared (h.drained rfl hdr.2) rfl rfl rfl rfl rfl

theorem getElem?_concat_cases {x : RelayEndpoint} (he : (endpoints ++ [x])[id]? = some e) :
    endpoints[id]? = some e ∨ id = endpoints.length ∧ e = x := by
  rcases lt_trichotomy id endpoints.length with hlt | rfl | hgt
  · rw [getElem?_append_left hlt] at he
    exact .inl he
  · simp only [getElem?_concat_length, Option.some.injEq] at he
    exact .inr ⟨rfl, he.symm⟩
  · have := (List.getElem?_eq_some_iff.mp he).1
    simp at this
    omega

/-- An allocation adds at most one live endpoint, and only while the server is open. -/
theorem Live.allocate {server : Server} {pair : DiscoPublic × DiscoPublic}
    {r : Except UdprelayError ServerEndpoint} (h : Live c log s.server s.drain s.closing)
    (hd : s.drain = none) (hp : pair.1 ≤ pair.2)
    (hc : r.isOk → pair.1 ≠ c.discoPublic ∧ pair.2 ≠ c.discoPublic)
    (hopen : r.isOk → s.server.closed = false ∧ s.server.state.serverClosed = false)
    (ha : Allocates c s.server pair now r server) :
    Live c (log ++ told s.server server r) server s.drain s.closing := by
  have halloc := ha.allocated hp hc h.allocated
  cases ha with
  | refused | existing =>
    simpa [told] using h
  | exhausted cursor _ _ hs =>
    rw [told, append_nil]
    obtain ⟨-, h2, h3, h4, h5, h6, -, h8, h9, h10, h11⟩ := h
    refine ⟨halloc, h2, h3, h4, h5, h6, ?_, h8, h9, h10, h11⟩
    rw [hd]
    trivial
  | fresh vni cursor hfresh _ hs hcounter endpoint htold =>
    obtain ⟨hpair, hvni, hlamport⟩ : endpoint.clientDisco = pair ∧ endpoint.vni = vni ∧
        endpoint.lamportId = s.server.state.lamportId + 1 := by simpa using htold
    have hnone : s.server.state.endpointsByVni.lookup vni = none := by
      simpa using searchVni_eq_some _ _ hs
    simp only [told, length_append, length_singleton, Nat.lt_add_one, if_true, hpair, hvni,
      hlamport]
    have hold : ∀ {id : ℕ} {e : RelayEndpoint}, s.server.endpoints[id]? = some e →
        (s.server.endpoints ++
          [⟨pair, s.server.state.lamportId + 1, vni, now, .new now⟩])[id]? = some e :=
      fun he => List.getElem?_append_left (List.getElem?_eq_some_iff.mp he).1 ▸ he
    refine ⟨halloc, ?_, ?_, ?_, ?_, ?_, ?_, ?_, ?_, h.closers, ?_⟩
    · rw [allocations_append, h.logged, map_append]
      rfl
    · intro id p v l hmem
      rcases mem_append.mp hmem with hmem | hmem
      · obtain ⟨e, he, hes⟩ := h.places id p v l hmem
        exact ⟨e, hold he, hes⟩
      · simp only [mem_singleton, Event.allocated.injEq] at hmem
        obtain ⟨rfl, rfl, rfl, rfl⟩ := hmem
        exact ⟨_, getElem?_concat_length, rfl⟩
    · intro id e he hcl
      rcases getElem?_concat_cases he with he | ⟨rfl, rfl⟩
      · have hv := h.live id e he hcl
        refine (AList.lookup_insert_ne ?_).trans hv
        intro heq
        rw [heq, hnone] at hv
        cases hv
      · exact AList.lookup_insert _
    · intro id closer hmem
      obtain ⟨e, he, hcl⟩ := h.closedLog id closer (by simpa using hmem)
      exact ⟨e, hold he, hcl⟩
    · rintro id ⟨e, he, hcl⟩
      rcases getElem?_concat_cases he with he | ⟨rfl, rfl⟩
      · obtain ⟨closer, hmem⟩ := h.closedBy id ⟨e, he, hcl⟩
        exact ⟨closer, mem_append_left _ hmem⟩
      · cases hcl
    · rw [hd]
      trivial
    · intro hsc
      exact absurd hsc (by simp [(hopen rfl).2])
    · intro hcl
      exact absurd hcl (by simp [(hopen rfl).1])
    · exact h.addrPorts.imp_right (mem_append_left _)

end

end Rustscale.Udprelay
