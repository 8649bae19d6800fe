import Rustscale.Udprelay.Steps

/-! The two maps of endpoints agree, numbers are in range and never shared, and the counter only
grows. -/
namespace Rustscale.Udprelay
open Octets Bytes Disco List AList RelayEndpoint Nat Server

section
variable {used : ℕ → Bool} {minVni maxVni : ℕ}

theorem followingVni_eq (h : minVni ≤ maxVni) (k : ℕ) :
    followingVni minVni maxVni (minVni + k % (maxVni - minVni + 1)) =
      minVni + (k + 1) % (maxVni - minVni + 1) := by
  have hlt := mod_lt k (succ_pos (maxVni - minVni))
  rw [succ_eq_add_one] at hlt
  rw [followingVni, ← mod_add_mod k]
  split_ifs with heq
  · rw [show k % (maxVni - minVni + 1) + 1 = maxVni - minVni + 1 by omega, mod_self]
    rfl
  · rw [mod_eq_of_lt (show k % (maxVni - minVni + 1) + 1 < maxVni - minVni + 1 by omega)]
    rfl

theorem searchVni_eq_none (h : minVni ≤ maxVni) : ∀ (n k : ℕ) {cursor : ℕ},
    searchVni used minVni maxVni n (minVni + k % (maxVni - minVni + 1)) = (none, cursor) →
      ∀ i < n, used (minVni + (k + i) % (maxVni - minVni + 1)) = true
  | 0, _, _, _, i, hi => absurd hi (not_lt_zero i)
  | n + 1, k, cursor, hs, i, hi => by
    rw [searchVni] at hs
    split_ifs at hs with hu
    · rw [followingVni_eq h] at hs
      rcases i with - | i
      · exact hu
      · have := searchVni_eq_none h n (k + 1) hs i (by omega)
        rwa [show k + 1 + i = k + (i + 1) by omega] at this
    · simp at hs

theorem searchVni_full (h : minVni ≤ maxVni) {start cursor : ℕ} (hmin : minVni ≤ start)
    (hmax : start ≤ maxVni)
    (hs : searchVni used minVni maxVni (maxVni - minVni + 1) start = (none, cursor)) {vni : ℕ}
    (hv : minVni ≤ vni) (hv' : vni ≤ maxVni) : used vni = true := by
  have hstart : start = minVni + (start - minVni) % (maxVni - minVni + 1) := by
    rw [mod_eq_of_lt (by omega)]
    omega
  rw [hstart] at hs
  have hall := searchVni_eq_none h _ _ hs
  by_cases hle : start ≤ vni
  · have := hall (vni - start) (by omega)
    rwa [mod_eq_of_lt (by omega), show minVni + (start - minVni + (vni - start)) = vni by omega]
      at this
  · have := hall (maxVni - minVni + 1 + vni - start) (by omega)
    rwa [show start - minVni + (maxVni - minVni + 1 + vni - start) =
      vni - minVni + (maxVni - minVni + 1) by omega, add_mod_right, mod_eq_of_lt (by omega),
      show minVni + (vni - minVni) = vni by omega] at this

theorem searchVni_eq_some : ∀ (n start : ℕ) {vni cursor : ℕ},
    searchVni used minVni maxVni n start = (some vni, cursor) → used vni = false
  | 0, start, vni, cursor, hs => by simp [searchVni] at hs
  | n + 1, start, vni, cursor, hs => by
    rw [searchVni] at hs
    split_ifs at hs with hu
    · exact searchVni_eq_some n _ hs
    · obtain ⟨rfl, -⟩ := by simpa using hs
      simpa using hu

theorem followingVni_mem (h : minVni ≤ maxVni) {vni : ℕ} (hmin : minVni ≤ vni)
    (hmax : vni ≤ maxVni) : minVni ≤ followingVni minVni maxVni vni ∧
      followingVni minVni maxVni vni ≤ maxVni := by
  unfold followingVni
  split_ifs <;> omega

theorem searchVni_mem (h : minVni ≤ maxVni) : ∀ (n start : ℕ), minVni ≤ start → start ≤ maxVni →
    ∀ {vni : Option ℕ} {cursor : ℕ}, searchVni used minVni maxVni n start = (vni, cursor) →
      (minVni ≤ cursor ∧ cursor ≤ maxVni) ∧ ∀ v, vni = some v → minVni ≤ v ∧ v ≤ maxVni
  | 0, start, hmin, hmax, vni, cursor, hs => by
    obtain ⟨rfl, rfl⟩ := by simpa [searchVni] using hs
    exact ⟨⟨hmin, hmax⟩, by simp⟩
  | n + 1, start, hmin, hmax, vni, cursor, hs => by
    have hf := followingVni_mem h hmin hmax
    rw [searchVni] at hs
    split_ifs at hs with hu
    · exact searchVni_mem h n _ hf.1 hf.2 hs
    · obtain ⟨rfl, rfl⟩ := by simpa using hs
      exact ⟨hf, fun v hv => Option.some.inj hv ▸ ⟨hmin, hmax⟩⟩

end

theorem sortedPair_comm (a b : DiscoPublic) : sortedPair a b = sortedPair b a := by
  unfold sortedPair
  split_ifs with h h' h'
  · rw [BitVec.le_antisymm h h']
  · rfl
  · rfl
  · exact absurd (BitVec.le_of_lt (BitVec.not_le.mp h)) h'

theorem sortedPair_fst_le (a b : DiscoPublic) : (sortedPair a b).1 ≤ (sortedPair a b).2 := by
  unfold sortedPair
  split_ifs with h
  · exact h
  · exact BitVec.le_of_lt (BitVec.not_le.mp h)

theorem mem_sortedPair (a b : DiscoPublic) {P : DiscoPublic → Prop} (ha : P a) (hb : P b) :
    P (sortedPair a b).1 ∧ P (sortedPair a b).2 := by
  unfold sortedPair
  split_ifs
  · exact ⟨ha, hb⟩
  · exact ⟨hb, ha⟩

/-- Both maps lead to the same endpoints, each under its own keys. -/
structure Allocated (c : ServerInner) (state : ServerState) (endpoints : List RelayEndpoint) :
    Prop where
  byVni : ∀ v id, state.endpointsByVni.lookup v = some id → ∃ e, endpoints[id]? = some e ∧
    e.vni = v ∧ state.endpointsByDisco.lookup e.discoPubKeys = some id
  byDisco : ∀ p id, state.endpointsByDisco.lookup p = some id → ∃ e, endpoints[id]? = some e ∧
    e.discoPubKeys = p ∧ state.endpointsByVni.lookup e.vni = some id
  inRange : ∀ v id, state.endpointsByVni.lookup v = some id → c.minVni ≤ v ∧ v ≤ c.maxVni
  sorted : ∀ e ∈ endpoints, e.discoPubKeys.1 ≤ e.discoPubKeys.2
  clients : ∀ e ∈ endpoints,
    e.discoPubKeys.1 ≠ c.discoPublic ∧ e.discoPubKeys.2 ≠ c.discoPublic
  cursor : c.minVni ≤ c.maxVni → c.minVni ≤ state.nextVni ∧ state.nextVni ≤ c.maxVni
  lamport : (endpoints.map (·.lamportId)).Pairwise (· < ·)
  counter : ∀ e ∈ endpoints, e.lamportId ≤ state.lamportId

section
variable {c : ServerInner} {state state' : ServerState} {endpoints : List RelayEndpoint}

theorem allocated_nil (c : ServerInner) : Allocated c (new c).state (new c).endpoints where
  byVni v id h := by cases h
  byDisco p id h := by cases h
  inRange v id h := by cases h
  sorted e he := by cases he
  clients e he := by cases he
  cursor hle := ⟨le_rfl, hle⟩
  lamport := .nil
  counter e he := by cases he

/-- Nothing is allocated or removed. -/
structure SameMaps (state state' : ServerState) : Prop where
  byVni : state'.endpointsByVni = state.endpointsByVni
  byDisco : state'.endpointsByDisco = state.endpointsByDisco
  nextVni : state'.nextVni = state.nextVni
  lamportId : state'.lamportId = state.lamportId

theorem Allocated.of_state (h : Allocated c state endpoints) (hs : SameMaps state state') :
    Allocated c state' endpoints := by
  obtain ⟨hv, hd, hn, hl⟩ := hs
  refine ⟨?_, ?_, ?_, h.sorted, h.clients, ?_, h.lamport, ?_⟩
  · rw [hv, hd]
    exact h.byVni
  · rw [hv, hd]
    exact h.byDisco
  · rw [hv]
    exact h.inRange
  · rw [hn]
    exact h.cursor
  · rw [hl]
    exact h.counter

/-- The part of an endpoint that never changes. -/
def RelayEndpoint.static (e : RelayEndpoint) : (DiscoPublic × DiscoPublic) × ℕ × ℕ :=
  (e.discoPubKeys, e.vni, e.lamportId)

variable {id : ℕ} {e : RelayEndpoint} {endpoints' : List RelayEndpoint} {s : Server}
  {discoA discoB : DiscoPublic} {now : ℕ} {s' : Server} {r : Except UdprelayError ServerEndpoint}
  {removed : List ((DiscoPublic × DiscoPublic) × ℕ)}

section
variable {β : Type} {f : RelayEndpoint → β} {e' : RelayEndpoint}

theorem map_set_eq (he : endpoints[id]? = some e) (h : f e' = f e) :
    (endpoints.set id e').map f = endpoints.map f := by
  obtain ⟨hlt, rfl⟩ := List.getElem?_eq_some_iff.mp he
  rw [map_set, h]
  exact (congrArg _ (getElem_map f).symm).trans (set_getElem_self (by rwa [length_map]))

theorem exists_of_map (h : endpoints'.map f = endpoints.map f) (he : endpoints[id]? = some e) :
    ∃ e', endpoints'[id]? = some e' ∧ f e' = f e := by
  have hs : (endpoints'.map f)[id]? = some (f e) := by
    rw [h, getElem?_map, he]
    rfl
  rw [getElem?_map, Option.map_eq_some_iff] at hs
  exact hs

theorem exists_mem_of_map (h : endpoints'.map f = endpoints.map f) (he : e' ∈ endpoints') :
    ∃ e ∈ endpoints, f e = f e' := by
  obtain ⟨id, hid⟩ := getElem?_of_mem he
  obtain ⟨e, he, heq⟩ := exists_of_map h.symm hid
  exact ⟨e, mem_of_getElem? he, heq⟩

end

/-- The allocation invariant reads the endpoints' static parts only. -/
theorem Allocated.of_static (h : Allocated c state endpoints)
    (hs : endpoints'.map static = endpoints.map static) :
    Allocated c state endpoints' := by
  have hkeys : ∀ {e e' : RelayEndpoint}, e'.static = e.static → e'.discoPubKeys = e.discoPubKeys ∧
      e'.vni = e.vni ∧ e'.lamportId = e.lamportId := by
    intro e e' heq
    simpa [static] using heq
  refine ⟨?_, ?_, h.inRange, ?_, ?_, h.cursor, ?_, ?_⟩
  · intro v id hv
    obtain ⟨e, he, rfl, hd⟩ := h.byVni v id hv
    obtain ⟨e', he', heq⟩ := exists_of_map hs he
    obtain ⟨h1, h2, -⟩ := hkeys heq
    exact ⟨e', he', h2, h1 ▸ hd⟩
  · intro p id hp
    obtain ⟨e, he, rfl, hv⟩ := h.byDisco p id hp
    obtain ⟨e', he', heq⟩ := exists_of_map hs he
    obtain ⟨h1, h2, -⟩ := hkeys heq
    exact ⟨e', he', h1, h2 ▸ hv⟩
  · intro e' he'
    obtain ⟨e, he, heq⟩ := exists_mem_of_map hs he'
    rw [← (hkeys heq).1]
    exact h.sorted e he
  · intro e' he'
    obtain ⟨e, he, heq⟩ := exists_mem_of_map hs he'
    rw [← (hkeys heq).1]
    exact h.clients e he
  · have hl : ∀ l : List RelayEndpoint,
        l.map (·.lamportId) = (l.map static).map (·.2.2) := by
      intro l
      rw [map_map]
      rfl
    rw [hl, hs, ← hl]
    exact h.lamport
  · intro e' he'
    obtain ⟨e, he, heq⟩ := exists_mem_of_map hs he'
    rw [← (hkeys heq).2.2]
    exact h.counter e he

theorem Allocated.vni_inj (h : Allocated c state endpoints) {p q : DiscoPublic × DiscoPublic}
    {id' : ℕ} {e' : RelayEndpoint} (hp : state.endpointsByDisco.lookup p = some id)
    (hq : state.endpointsByDisco.lookup q = some id') (he : endpoints[id]? = some e)
    (he' : endpoints[id']? = some e') (hv : e.vni = e'.vni) : id = id' := by
  obtain ⟨e1, he1, -, h1⟩ := h.byDisco p id hp
  obtain ⟨e2, he2, -, h2⟩ := h.byDisco q id' hq
  obtain rfl := Option.mem_unique he he1
  obtain rfl := Option.mem_unique he' he2
  rw [hv] at h1
  exact Option.mem_unique h1 h2

/-- What an allocation does: it refuses, finds an endpoint, or makes a new one. -/
inductive Allocates (c : ServerInner) (s : Server) (pair : DiscoPublic × DiscoPublic) (now : ℕ) :
    Except UdprelayError ServerEndpoint → Server → Prop
  | refused (err : UdprelayError) (other : err ≠ .vniExhausted) : Allocates c s pair now (.error err) s
  | existing (id : ℕ) (e : RelayEndpoint) (found : s.state.endpointsByDisco.lookup pair = some id)
      (place : s.endpoints[id]? = some e) :
      Allocates c s pair now (.ok (describe c s.state pair e.lamportId e.vni)) s
  | exhausted (cursor : ℕ) (fresh : s.state.endpointsByDisco.lookup pair = none)
      (range : c.minVni ≤ c.maxVni)
      (search : searchVni (fun v => (s.state.endpointsByVni.lookup v).isSome) c.minVni c.maxVni
        (c.maxVni - c.minVni + 1) s.state.nextVni = (none, cursor)) :
      Allocates c s pair now (.error .vniExhausted)
        { s with state := { s.state with nextVni := cursor } }
  | fresh (vni cursor : ℕ) (fresh : s.state.endpointsByDisco.lookup pair = none)
      (range : c.minVni ≤ c.maxVni)
      (search : searchVni (fun v => (s.state.endpointsByVni.lookup v).isSome) c.minVni c.maxVni
        (c.maxVni - c.minVni + 1) s.state.nextVni = (some vni, cursor))
      (counter : s.state.lamportId + 1 < 2 ^ 64) (endpoint : ServerEndpoint)
      (told : (endpoint.clientDisco, endpoint.vni, endpoint.lamportId) =
        (pair, vni, s.state.lamportId + 1)) :
      Allocates c s pair now (.ok endpoint)
        { s with
          state := { s.state with
            nextVni := cursor
            lamportId := s.state.lamportId + 1
            endpointsByDisco := s.state.endpointsByDisco.insert pair s.endpoints.length
            endpointsByVni := s.state.endpointsByVni.insert vni s.endpoints.length }
          endpoints := s.endpoints ++ [⟨pair, s.state.lamportId + 1, vni, now, .new now⟩] }

/-- A server that can allocate for two clients. -/
structure Ready (c : ServerInner) (s : Server) (discoA discoB : DiscoPublic) : Prop where
  serverClosed : s.state.serverClosed = false
  closed : s.closed = false
  addrPorts : getAllAddrPorts s.state ≠ []
  clients : discoA ≠ c.discoPublic ∧ discoB ≠ c.discoPublic

theorem ready_or {r : Except UdprelayError ServerEndpoint × Server}
    (h : s.allocateEndpoint c discoA discoB now = some r) :
    Ready c s discoA discoB ∨ ∃ err, err ≠ .vniExhausted ∧ r = (.error err, s) := by
  unfold allocateEndpoint at h
  split_ifs at h with h1 h2 h3
  · exact .inr ⟨_, by decide, (Option.some.inj h).symm⟩
  · exact .inr ⟨_, by simp, (Option.some.inj h).symm⟩
  · exact .inr ⟨_, by decide, (Option.some.inj h).symm⟩
  · simp only [Bool.or_eq_true, not_or, Bool.not_eq_true] at h1
    refine .inl ⟨h1.1, h1.2, ?_, not_or.mp h3⟩
    simpa [getAllAddrPorts, List.isEmpty_iff] using h2

theorem Ready.allocateEndpoint_eq (hr : Ready c s discoA discoB) (now : ℕ) :
    s.allocateEndpoint c discoA discoB now =
      match s.state.endpointsByDisco.lookup (sortedPair discoA discoB) with
      | some id => do
        let existing ← s.endpoints[id]?
        return (.ok (describe c s.state (sortedPair discoA discoB) existing.lamportId
          existing.vni), s)
      | none => do
        let (vni, state) ← getNextVni c s.state
        match vni with
        | none => return (.error .vniExhausted, { s with state })
        | some vni =>
          let (endpoint, s) ← insert c { s with state } (sortedPair discoA discoB) vni now
          return (.ok endpoint, s) := by
  have hports : ¬(s.state.staticAddrPorts.isEmpty && s.state.dynamicAddrPorts.isEmpty) = true := by
    simpa [getAllAddrPorts, List.isEmpty_iff] using hr.addrPorts
  unfold allocateEndpoint
  rw [if_neg (by simp [hr.serverClosed, hr.closed]), if_neg hports]
  exact if_neg (not_or.mpr hr.clients)

theorem getNextVni_eq_some {r : Option ℕ × ServerState} (h : getNextVni c state = some r) :
    c.minVni ≤ c.maxVni ∧
      searchVni (fun v => (state.endpointsByVni.lookup v).isSome) c.minVni c.maxVni
        (c.maxVni - c.minVni + 1) state.nextVni = (r.1, r.2.nextVni) ∧
      r.2 = { state with nextVni := r.2.nextVni } := by
  unfold getNextVni at h
  split_ifs at h with hc
  rw [Option.some.injEq] at h
  subst h
  exact ⟨by omega, rfl, rfl⟩

/-- The allocation function computes one of the cases of the relation. -/
theorem allocates_of_eq (h : s.allocateEndpoint c discoA discoB now = some (r, s')) :
    Allocates c s (sortedPair discoA discoB) now r s' := by
  rcases ready_or h with hr | ⟨err, herr, heq⟩
  · rw [hr.allocateEndpoint_eq] at h
    split at h
    · next id hid =>
      simp only [Option.bind_eq_bind, Option.bind_eq_some_iff, pure, Option.some.injEq,
        Prod.mk.injEq] at h
      obtain ⟨e, he, rfl, rfl⟩ := h
      exact .existing id e hid he
    · next hnone =>
      simp only [Option.bind_eq_bind, Option.bind_eq_some_iff] at h
      obtain ⟨⟨vni, state⟩, hnext, h⟩ := h
      obtain ⟨hrange, hs, hstate⟩ := getNextVni_eq_some hnext
      dsimp only at hs hstate h
      generalize state.nextVni = cursor at hs hstate
      subst hstate
      cases vni with
      | none =>
        simp only [pure, Option.some.injEq, Prod.mk.injEq] at h
        obtain ⟨rfl, rfl⟩ := h
        exact .exhausted cursor hnone hrange hs
      | some vni =>
        simp only [Option.bind_eq_some_iff, pure, Option.some.injEq, Prod.mk.injEq] at h
        obtain ⟨⟨endpoint, s1⟩, hins, rfl, rfl⟩ := h
        unfold Server.insert at hins
        split_ifs at hins with hc
        simp only [Option.some.injEq, Prod.mk.injEq] at hins
        obtain ⟨rfl, rfl⟩ := hins
        exact .fresh vni cursor hnone hrange hs (not_le.mp hc) _ rfl
  · cases heq
    exact .refused err herr

/-- Step: an allocation keeps the tables and the endpoints in agreement. -/
theorem Allocates.allocated {pair : DiscoPublic × DiscoPublic} (ha : Allocates c s pair now r s')
    (hp : pair.1 ≤ pair.2) (hc : r.isOk → pair.1 ≠ c.discoPublic ∧ pair.2 ≠ c.discoPublic)
    (h : Allocated c s.state s.endpoints) : Allocated c s'.state s'.endpoints := by
  cases ha with
  | refused | existing => exact h
  | exhausted cursor _ hle hs =>
    have hmem := searchVni_mem hle _ _ (h.cursor hle).1 (h.cursor hle).2 hs
    exact ⟨h.byVni, h.byDisco, h.inRange, h.sorted, h.clients, fun _ => hmem.1, h.lamport,
      h.counter⟩
  | fresh vni cursor hfresh hle hs hcounter endpoint =>
    have hmem := searchVni_mem hle _ _ (h.cursor hle).1 (h.cursor hle).2 hs
    have hnone : s.state.endpointsByVni.lookup vni = none := by
      simpa using searchVni_eq_some _ _ hs
    -- what was there before is neither under the new number nor under the new pair
    have hold : ∀ {id : ℕ} {e : RelayEndpoint}, s.endpoints[id]? = some e →
        (s.endpoints ++ [⟨pair, s.state.lamportId + 1, vni, now, .new now⟩])[id]? = some e :=
      fun he => List.getElem?_append_left (List.getElem?_eq_some_iff.mp he).1 ▸ he
    have hnew : (s.endpoints ++ [⟨pair, s.state.lamportId + 1, vni, now, .new now⟩])[
        s.endpoints.length]? = some ⟨pair, s.state.lamportId + 1, vni, now, .new now⟩ := by simp
    refine ⟨?_, ?_, ?_, ?_, ?_, fun _ => hmem.1, ?_, ?_⟩
    · intro v id hv
      by_cases hvv : v = vni
      · subst hvv
        rw [lookup_insert, Option.some.injEq] at hv
        subst hv
        exact ⟨_, hnew, rfl, lookup_insert _⟩
      · rw [lookup_insert_ne hvv] at hv
        obtain ⟨e, he, rfl, hd⟩ := h.byVni v id hv
        refine ⟨e, hold he, rfl, ?_⟩
        rw [lookup_insert_ne, hd]
        intro heq
        rw [heq, hfresh] at hd
        cases hd
    · intro p id hpid
      by_cases hpp : p = pair
      · subst hpp
        rw [lookup_insert, Option.some.injEq] at hpid
        subst hpid
        exact ⟨_, hnew, rfl, lookup_insert _⟩
      · rw [lookup_insert_ne hpp] at hpid
        obtain ⟨e, he, rfl, hv⟩ := h.byDisco p id hpid
        refine ⟨e, hold he, rfl, ?_⟩
        rw [lookup_insert_ne, hv]
        intro heq
        rw [heq, hnone] at hv
        cases hv
    · intro v id hv
      by_cases hvv : v = vni
      · exact hvv ▸ hmem.2 vni rfl
      · rw [lookup_insert_ne hvv] at hv
        exact h.inRange v id hv
    · intro e he
      rcases mem_append.mp he with he | he
      · exact h.sorted e he
      · rw [mem_singleton.mp he]
        exact hp
    · intro e he
      rcases mem_append.mp he with he | he
      · exact h.clients e he
      · rw [mem_singleton.mp he]
        exact hc rfl
    · rw [map_append, map_singleton, pairwise_append]
      refine ⟨h.lamport, pairwise_singleton _ _, fun a ha b hb => ?_⟩
      obtain ⟨e, he, rfl⟩ := mem_map.mp ha
      rw [mem_singleton.mp hb]
      exact lt_succ_of_le (h.counter e he)
    · intro e he
      rcases mem_append.mp he with he | he
      · exact (h.counter e he).trans (le_succ _)
      · rw [mem_singleton.mp he]

section
variable (removed : List ((DiscoPublic × DiscoPublic) × ℕ))

/-- Removal takes exactly the listed entries out of both tables. -/
theorem lookup_removeAll : ∀ state : ServerState,
    (∀ p, (System.removeAll state removed).endpointsByDisco.lookup p =
      if p ∈ removed.map (·.1) then none else state.endpointsByDisco.lookup p) ∧
    ∀ v, (System.removeAll state removed).endpointsByVni.lookup v =
      if v ∈ removed.map (·.2) then none else state.endpointsByVni.lookup v := by
  induction removed with
  | nil => exact fun state => ⟨fun p => rfl, fun v => rfl⟩
  | cons x removed ih =>
    intro state
    obtain ⟨hd, hv⟩ := ih { state with
      endpointsByDisco := state.endpointsByDisco.erase x.1
      endpointsByVni := state.endpointsByVni.erase x.2 }
    refine ⟨fun p => (hd p).trans ?_, fun v => (hv v).trans ?_⟩
    · by_cases hp : p = x.1
      · subst hp
        simp [lookup_erase]
      · rw [lookup_erase_ne hp]
        simp only [map_cons, mem_cons, hp, false_or]
    · by_cases hp : v = x.2
      · subst hp
        simp [lookup_erase]
      · rw [lookup_erase_ne hp]
        simp [hp]

theorem removeAll_rest : ∀ state : ServerState, ∃ byVni byDisco, System.removeAll state removed =
      { state with endpointsByVni := byVni, endpointsByDisco := byDisco } := by
  induction removed with
  | nil => exact fun state => ⟨_, _, rfl⟩
  | cons x removed ih => exact fun state => ih _

end

def Entries (state : ServerState) (endpoints : List RelayEndpoint)
    (removed : List ((DiscoPublic × DiscoPublic) × ℕ)) : Prop :=
  ∀ x ∈ removed, ∃ id e, state.endpointsByDisco.lookup x.1 = some id ∧ endpoints[id]? = some e ∧
    e.vni = x.2

section
variable (h : Allocated c state endpoints) (hr : Entries state endpoints removed)
include h hr

theorem Allocated.mem_removed_iff (he : endpoints[id]? = some e)
    (hd : state.endpointsByDisco.lookup e.discoPubKeys = some id) :
    e.discoPubKeys ∈ removed.map (·.1) ↔ e.vni ∈ removed.map (·.2) := by
  have hkeys : ∀ {p : DiscoPublic × DiscoPublic} {id' : ℕ} {e' : RelayEndpoint},
      state.endpointsByDisco.lookup p = some id' → endpoints[id']? = some e' →
        e'.discoPubKeys = p := by
    intro p id' e' hp he'
    obtain ⟨e1, he1, rfl, -⟩ := h.byDisco p id' hp
    rw [Option.mem_unique he' he1]
  constructor
  · intro hmem
    obtain ⟨x, hx, hxe⟩ := mem_map.mp hmem
    obtain ⟨id', e', hd', he', hv⟩ := hr x hx
    rw [hxe, hd, Option.some.injEq] at hd'
    subst hd'
    obtain rfl := Option.mem_unique he he'
    exact mem_map.mpr ⟨x, hx, hv.symm⟩
  · intro hmem
    obtain ⟨x, hx, hxe⟩ := mem_map.mp hmem
    obtain ⟨id', e', hd', he', hv⟩ := hr x hx
    obtain rfl := h.vni_inj hd hd' he he' (hxe.symm.trans hv.symm)
    obtain rfl := Option.mem_unique he he'
    exact mem_map.mpr ⟨x, hx, (hkeys hd' he).symm⟩

theorem Allocated.removeAll : Allocated c (System.removeAll state removed) endpoints := by
  obtain ⟨hld, hlv⟩ := lookup_removeAll removed state
  obtain ⟨byVni, byDisco, heq⟩ := removeAll_rest removed state
  refine ⟨?_, ?_, ?_, h.sorted, h.clients, ?_, h.lamport, ?_⟩
  · intro v id hv
    rw [hlv] at hv
    split_ifs at hv with hmem
    obtain ⟨e, he, rfl, hd⟩ := h.byVni v id hv
    refine ⟨e, he, rfl, ?_⟩
    rw [hld, if_neg (mt (h.mem_removed_iff hr he hd).mp hmem), hd]
  · intro p id hp
    rw [hld] at hp
    split_ifs at hp with hmem
    obtain ⟨e, he, rfl, hv⟩ := h.byDisco p id hp
    refine ⟨e, he, rfl, ?_⟩
    rw [hlv, if_neg (mt (h.mem_removed_iff hr he hp).mpr hmem), hv]
  · intro v id hv
    rw [hlv] at hv
    split_ifs at hv
    exact h.inRange v id hv
  · rw [heq]
    exact h.cursor
  · rw [heq]
    exact h.counter

end

theorem Allocated.cleared (h : Allocated c state endpoints) :
    Allocated c (System.cleared state) endpoints where
  byVni v id hv := by cases hv
  byDisco p id hp := by cases hp
  inRange v id hv := by cases hv
  sorted := h.sorted
  clients := h.clients
  cursor := h.cursor
  lamport := h.lamport
  counter := h.counter

end

end Rustscale.Udprelay
