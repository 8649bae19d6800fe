import Rustscale.Udprelay.Endpoints
import Rustscale.Udprelay.Handlers

/-! The allocations of every run. -/
namespace Rustscale.Udprelay
open Octets Bytes Disco Machine List

section
variable {crypto : Crypto} {c : ServerInner} {s s' : System} {log new : List Event}

section
variable (c : ServerInner) (s : System) (now : ℕ) (fresh : BitVec 256)

theorem rotated_rest : ∃ macSecrets rotatedAt, rotated c s now fresh =
      { s.server.state with macSecrets, macSecretRotatedAt := rotatedAt } := by
  unfold rotated maybeRotateMacSecret
  split_ifs
  all_goals exact ⟨_, _, rfl⟩

theorem silent_drawn : Silent (drawn c s now fresh) := by
  unfold drawn
  split_ifs <;> simp [Silent]

end

theorem Reads.silent {r : Reader} (h : Reads s r new) : Silent new := by
  cases h <;> simp [Silent]

theorem Live.rotated (h : Live c log s.server s.drain s.closing) (now : ℕ) (fresh : BitVec 256) :
    Live c (log ++ drawn c s now fresh) (s.withState (rotated c s now fresh)).server s.drain
      s.closing := by
  obtain ⟨macSecrets, rotatedAt, heq⟩ := rotated_rest c s now fresh
  rw [heq]
  exact h.frame (silent_drawn c s now fresh) ⟨rfl, rfl, rfl, rfl⟩ rfl rfl rfl rfl

/-- Step: every move of the system keeps the lifetime invariant. -/
theorem Live.moves (h : Live c log s.server s.drain s.closing) (hm : Moves crypto c s s' new) :
    Live c (log ++ new) s'.server s'.drain s'.closing := by
  cases hm with
  | read r _ hr => exact h.frame hr.silent ⟨rfl, rfl, rfl, rfl⟩ rfl rfl rfl rfl
  | arm now fresh id src payload hd hr | rotate now fresh hd => exact h.rotated now fresh
  | handle id e r he hh =>
    cases r with
    | none =>
      exact h.frame (by simp [Silent, System.handled]) ⟨rfl, rfl, rfl, rfl⟩ rfl rfl rfl rfl
    | some r =>
      refine h.frame ?_ ⟨rfl, rfl, rfl, rfl⟩ rfl rfl rfl (map_shape_set he hh.spec.closed_eq)
      simp [Silent, System.handled]
  | allocate discoA discoB now hd r server ha =>
    have hready : r.isOk → Ready c s.server discoA discoB := by
      intro hok
      rcases ready_or ha with hr | ⟨err, -, heq⟩
      · exact hr
      · rw [(Prod.mk.inj heq).1] at hok
        cases hok
    refine h.allocate hd (sortedPair_fst_le discoA discoB) (fun hok => ?_)
      (fun hok => ⟨(hready hok).closed, (hready hok).serverClosed⟩) (allocates_of_eq ha)
    exact mem_sortedPair (P := (· ≠ c.discoPublic)) discoA discoB (hready hok).clients.1
      (hready hok).clients.2
  | advertise addrPorts hd =>
    have hsilent : Silent [.advertised addrPorts] := by simp [Silent]
    have hf := h.frame hsilent ⟨rfl, rfl, rfl, rfl⟩ rfl rfl rfl rfl
    obtain ⟨h1, h2, h3, h4, h5, h6, -, h8, h9, h10, -⟩ := hf
    refine ⟨h1.of_state ⟨rfl, rfl, rfl, rfl⟩, h2, h3, h4, h5, h6, ?_, h8, h9, h10, .inr (by simp [
      System.withState])⟩
    change Drains _ s.drain
    rw [hd]
    trivial
  | flag _ hf =>
    rw [append_nil]
    exact h.flags hf
  | lock _ hd hl =>
    rw [append_nil]
    exact h.lock hd hl
  | skip now k todo removed hd =>
    rw [append_nil]
    rw [hd] at h
    exact h.skip
  | visit id e closer d hv he => exact h.visit hv he
  | finish _ hf =>
    rw [append_nil]
    exact h.finish hf

theorem live_of_run {env : List Event → List Event → Prop}
    (run : Run (machine crypto c) env log s) : Live c log s.server s.drain s.closing :=
  run.invariant (fun log s => Live c log s.server s.drain s.closing) (live_start c)
    fun _ _ _ _ _ h hstep _ => h.moves (moves_of_step hstep)

end

/-- A server that can allocate and does not know the pair. -/
structure Fresh (c : ServerInner) (s : Server) (discoA discoB : DiscoPublic) : Prop
    extends Ready c s discoA discoB where
  unknown : s.state.endpointsByDisco.lookup (sortedPair discoA discoB) = none

/-- What allocation is to keep. -/
structure AllocationSpec (c : ServerInner) (log : List Event) (s : System) : Prop where
  same : ∀ id, (∃ vni, s.server.state.endpointsByVni.lookup vni = some id) ↔
    ∃ pair, s.server.state.endpointsByDisco.lookup pair = some id
  ownVni : ∀ vni id, s.server.state.endpointsByVni.lookup vni = some id →
    ∃ e, s.server.endpoints[id]? = some e ∧ e.vni = vni
  ownPair : ∀ pair id, s.server.state.endpointsByDisco.lookup pair = some id →
    ∃ e, s.server.endpoints[id]? = some e ∧ e.discoPubKeys = pair ∧ pair.1 ≤ pair.2
  distinct : ∀ pair pair' id id' e e', s.server.state.endpointsByDisco.lookup pair = some id →
    s.server.state.endpointsByDisco.lookup pair' = some id' → s.server.endpoints[id]? = some e →
    s.server.endpoints[id']? = some e' → e.vni = e'.vni → id = id'
  inRange : ∀ vni id, s.server.state.endpointsByVni.lookup vni = some id →
    c.minVni ≤ vni ∧ vni ≤ c.maxVni
  lamport : ((allocations log).map (·.2.2)).Pairwise (· < ·)
  again : (∀ addrPorts, .advertised addrPorts ∈ log → addrPorts ≠ []) → s.drain = none →
    s.closing = 0 → ∀ id pair vni lamportId, .allocated id pair vni lamportId ∈ log →
    (∀ closer, .closed id closer ∉ log) → ∀ discoA discoB now, sortedPair discoA discoB = pair →
    s.server.allocateEndpoint c discoA discoB now =
      some (.ok (describe c s.server.state pair lamportId vni), s.server) ∧
    s.server.allocateEndpoint c discoB discoA now =
      some (.ok (describe c s.server.state pair lamportId vni), s.server)
  exhausted : ∀ discoA discoB now, Fresh c s.server discoA discoB →
    ((∃ server, s.server.allocateEndpoint c discoA discoB now =
      some (.error .vniExhausted, server)) ↔ ∀ vni, c.minVni ≤ vni → vni ≤ c.maxVni →
        ∃ id, s.server.state.endpointsByVni.lookup vni = some id)

section
variable {c : ServerInner} {s : System} {log : List Event}

variable {id vni lamportId : ℕ} {pair : DiscoPublic × DiscoPublic} {discoA discoB : DiscoPublic}

section
variable (h : Live c log s.server s.drain s.closing)
include h

theorem Live.lookup_pair (ha : .allocated id pair vni lamportId ∈ log)
    (hc : ∀ closer, .closed id closer ∉ log) :
    ∃ e, s.server.endpoints[id]? = some e ∧ e.static = (pair, vni, lamportId) ∧
      e.inner.closed = false ∧ s.server.state.endpointsByDisco.lookup pair = some id := by
  obtain ⟨e, he, hes⟩ := h.places id pair vni lamportId ha
  have hlive : e.inner.closed = false := by
    by_contra hcl
    obtain ⟨closer, hmem⟩ := h.closedBy id ⟨e, he, by simpa using hcl⟩
    exact hc closer hmem
  obtain ⟨e', he', -, hd⟩ := h.allocated.byVni _ _ (h.live id e he hlive)
  obtain rfl := Option.mem_unique he he'
  have hpair : e.discoPubKeys = pair := congrArg (·.1) hes
  exact ⟨e, he, hes, hlive, hpair ▸ hd⟩

section
variable (hports : ∀ addrPorts, .advertised addrPorts ∈ log → addrPorts ≠ []) (hd : s.drain = none)
  (hcl : s.closing = 0)
include hports hd hcl

/-- A live endpoint of the pair makes the server ready for it. -/
theorem Live.ready {e : RelayEndpoint}
    (he : s.server.endpoints[id]? = some e) (hlive : e.inner.closed = false)
    (hpair : sortedPair discoA discoB = e.discoPubKeys) : Ready c s.server discoA discoB := by
  have hall : ¬AllClosed s.server.endpoints := by
    intro hall
    have := hall e (mem_of_getElem? he)
    simp [hlive] at this
  refine ⟨?_, ?_, ?_, ?_⟩
  · by_contra hs
    rcases h.serverClosed (by simpa using hs) with hc | hc
    · exact hall hc
    · simp [hd, Draining] at hc
  · by_contra hs
    rcases h.flag (by simpa using hs) with hc | hc | ⟨todo, hc⟩
    · exact hall hc
    · omega
    · simp [hd] at hc
  · have hstatic : s.server.state.staticAddrPorts ≠ [] := by
      rcases h.addrPorts with heq | hmem
      · simp [heq]
      · exact hports _ hmem
    simp [getAllAddrPorts, hstatic]
  · have hk := h.allocated.clients e (mem_of_getElem? he)
    rw [← hpair] at hk
    unfold sortedPair at hk
    split_ifs at hk
    · exact hk
    · exact hk.symm

theorem Live.again (ha : .allocated id pair vni lamportId ∈ log)
    (hc : ∀ closer, .closed id closer ∉ log) (now : ℕ) (hpair : sortedPair discoA discoB = pair) :
    s.server.allocateEndpoint c discoA discoB now =
      some (.ok (describe c s.server.state pair lamportId vni), s.server) := by
  obtain ⟨e, he, hes, hlive, hlook⟩ := h.lookup_pair ha hc
  have hkeys : e.discoPubKeys = pair := congrArg (·.1) hes
  have hvni : e.vni = vni := congrArg (·.2.1) hes
  have hlamport : e.lamportId = lamportId := congrArg (·.2.2) hes
  have hr := h.ready hports hd hcl he hlive (hpair.trans hkeys.symm)
  rw [hr.allocateEndpoint_eq, hpair, hlook]
  simp [he, hvni, hlamport]

end

/-- A fresh pair is refused for lack of a VNI exactly when each one is taken. -/
theorem Live.exhausted_iff (h1 : 1 ≤ c.minVni) (h2 : c.minVni ≤ c.maxVni) (h3 : c.maxVni < 2 ^ 32)
    (hf : Fresh c s.server discoA discoB) (now : ℕ) :
    (∃ server, s.server.allocateEndpoint c discoA discoB now =
      some (.error .vniExhausted, server)) ↔ ∀ vni, c.minVni ≤ vni → vni ≤ c.maxVni →
        ∃ id, s.server.state.endpointsByVni.lookup vni = some id := by
  have hcur := h.allocated.cursor h2
  constructor
  · rintro ⟨server, halloc⟩ vni hmin hmax
    cases allocates_of_eq halloc with
    | refused _ hne => exact absurd rfl hne
    | exhausted cursor _ _ hs =>
      have := searchVni_full h2 hcur.1 hcur.2 hs hmin hmax
      exact Option.isSome_iff_exists.mp this
  · intro hall
    rw [hf.toReady.allocateEndpoint_eq, hf.unknown, getNextVni, if_neg (by omega)]
    generalize hs : searchVni (fun v => (s.server.state.endpointsByVni.lookup v).isSome) c.minVni
      c.maxVni (c.maxVni - c.minVni + 1) s.server.state.nextVni = found
    obtain ⟨vni, cursor⟩ := found
    cases vni with
    | none => exact ⟨_, rfl⟩
    | some vni =>
      obtain ⟨-, hmem⟩ := searchVni_mem h2 _ _ hcur.1 hcur.2 hs
      obtain ⟨id, hid⟩ := hall vni (hmem vni rfl).1 (hmem vni rfl).2
      have hfree := searchVni_eq_some _ _ hs
      simp [hid] at hfree

end

end

/-- In every run the maps agree, live numbers are distinct and in range, the counter only grows, a
live allocation is returned for its keys in either order, and a fresh one is refused for want of a
number exactly when all are taken. -/
theorem allocation_spec (crypto : Crypto) (c : ServerInner) (h1 : 1 ≤ c.minVni)
    (h2 : c.minVni ≤ c.maxVni) (h3 : c.maxVni < 2 ^ 32) {log : List Event} {s : System}
    (run : Run (machine crypto c) (fun _ _ => True) log s) : AllocationSpec c log s := by
  have h := live_of_run run
  have ha := h.allocated
  refine ⟨fun id => ⟨?_, ?_⟩, ?_, ?_, ?_, ha.inRange, ?_, ?_, ?_⟩
  · rintro ⟨vni, hv⟩
    obtain ⟨e, -, -, hd⟩ := ha.byVni vni id hv
    exact ⟨_, hd⟩
  · rintro ⟨pair, hp⟩
    obtain ⟨e, -, -, hv⟩ := ha.byDisco pair id hp
    exact ⟨_, hv⟩
  · intro vni id hv
    obtain ⟨e, he, hev, -⟩ := ha.byVni vni id hv
    exact ⟨e, he, hev⟩
  · intro pair id hp
    obtain ⟨e, he, rfl, -⟩ := ha.byDisco pair id hp
    exact ⟨e, he, rfl, ha.sorted e (mem_of_getElem? he)⟩
  · intro pair pair' id id' e e' hp hp' he he' hv
    exact ha.vni_inj hp hp' he he' hv
  · rw [h.logged, map_map]
    exact ha.lamport
  · intro hports hd hcl id pair vni lamportId hmem hopen discoA discoB now hpair
    exact ⟨h.again hports hd hcl hmem hopen now hpair,
      h.again hports hd hcl hmem hopen now ((sortedPair_comm discoB discoA).trans hpair)⟩
  · exact fun discoA discoB now hf => h.exhausted_iff h1 h2 h3 hf now

/-- Boxes that do not hide their text, and a hash that adds it to the key. -/
def plainCrypto : Crypto where
  mac key input := key + BitVec.ofNat 256 (ofBytes .big input)
  sealBox _ _ plaintext := some plaintext
  openBox _ ciphertext := some ciphertext

/-- A relay with two numbers. Its key is 9. -/
def smallRelay : ServerInner where
  discoPublic := 9
  bindLifetime := 10
  steadyStateLifetime := 10
  macSecretRotationInterval := 10
  minVni := 1
  maxVni := 2
  localAddr := .v4 0x7F000001 40000

/-- Two pairs; the first one expires, is collected, and comes back with a new counter. -/
theorem allocation_spec_pair : ∃ log s, Run (machine plainCrypto smallRelay) (fun _ _ => True) log s ∧
    (allocations log = [((4, 5), 1, 1), ((6, 7), 2, 2), ((4, 5), 1, 3)]) ∧
      AllocationSpec smallRelay log s := by
  obtain ⟨log, s, hexec, hmem⟩ : ∃ log s, exec (machine plainCrypto smallRelay)
      [.allocate 5 4 0, .allocate 6 7 5, .allocate 4 5 6, .gc 12, .visit 0, .visit 0, .finish,
        .allocate 4 5 13] [] (machine plainCrypto smallRelay).start = some (log, s) ∧
        allocations log = [((4, 5), 1, 1), ((6, 7), 2, 2), ((4, 5), 1, 3)] := ⟨_, _, rfl, by decide⟩
  have run := Run.start.exec hexec (kept_of_forall (fun _ _ => trivial) _ _ _)
  exact ⟨log, s, run, hmem,
    allocation_spec plainCrypto smallRelay (by decide) (by decide) (by decide) run⟩

end Rustscale.Udprelay
