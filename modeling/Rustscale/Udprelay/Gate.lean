import Rustscale.Udprelay.Bind

/-! What holds of the delivery gate and of the secrets after every step. -/
namespace Rustscale.Udprelay
open Octets Bytes Disco Machine List RelayEndpoint

/-- While a call has the gate for writing, the read loop has not; only such a call disables. -/
structure Gate (s : System) : Prop where
  writer : s.writer ≠ .none → s.reader.holdsGate = false
  disabling : ∀ todo, s.drain = some (.disable todo) → s.writer = .entered

section
variable {crypto : Crypto} {c : ServerInner} {s s' : System} {log new : List Event}

theorem Gate.of_holdsGate (h : Gate s) (hr : s.reader.holdsGate = true) : s.writer = .none := by
  by_contra hw
  simp [h.writer hw] at hr

theorem Gate.reads {r : Reader} (h : Gate s) (hr : Reads s r new) : Gate { s with reader := r } := by
  refine ⟨fun hw => ?_, h.disabling⟩
  cases hr with
  | receive | drop | send => rfl
  | enter src packet _ hgate => exact absurd hgate hw
  | check src packet hr | control id src packet gh payload hr | data id src packet gh payload hr =>
    exact absurd (h.of_holdsGate (by rw [hr]; rfl)) hw

theorem Handles.holdsGate {e : RelayEndpoint} {id : ℕ} {r : Option Handled}
    (h : Handles crypto c s e id r) : s.reader.holdsGate = true := by
  cases h with
  | control _ _ _ _ _ hr => rw [hr]; rfl
  | data _ _ _ hr => rw [hr]; rfl

/-- Step: the reader never holds the gate while a writer waits or works. -/
theorem Gate.moves (h : Gate s) (hm : Moves crypto c s s' new) : Gate s' := by
  cases hm with
  | read r _ hr => exact h.reads hr
  | arm now fresh id src payload hd hr =>
    exact ⟨fun hw => absurd (h.of_holdsGate (by rw [hr]; rfl)) hw, h.disabling⟩
  | rotate | allocate | advertise => exact ⟨h.writer, h.disabling⟩
  | handle id e r he hh =>
    have hw := h.of_holdsGate hh.holdsGate
    cases r with
    | none | some r => exact ⟨fun h => absurd hw h, h.disabling⟩
  | flag _ hf =>
    cases hf with
    | disableGate _ hr => exact ⟨fun _ => hr, fun _ _ => rfl⟩
    | disableDone hw =>
      refine ⟨fun h => absurd rfl h, fun todo hd => ?_⟩
      have := h.disabling todo hd
      rw [hw] at this
      cases this
    | enableTest | closeStore | enableStore => exact ⟨h.writer, h.disabling⟩
  | lock _ hd hl =>
    cases hl with
    | gc now | close => exact ⟨h.writer, nofun⟩
    | disable hw => exact ⟨h.writer, fun _ _ => hw⟩
  | skip => exact ⟨h.writer, nofun⟩
  | visit id e closer d hv he =>
    refine ⟨h.writer, fun todo hd => ?_⟩
    cases hd
    cases hv with
    | disable _ _ todo' hd' => exact h.disabling todo' hd'
  | finish _ hf =>
    cases hf with
    | gc | close => exact ⟨h.writer, nofun⟩
    | disable hd =>
      have hw : s.writer = .entered := h.disabling [] hd
      exact ⟨fun _ => h.writer (by rw [hw]; decide), nofun⟩

/-- The last ones drawn, at most two, and none only before the first or when all endpoints are
closed for good. -/
structure Secrets (log : List Event) (server : Server) : Prop where
  last : server.state.macSecrets <+: (drawnSecrets log).reverse
  atMost : server.state.macSecrets.length ≤ 2
  empty : server.state.macSecrets = [] → server.state.macSecretRotatedAt = none ∨
    server.closed = true ∧ AllClosed server.endpoints

theorem Secrets.subset {server : Server} (h : Secrets log server) {secret : BitVec 256}
    (hs : secret ∈ server.state.macSecrets) : secret ∈ lastTwo log := by
  obtain ⟨rest, heq⟩ := h.last
  rw [lastTwo, ← heq, take_append]
  refine mem_append_left _ ?_
  rwa [take_of_length_le h.atMost]

/-- Only the secrets and the flags matter, and that no endpoint is opened. -/
theorem Secrets.frame {server server' : Server} (h : Secrets log server)
    (hnew : drawnSecrets new = []) (hs : server'.state.macSecrets = server.state.macSecrets)
    (hr : server'.state.macSecretRotatedAt = server.state.macSecretRotatedAt)
    (hc : server.closed = true → server'.closed = true)
    (he : server.closed = true → AllClosed server.endpoints → AllClosed server'.endpoints) :
    Secrets (log ++ new) server' where
  last := by
    rw [hs, drawnSecrets_append, hnew, append_nil]
    exact h.last
  atMost := hs ▸ h.atMost
  empty hnil := by
    rw [hr]
    exact (h.empty (hs ▸ hnil)).imp_right fun ⟨hcl, hall⟩ => ⟨hc hcl, he hcl hall⟩

theorem rotated_of_due {now : ℕ} {fresh : BitVec 256}
    (hdue : rotationDue s.server.state now c.macSecretRotationInterval = true)
    (hlen : s.server.state.macSecrets.length ≤ 2) :
    rotated c s now fresh = { s.server.state with
      macSecrets := fresh :: s.server.state.macSecrets.take 1
      macSecretRotatedAt := some now } := by
  unfold rotated maybeRotateMacSecret
  rw [if_neg (by simp [hdue])]
  match hm : s.server.state.macSecrets, hlen with
  | [], _ => simp
  | [x], _ => simp
  | [x, y], _ => simp

theorem Secrets.rotated (h : Secrets log s.server) (now : ℕ) (fresh : BitVec 256) :
    Secrets (log ++ drawn c s now fresh) (s.withState (rotated c s now fresh)).server := by
  cases hdue : rotationDue s.server.state now c.macSecretRotationInterval with
  | false =>
    have hsame : Udprelay.rotated c s now fresh = s.server.state := by
      simp [Udprelay.rotated, maybeRotateMacSecret, hdue]
    rw [drawn, hdue, hsame]
    exact h.frame rfl rfl rfl (fun h => h) fun _ h => h
  | true =>
    rw [drawn, hdue, rotated_of_due hdue h.atMost]
    refine ⟨?_, ?_, nofun⟩
    · rw [drawnSecrets_append, reverse_append]
      exact cons_prefix_cons.mpr ⟨rfl, ( take_prefix _ _).trans h.last⟩
    · exact Nat.succ_le_succ (length_take_le _ _)

theorem Secrets.closed_of_rotated (h : Secrets log s.server) {now : ℕ} {fresh : BitVec 256}
    (hnil : (Udprelay.rotated c s now fresh).macSecrets = []) : AllClosed s.server.endpoints := by
  have hnot : rotationDue s.server.state now c.macSecretRotationInterval = false := by
    by_contra hdue
    rw [rotated_of_due (by simpa using hdue) h.atMost] at hnil
    cases hnil
  have hsame : Udprelay.rotated c s now fresh = s.server.state := by
    simp [Udprelay.rotated, maybeRotateMacSecret, hnot]
  rw [hsame] at hnil
  rcases h.empty hnil with hnone | ⟨-, hall⟩
  · simp [rotationDue, hnone] at hnot
  · exact hall

theorem allClosed_of_map_shape {endpoints endpoints' : List RelayEndpoint}
    (hs : endpoints'.map shape = endpoints.map shape)
    (h : AllClosed endpoints) : AllClosed endpoints' := by
  intro e he
  obtain ⟨x, hx, heq⟩ := exists_mem_of_map hs he
  rw [← (Prod.mk.inj heq).2]
  exact h x hx

theorem drawnSecrets_map_endpoint (id : ℕ) (events : List EndpointEvent) :
    drawnSecrets (events.map (.endpoint id)) = [] := by
  rw [drawnSecrets, filterMap_eq_nil_iff]
  intro ev hev
  obtain ⟨x, -, rfl⟩ := mem_map.mp hev
  rfl

/-- Step: the MAC secrets kept are the last ones drawn, two at most. -/
theorem Secrets.moves (h : Secrets log s.server) (hl : Live c log s.server s.drain s.closing)
    (hm : Moves crypto c s s' new) : Secrets (log ++ new) s'.server := by
  have hid : ∀ {P : Prop}, P → P := fun h => h
  cases hm with
  | read r _ hr => exact h.frame (by cases hr <;> rfl) rfl rfl hid fun _ h => h
  | arm now fresh id src payload hd hr | rotate now fresh hd => exact h.rotated now fresh
  | handle id e r he hh =>
    cases r with
    | none => exact h.frame rfl rfl rfl hid fun _ h => h
    | some r =>
      exact h.frame (drawnSecrets_map_endpoint id r.log) rfl rfl hid fun _ =>
        allClosed_of_map_shape (map_shape_set he hh.spec.closed_eq)
  | allocate discoA discoB now hd r server ha =>
    have hnone : drawnSecrets (System.told s.server server r) = [] := by
      rw [drawnSecrets, filterMap_eq_nil_iff]
      intro ev hev
      obtain ⟨_, _, _, _, rfl⟩ := mem_told hev
      rfl
    rcases ready_or ha with hready | ⟨err, -, heq⟩
    · have hopen : ∀ {P : Prop}, s.server.closed = true → P := by
        intro P hc
        simp [hready.closed] at hc
      cases allocates_of_eq ha with
      | refused | existing | exhausted => exact h.frame hnone rfl rfl hid fun _ h => h
      | fresh => exact h.frame hnone rfl rfl hid fun hc _ => hopen hc
    · obtain ⟨-, rfl⟩ := Prod.mk.inj heq
      exact h.frame hnone rfl rfl hid fun _ h => h
  | advertise | skip => exact h.frame rfl rfl rfl hid fun _ h => h
  | flag _ hf => cases hf <;> exact h.frame rfl rfl rfl (by simp [System.withState]) fun _ h => h
  | lock _ hd hlk => cases hlk <;> exact h.frame rfl rfl rfl hid fun _ h => h
  | visit id e closer d hv he =>
    exact h.frame rfl rfl rfl hid fun _ h => h.of_static (map_set_eq he rfl) fun id' hid' =>
      (closedAt_set he id').mpr (.inr hid')
  | finish _ hf =>
    have hdr := hl.drains
    cases hf with
    | gc now removed hd =>
      obtain ⟨byVni, byDisco, heq⟩ := removeAll_rest removed s.server.state
      rw [heq]
      exact h.frame rfl rfl rfl hid fun _ h => h
    | disable hd => exact ⟨ nil_prefix, Nat.zero_le _, fun _ => .inl rfl⟩
    | close hd =>
      rw [hd] at hdr
      exact ⟨ nil_prefix, Nat.zero_le _, fun _ => .inr ⟨hdr.1, hl.drained rfl hdr.2⟩⟩

end

end Rustscale.Udprelay
