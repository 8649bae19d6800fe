import Rustscale.Udprelay.Gate

/-! What the slots of endpoints hold is in the log. -/
namespace Rustscale.Udprelay
open Octets Bytes Disco Machine List Function Event EndpointEvent

def Slots (log : List Event) (endpoints : List RelayEndpoint) : Prop :=
  ∀ id e, endpoints[id]? = some e → ∀ slot,
    (∀ src, e.inner.boundAddrPorts slot = some src → BoundTo log id slot src) ∧
    (e.inner.inProgressGeneration slot ≠ 0 →
      InProgress log id slot (e.inner.inProgressGeneration slot))

/-- The endpoints there were have the same slots, and new ones have empty slots. -/
def SameSlots (endpoints endpoints' : List RelayEndpoint) : Prop :=
  ∀ (id : ℕ) (e' : RelayEndpoint), endpoints'[id]? = some e' →
    (∃ e : RelayEndpoint, endpoints[id]? = some e ∧ e'.inner.boundAddrPorts = e.inner.boundAddrPorts ∧
      e'.inner.inProgressGeneration = e.inner.inProgressGeneration) ∨
    ∀ slot, e'.inner.boundAddrPorts slot = none ∧ e'.inner.inProgressGeneration slot = 0

theorem sameSlots_refl (endpoints : List RelayEndpoint) : SameSlots endpoints endpoints :=
  fun _ e he => .inl ⟨e, he, rfl, rfl⟩

def NoSlot (new : List Event) : Prop := ∀ ev ∈ new, ∀ id slot, ev.concerns id slot = false

section
variable {crypto : Crypto} {c : ServerInner} {s s' : System} {log new : List Event}
  {endpoints endpoints' : List RelayEndpoint}

theorem Slots.frame (h : Slots log endpoints) (hs : SameSlots endpoints endpoints')
    (hnew : NoSlot new) : Slots (log ++ new) endpoints' := by
  intro id e' he' slot
  rcases hs id e' he' with ⟨e, he, hb, hg⟩ | hempty
  · rw [hb, hg]
    refine ⟨fun src hsrc => ((h id e he slot).1 src hsrc).append fun ev hev => ?_,
      fun hne => ((h id e he slot).2 hne).append fun ev hev => ?_⟩
    · exact binds_of_concerns (hnew ev hev id slot)
    · exact hnew ev hev id slot
  · refine ⟨fun src hsrc => ?_, fun hne => absurd (hempty slot).2 hne⟩
    rw [(hempty slot).1] at hsrc
    cases hsrc

variable {id id' : ℕ} {e : RelayEndpoint} {inner : EndpointInner} {src : SocketAddr} {now : ℕ}
  {r : Handled} {pair : DiscoPublic × DiscoPublic}

theorem getElem?_set_cases {x : RelayEndpoint} (hx : (endpoints.set id e)[id']? = some x) :
    id' = id ∧ x = e ∨ id' ≠ id ∧ endpoints[id']? = some x := by
  by_cases hid : id' = id
  · subst hid
    rw [getElem?_set_self'] at hx
    obtain ⟨_, -, rfl⟩ := Option.map_eq_some_iff.mp hx
    exact .inl ⟨rfl, rfl⟩
  · rw [getElem?_set_ne (Ne.symm hid)] at hx
    exact .inr ⟨hid, hx⟩

theorem sameSlots_set (he : endpoints[id]? = some e)
    (hb : inner.boundAddrPorts = e.inner.boundAddrPorts)
    (hg : inner.inProgressGeneration = e.inner.inProgressGeneration) :
    SameSlots endpoints (endpoints.set id { e with inner }) := by
  intro id' x hx
  rcases getElem?_set_cases hx with ⟨rfl, rfl⟩ | ⟨-, hx⟩
  · exact .inl ⟨e, he, hb, hg⟩
  · exact .inl ⟨x, hx, rfl, rfl⟩

theorem concerns_of_ne (hid : id' ≠ id) (slot : Fin 2) (ev : EndpointEvent) :
    (endpoint id ev).concerns id' slot = false := by
  have hne : (id == id') = false := by simpa using Ne.symm hid
  cases ev <;> simp [concerns, hne]

section
variable (h : Slots log endpoints) (he : endpoints[id]? = some e)
include h he

/-- Changing one slot needs only that slot's events to be checked. -/
theorem Slots.set {events : List EndpointEvent} (slot : Fin 2)
    (hb : ∀ slot', slot' ≠ slot → inner.boundAddrPorts slot' = e.inner.boundAddrPorts slot')
    (hg : ∀ slot', slot' ≠ slot →
      inner.inProgressGeneration slot' = e.inner.inProgressGeneration slot')
    (hother : ∀ ev ∈ events, ∀ slot', slot' ≠ slot →
      (endpoint id ev).concerns id slot' = false)
    (hbound : ∀ src, inner.boundAddrPorts slot = some src →
      BoundTo (log ++ events.map (.endpoint id)) id slot src)
    (hprogress : inner.inProgressGeneration slot ≠ 0 →
      InProgress (log ++ events.map (.endpoint id)) id slot (inner.inProgressGeneration slot)) :
    Slots (log ++ events.map (.endpoint id)) (endpoints.set id { e with inner }) := by
  intro id' x hx slot'
  rcases getElem?_set_cases hx with ⟨rfl, rfl⟩ | ⟨hid, hx⟩
  · by_cases hslot : slot' = slot
    · subst hslot
      exact ⟨hbound, hprogress⟩
    · dsimp only
      rw [hb slot' hslot, hg slot' hslot]
      have hnot : ∀ ev ∈ events.map (endpoint id'), ev.concerns id' slot' = false := by
        intro ev hev
        obtain ⟨y, hy, rfl⟩ := mem_map.mp hev
        exact hother y hy slot' hslot
      exact ⟨fun src hsrc => ((h id' e he slot').1 src hsrc).append fun ev hev =>
        binds_of_concerns (hnot ev hev), fun hne => ((h id' e he slot').2 hne).append hnot⟩
  · have hnot : ∀ ev ∈ events.map (endpoint id), ev.concerns id' slot' = false := by
      intro ev hev
      obtain ⟨y, -, rfl⟩ := mem_map.mp hev
      exact concerns_of_ne hid slot' y
    exact ⟨fun src hsrc => ((h id' x hx slot').1 src hsrc).append fun ev hev =>
      binds_of_concerns (hnot ev hev), fun hne => ((h id' x hx slot').2 hne).append hnot⟩

/-- Handling a control message keeps the slots as the log tells them. -/
theorem Slots.controls {payload : List Byte} {macSecrets : List (BitVec 256)}
    (hc : Controls crypto e src payload macSecrets now (some r)) :
    Slots (log ++ r.log.map (.endpoint id)) (endpoints.set id { e with inner := r.inner }) := by
  cases hc with
  | dropped => exact h.frame (sameSlots_set he rfl rfl) (by simp [NoSlot])
  | ignored slot plaintext =>
    exact h.frame (sameSlots_set he rfl rfl) (by simp [NoSlot, concerns])
  | challenged slot plaintext common secret reply rest hlive hparse hnames hsecret hback hrest =>
    have hquiet : ∀ ev ∈ challenged secret src
        (challengeFor e slot common.generation) :: rest, ∀ slot',
          (endpoint id ev).concerns id slot' = false := by
      intro ev hev slot'
      rcases mem_cons.mp hev with rfl | hev
      · rfl
      · rcases hrest with rfl | ⟨mac, rfl⟩
        · cases hev
        · rw [mem_singleton.mp hev]
          rfl
    refine h.set he slot (fun _ _ => rfl) (fun slot' hne => update_of_ne hne _ _) ?_ ?_ ?_
    · intro ev hev slot' hne
      simp only [cons_append, nil_append, mem_cons] at hev
      rcases hev with rfl | rfl | hev
      · rfl
      · simpa [concerns] using Ne.symm hne
      · exact hquiet ev (mem_cons.mpr hev) slot'
    · intro src' hsrc
      refine ((h id e he slot).1 src' hsrc).append fun ev hev => ?_
      obtain ⟨y, hy, rfl⟩ := mem_map.mp hev
      simp only [cons_append, nil_append, mem_cons] at hy
      rcases hy with rfl | rfl | hy
      · rfl
      · rfl
      · exact binds_of_concerns (hquiet y (mem_cons.mpr hy) slot)
    · intro _
      dsimp only
      rw [update_self]
      refine ⟨log ++ [.endpoint id (.opened slot (e.key slot) src plaintext)],
        (challenged secret src (challengeFor e slot common.generation) :: rest).map
          (.endpoint id), by simp, fun ev hev => ?_⟩
      obtain ⟨y, hy, rfl⟩ := mem_map.mp hev
      exact hquiet y hy slot
  | bound slot plaintext common secret hlive hopen hparse hnames hzero hgen hsecret hverified =>
    refine h.set he slot (fun slot' hne => update_of_ne hne _ _)
      (fun slot' hne => update_of_ne hne _ _) ?_ ?_ ?_
    · intro ev hev slot' hne
      simp only [mem_cons, not_mem_nil, or_false] at hev
      rcases hev with rfl | rfl
      · rfl
      · simpa [concerns] using Ne.symm hne
    · intro src' hsrc
      dsimp only at hsrc
      rw [update_self, Option.some.injEq] at hsrc
      subst hsrc
      exact ⟨log ++ [.endpoint id (.opened slot (e.key slot) src plaintext)], [], secret, common,
        by simp, by simp⟩
    · intro hne
      dsimp only at hne
      exact absurd (update_self ..) hne

theorem Slots.forwards {packet : List Byte} (hf : Forwards e src packet (some r)) :
    Slots (log ++ r.log.map (.endpoint id)) (endpoints.set id { e with inner := r.inner }) := by
  cases hf with
  | dropped => exact h.frame (sameSlots_set he rfl rfl) (by simp [NoSlot])
  | forwarded => exact h.frame (sameSlots_set he rfl rfl) (by simp [NoSlot, concerns])

end

theorem noSlot_drawn (c : ServerInner) (s : System) (now : ℕ) (fresh : BitVec 256) :
    NoSlot (drawn c s now fresh) := by
  unfold drawn
  split_ifs <;> simp [NoSlot, concerns]

theorem sameSlots_concat {lamportId vni : ℕ} :
    SameSlots endpoints (endpoints ++ [⟨pair, lamportId, vni, now, .new now⟩]) := by
  intro id e he
  rcases getElem?_concat_cases he with he | ⟨-, rfl⟩
  · exact .inl ⟨e, he, rfl, rfl⟩
  · exact .inr fun slot => ⟨rfl, rfl⟩

theorem Allocates.sameSlots {server server' : Server} {r : Except UdprelayError ServerEndpoint}
    (ha : Allocates c server pair now r server') :
    SameSlots server.endpoints server'.endpoints := by
  cases ha with
  | refused | existing | exhausted => exact sameSlots_refl _
  | fresh => exact sameSlots_concat

/-- Step: the slots of every endpoint are what the log tells. -/
theorem Slots.moves (h : Slots log s.server.endpoints) (hm : Moves crypto c s s' new) :
    Slots (log ++ new) s'.server.endpoints := by
  have hnil : NoSlot [] := nofun
  cases hm with
  | read r _ hr =>
    refine h.frame (sameSlots_refl _) ?_
    cases hr <;> simp [NoSlot, concerns]
  | arm now fresh | rotate now fresh =>
    exact h.frame (sameSlots_refl _) (noSlot_drawn c s now fresh)
  | handle id e r he hh =>
    cases r with
    | none => exact h.frame (sameSlots_refl _) (by simp [NoSlot, System.handled, concerns])
    | some r =>
      cases hh.spec with
      | control src payload macSecrets now _ hr hc => exact h.controls he hc
      | data src packet _ hr hf => exact h.forwards he hf
  | allocate discoA discoB now hd r server ha =>
    refine h.frame (allocates_of_eq ha).sameSlots fun ev hev id slot => ?_
    obtain ⟨_, _, _, _, rfl⟩ := mem_told hev
    rfl
  | advertise => exact h.frame (sameSlots_refl _) (by simp [NoSlot, concerns])
  | flag _ hf | finish _ hf => cases hf <;> exact h.frame (sameSlots_refl _) hnil
  | lock _ hd hl => cases hl <;> exact h.frame (sameSlots_refl _) hnil
  | skip => exact h.frame (sameSlots_refl _) hnil
  | visit id e closer d hv he =>
    exact h.frame (sameSlots_set he rfl rfl) (by simp [NoSlot, concerns])

end

end Rustscale.Udprelay
