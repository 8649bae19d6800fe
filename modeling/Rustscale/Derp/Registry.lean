import Rustscale.Disco.Message
import Rustscale.Lib.HashTable
import Rustscale.Lib.Machine

/-! The registry of the DERP server: connections that open, replace each other, relay and leave, one
critical section at a time. -/
namespace Rustscale.Derp
open Octets Disco List HashTable

/-- How far the handler of a connection has come. -/
inductive Phase where
  | absent
  | handshake
  | opened (key : NodePublic)
  | serving (key : NodePublic)
  /-- A packet waits for room in the queue of the connection that was looked up. -/
  | sending (key : NodePublic) (target : ℕ) (data : List Byte)
  | stopped (key : NodePublic)
  /-- Unregistered, and `PeerGone` not sent yet. -/
  | leaving (key : NodePublic)
  | done

/-- An entry of the map is its connection, for its queue and its `close_notify`. -/
structure State where
  clients : HashTable NodePublic ℕ := ∅
  conns : ℕ → Phase := fun _ => .absent

/-- What the server did, as clients can see it. -/
inductive Event where
  | opened (id : ℕ) (key : NodePublic)
  | registered (id : ℕ) (key : NodePublic)
  | removed (id : ℕ) (key : NodePublic)
  | finished (id : ℕ)
  | peerGone (target : ℕ) (key : NodePublic)
  | recvPacket (sender target : ℕ) (src : NodePublic) (data : List Byte)
  deriving DecidableEq

/-- One critical section or await of a connection handler. -/
inductive Action where
  | accept (id : ℕ)
  /-- The box of the client opens under the key it names. -/
  | recvClientKey (id : ℕ) (key : NodePublic)
  | registerClient (id : ℕ)
  | lookupDst (id : ℕ) (dst : NodePublic) (data : List Byte)
  /-- The queue takes the packet, unless its receiver is gone. -/
  | send (id : ℕ) (taken : Bool)
  /-- The client is gone, was replaced or failed. -/
  | stop (id : ℕ)
  | unregisterClient (id : ℕ)
  /-- The queues that have room take the notification. -/
  | broadcastPeerGone (id : ℕ) (room : ℕ → Bool)
  /-- The future is dropped. -/
  | drop (id : ℕ)

namespace State

def set (s : State) (id : ℕ) (p : Phase) : State := { s with conns := Function.update s.conns id p }

def step (s : State) : Action → Option (State × List Event)
  | .accept id =>
    match s.conns id with
    | .absent => some (s.set id .handshake, [])
    | _ => none
  | .recvClientKey id key =>
    match s.conns id with
    | .handshake => some (s.set id (.opened key), [.opened id key])
    | _ => none
  | .registerClient id =>
    match s.conns id with
    | .opened key =>
      some ({ s.set id (.serving key) with clients := s.clients.insert key id },
        [.registered id key])
    | _ => none
  | .lookupDst id dst data =>
    match s.conns id with
    | .serving key =>
      match s.clients.lookup dst with
      | some target => some (s.set id (.sending key target data), [])
      | none => some (s, [])
    | _ => none
  | .send id taken =>
    match s.conns id with
    | .sending key target data =>
      some (s.set id (.serving key), if taken then [.recvPacket id target key data] else [])
    | _ => none
  | .stop id =>
    match s.conns id with
    | .serving key | .sending key _ _ => some (s.set id (.stopped key), [])
    | _ => none
  | .unregisterClient id =>
    match s.conns id with
    | .stopped key =>
      if s.clients.lookup key = some id then
        some ({ s.set id (.leaving key) with clients := s.clients.erase key }, [.removed id key])
      else some (s.set id .done, [.finished id])
    | _ => none
  | .broadcastPeerGone id room =>
    match s.conns id with
    | .leaving key =>
      some (s.set id .done, ((s.clients.pairs.filter fun e => e.1 != key && room e.2).map
        fun e => .peerGone e.2 key) ++ [.finished id])
    | _ => none
  | .drop id => some (s.set id .done, [.finished id])

end State

def registry : Machine State Action Event where
  start := {}
  step := State.step

/-- A connection of this key has unregistered and not sent its `PeerGone` yet. -/
def Outstanding (log : List Event) (key : NodePublic) : Prop :=
  ∃ id, .removed id key ∈ log ∧ .finished id ∉ log

/-- Nothing registers a key whose `PeerGone` is outstanding. -/
def Settled : List Event → Prop :=
  Machine.Every fun before o => ∀ id key, o = .registered id key → ¬Outstanding before key

def Phase.key : Phase → Option NodePublic
  | .opened key | .serving key | .sending key _ _ | .stopped key | .leaving key => some key
  | .absent | .handshake | .done => none

/-- What a run keeps: connections act for keys they opened, and leave only what they removed. -/
structure Inv (log : List Event) (s : State) : Prop where
  keys : ∀ id key, (s.conns id).key = some key → .opened id key ∈ log
  clients : ∀ key id, s.clients.lookup key = some id → .opened id key ∈ log
  finished : ∀ id, .finished id ∈ log → s.conns id = .done
  leaving : ∀ id key, s.conns id = .leaving key →
    .removed id key ∈ log ∧ (Settled log → s.clients.lookup key = none)

section
variable {log new : List Event} {s s' : State} {a : Action} {id : ℕ} {p : Phase}

section
variable (h : Inv log s)
include h

/-- The invariant over a change of one connection's phase. -/
theorem Inv.set (hkey : ∀ key, p.key = some key → .opened id key ∈ log ++ new)
    (hlive : p = .done ∨ s.conns id ≠ .done)
    (hfinished : ∀ id', .finished id' ∈ new → id' = id ∧ p = .done)
    (hleaving : ∀ key, p = .leaving key →
      .removed id key ∈ log ++ new ∧ (Settled (log ++ new) → s.clients.lookup key = none)) :
    Inv (log ++ new) (s.set id p) := by
  refine ⟨fun id' key hk => ?_, fun key id' hc => mem_append_left _ (h.clients key id' hc),
    fun id' hf => ?_, fun id' key hl => ?_⟩ <;> by_cases hid : id' = id
  · subst hid
    exact hkey key (by simpa [State.set] using hk)
  · exact mem_append_left _ (h.keys id' key (by simpa [State.set, hid] using hk))
  · subst hid
    rcases mem_append.mp hf with hf | hf
    · simpa [State.set, h.finished id' hf] using hlive
    · simpa [State.set] using (hfinished id' hf).2
  · rcases mem_append.mp hf with hf | hf
    · simpa [State.set, hid] using h.finished id' hf
    · exact absurd (hfinished id' hf).1 hid
  · subst hid
    exact hleaving key (by simpa [State.set] using hl)
  · obtain ⟨hr, hc⟩ := h.leaving id' key (by simpa [State.set, hid] using hl)
    exact ⟨mem_append_left _ hr, fun hsettled => hc hsettled.left⟩

theorem Inv.setClients {m : HashTable NodePublic ℕ}
    (hm : ∀ key id, m.lookup key = some id → .opened id key ∈ log)
    (hleaving : ∀ id key, s.conns id = .leaving key → Settled log → m.lookup key = none) :
    Inv log { s with clients := m } :=
  ⟨h.keys, hm, h.finished, fun id key hl => ⟨(h.leaving id key hl).1, hleaving id key hl⟩⟩

theorem Inv.move (hkey : ∀ key, p.key = some key → .opened id key ∈ log ++ new)
    (hold : s.conns id ≠ .done) (hnew : ∀ id', .finished id' ∉ new) (hp : ∀ key, p ≠ .leaving key) :
    Inv (log ++ new) (s.set id p) :=
  h.set hkey (.inr hold) (fun _ hf => absurd hf (hnew _)) fun key hl => absurd hl (hp key)

theorem Inv.finish (hnew : ∀ id', .finished id' ∈ new → id' = id) :
    Inv (log ++ new) (s.set id .done) :=
  h.set (fun _ hk => nomatch hk) (.inl rfl) (fun _ hf => ⟨hnew _ hf, rfl⟩) fun _ hl => nomatch hl

theorem Inv.register {key : NodePublic} (hc : s.conns id = .opened key) :
    Inv (log ++ [.registered id key])
      { s.set id (.serving key) with clients := s.clients.insert key id } := by
  have hid := h.keys id key (by rw [hc]; rfl)
  refine (h.move (p := .serving key) ?_ (by simp [hc]) (by simp) nofun).setClients ?_ ?_
  · rintro _ ⟨⟩
    exact mem_append_left _ hid
  · intro key' id' hl
    rcases lookup_insert_eq_some.mp hl with ⟨rfl, rfl⟩ | ⟨-, hl⟩
    · exact mem_append_left _ hid
    · exact mem_append_left _ (h.clients key' id' hl)
  · intro id' key' hl hsettled
    have hne : id' ≠ id := by
      rintro rfl
      simp [State.set] at hl
    have hold : s.conns id' = .leaving key' := by simpa [State.set, hne] using hl
    obtain ⟨hremoved, hnone⟩ := h.leaving id' key' hold
    have hkey : key' ≠ key := by
      rintro rfl
      refine hsettled log _ [] rfl id key' rfl ⟨id', hremoved, fun hf => ?_⟩
      cases hold.symm.trans (h.finished id' hf)
    rw [AList.lookup_insert_ne hkey, hnone hsettled.left]

theorem Inv.unregister {key : NodePublic} (hc : s.conns id = .stopped key) :
    Inv (log ++ [.removed id key])
      { s.set id (.leaving key) with clients := s.clients.erase key } := by
  have herased : Inv log { s with clients := s.clients.erase key } := by
    refine h.setClients (fun key' id' hl => ?_) fun id' key' hl hsettled => ?_
    · exact h.clients key' id' (lookup_erase_eq_some.mp hl).2
    · refine Option.eq_none_iff_forall_ne_some.mpr fun id'' hl' => ?_
      cases ((h.leaving id' key' hl).2 hsettled).symm.trans (lookup_erase_eq_some.mp hl').2
  refine herased.set (fun k hk => mem_append_left _ (h.keys id k (by rw [hc]; exact hk)))
    (.inr (by simp [hc])) (by simp) ?_
  rintro _ ⟨⟩
  exact ⟨by simp, fun _ => AList.lookup_erase _ _⟩

/-- Step: every action of a connection keeps the registry in agreement with the log. -/
theorem Inv.step (hs : s.step a = some (s', new)) : Inv (log ++ new) s' := by
  -- to another phase of the same key
  have hmove {id p} (hp : p.key = (s.conns id).key) (hold : s.conns id ≠ .done)
      (hnew : ∀ id', .finished id' ∉ new) (hl : ∀ key, p ≠ .leaving key) :
      Inv (log ++ new) (s.set id p) :=
    h.move (fun k hk => mem_append_left new (h.keys id k (hp ▸ hk))) hold hnew hl
  cases a <;> simp only [State.step] at hs
  case drop id =>
    cases hs
    exact h.finish (by simp)
  case accept id =>
    split at hs
    · next hc =>
      cases hs
      exact h.move nofun (by simp [hc]) (by simp) nofun
    · cases hs
  case recvClientKey id key =>
    split at hs
    · next hc =>
      cases hs
      exact h.move (by simp [Phase.key]) (by simp [hc]) (by simp) nofun
    · cases hs
  case registerClient id =>
    split at hs
    · next key hc =>
      cases hs
      exact h.register hc
    · cases hs
  case lookupDst id dst data =>
    split at hs
    · next key hc =>
      split at hs
      · cases hs
        exact hmove (by rw [hc]; rfl) (by simp [hc]) (by simp) nofun
      · cases hs
        simpa using h
    · cases hs
  case send id taken =>
    split at hs
    · next key target data hc =>
      cases hs
      refine hmove (by rw [hc]; rfl) (by simp [hc]) ?_ nofun
      cases taken <;> simp
    · cases hs
  case stop id =>
    split at hs
    · next key hc =>
      cases hs
      exact hmove (by rw [hc]; rfl) (by simp [hc]) (by simp) nofun
    · next key _ _ hc =>
      cases hs
      exact hmove (by rw [hc]; rfl) (by simp [hc]) (by simp) nofun
    · cases hs
  case unregisterClient id =>
    split at hs
    · next key hc =>
      split_ifs at hs with hcurrent
      · cases hs
        exact h.unregister hc
      · cases hs
        exact h.finish (by simp)
    · cases hs
  case broadcastPeerGone id room =>
    split at hs
    · cases hs
      exact h.finish (by simp)
    · cases hs

/-- `PeerGone` is for the key the connection has given up. -/
theorem Inv.lookup_of_peerGone {target : ℕ} {key : NodePublic} (hs : s.step a = some (s', new))
    (hsettled : Settled log) (hm : .peerGone target key ∈ new) : s.clients.lookup key = none := by
  cases a <;> simp only [State.step] at hs
  case broadcastPeerGone id room =>
    split at hs
    · next key' hc =>
      cases hs
      simp only [mem_append, mem_map, mem_singleton, reduceCtorEq, or_false,
        Event.peerGone.injEq] at hm
      obtain ⟨_, -, -, rfl⟩ := hm
      exact (h.leaving id key' hc).2 hsettled
    · cases hs
  all_goals
    repeat' split at hs
    all_goals
      cases hs
      try simp at hm

/-- A packet goes out under a key its sender opened. -/
theorem Inv.opened_of_recvPacket {sender target : ℕ} {src : NodePublic} {data : List Byte}
    (hs : s.step a = some (s', new)) (hm : .recvPacket sender target src data ∈ new) :
    .opened sender src ∈ log := by
  cases a <;> simp only [State.step] at hs
  case send id taken =>
    split at hs
    · next key target' data' hc =>
      cases hs
      cases taken with
      | false => cases hm
      | true =>
        cases mem_singleton.mp hm
        exact h.keys sender src (by rw [hc]; rfl)
    · cases hs
  all_goals
    repeat' split at hs
    all_goals
      cases hs
      try simp at hm

end

/-- A connection loses its key to its own end or to another that registers. -/
theorem clients_step {key : NodePublic} (hs : s.step a = some (s', new))
    (hl : s.clients.lookup key = some id) :
    s'.clients.lookup key = some id ∨ a = .unregisterClient id ∨
      ∃ id', a = .registerClient id' ∧ .registered id' key ∈ new := by
  cases a <;> simp only [State.step] at hs
  case registerClient id' =>
    split at hs
    · next key' hc =>
      cases hs
      by_cases hkey : key = key'
      · exact .inr (.inr ⟨id', rfl, by simp [hkey]⟩)
      · exact .inl ((AList.lookup_insert_ne hkey).trans hl)
    · cases hs
  case unregisterClient id' =>
    split at hs
    · next key' hc =>
      split_ifs at hs with hcurrent
      · cases hs
        by_cases hkey : key = key'
        · subst hkey
          exact .inr (.inl (congrArg _ (Option.mem_unique hcurrent hl)))
        · exact .inl ((AList.lookup_erase_ne hkey).trans hl)
      · cases hs
        exact .inl hl
    · cases hs
  all_goals
    repeat' split at hs
    all_goals
      cases hs
      try exact .inl hl

end

/-- A key has one connection, which opened under it, only its end or a replacement takes it away,
and packets carry their sender's key. If no connection registers a key while the `PeerGone` of an
earlier one is outstanding, `PeerGone` is sent for keys without a connection. -/
theorem registry_sound {log : List Event} {s : State} (h : registry.Run (fun _ _ => True) log s) :
    (∀ key id id', s.clients.lookup key = some id → s.clients.lookup key = some id' → id = id') ∧
      (∀ key id, s.clients.lookup key = some id → .opened id key ∈ log) ∧
      ∀ a s' new, s.step a = some (s', new) →
        (∀ key id, s.clients.lookup key = some id → s'.clients.lookup key = some id ∨
          a = .unregisterClient id ∨ ∃ id', a = .registerClient id' ∧ .registered id' key ∈ new) ∧
        (Settled log → ∀ target key, .peerGone target key ∈ new → s.clients.lookup key = none) ∧
        ∀ sender target src data, .recvPacket sender target src data ∈ new →
          .opened sender src ∈ log := by
  have hinv : Inv log s := h.invariant Inv ⟨nofun, nofun, nofun, nofun⟩
    fun _ _ _ _ _ hi hs _ => hi.step hs
  exact ⟨fun key id id' h1 h2 => Option.mem_unique h1 h2, hinv.clients, fun a s' new hs =>
    ⟨fun key id => clients_step hs, fun hsettled target key => hinv.lookup_of_peerGone hs hsettled,
      fun sender target src data => hinv.opened_of_recvPacket hs⟩⟩

def comesBack : List Action :=
  [.accept 0, .recvClientKey 0 1, .registerClient 0, .accept 1, .recvClientKey 1 7,
    .registerClient 1, .accept 2, .recvClientKey 2 1, .stop 0, .unregisterClient 0,
    .registerClient 2]

/-- A client that has come back is reported gone by the connection it replaced. -/
theorem peerGone_while_registered :
    ∃ log s, registry.Run (fun _ _ => True) log s ∧ s.clients.lookup 1 = some 2 ∧
      (s.step (.broadcastPeerGone 0 fun _ => true)).any fun r => r.2.contains (.peerGone 1 1) := by
  refine registry.exists_run _ comesBack _ ?_ ?_
  · decide +kernel
  · exact Machine.kept_of_forall (fun _ _ => trivial) ..

/-- Connection 2 has replaced 0 and has a packet for 1, which is leaving. -/
theorem registry_sound_registered : ∃ log s, registry.Run (fun _ _ => True) log s ∧ Settled log ∧
    s.clients.lookup 1 = some 2 ∧ .opened 2 1 ∈ log ∧ s.clients.lookup 7 = none ∧
    (s.step (.send 2 true)).any (fun r => r.2.contains (.recvPacket 2 1 1 [5])) ∧
    (s.step (.broadcastPeerGone 1 fun _ => true)).any fun r => r.2.contains (.peerGone 2 7) := by
  obtain ⟨log, s, hrun, rfl, hlookup, hsend, hgone⟩ := registry.exists_run (fun _ _ => True)
    [.accept 0, .recvClientKey 0 1, .registerClient 0, .accept 1, .recvClientKey 1 7,
      .registerClient 1, .accept 2, .recvClientKey 2 1, .registerClient 2, .stop 0,
      .unregisterClient 0, .lookupDst 2 7 [5], .stop 1, .unregisterClient 1]
    (fun log s => log = [.opened 0 1, .registered 0 1, .opened 1 7, .registered 1 7, .opened 2 1,
        .registered 2 1, .finished 0] ++ [.removed 1 7] ∧ s.clients.lookup 1 = some 2 ∧
      (s.step (.send 2 true)).any (fun r => r.2.contains (.recvPacket 2 1 1 [5])) ∧
      (s.step (.broadcastPeerGone 1 fun _ => true)).any fun r => r.2.contains (.peerGone 2 7))
    (by decide +kernel) (Machine.kept_of_forall (fun _ _ => trivial) ..)
  have hsettled : Settled ([.opened 0 1, .registered 0 1, .opened 1 7, .registered 1 7, .opened 2 1,
      .registered 2 1, .finished 0] ++ [.removed 1 7]) := by
    refine Machine.every_concat.mpr ⟨fun before o after heq id key _ => ?_, nofun⟩
    rintro ⟨id', hremoved, -⟩
    exact absurd (heq ▸ mem_append_left _ hremoved) (by simp)
  obtain ⟨-, hopened, hsteps⟩ := registry_sound hrun
  obtain ⟨⟨s', new⟩, hstep, hnew⟩ := (Option.any_eq_true _ _).mp hgone
  exact ⟨_, s, hrun, hsettled, hlookup, hopened 1 2 hlookup,
    (hsteps _ s' new hstep).2.1 hsettled 2 7 (by simpa using hnew), hsend, hgone⟩

end Rustscale.Derp
