import Rustscale.Udprelay.System

/-! What one step of a relay server can do. -/
namespace Rustscale.Udprelay
open Octets Bytes Disco Option Udprelay.System

/-- The two handlers that a packet can reach. -/
inductive Handles (crypto : Crypto) (c : ServerInner) (s : System) (e : RelayEndpoint) (id : ℕ) :
    Option Handled → Prop
  | control (src : SocketAddr) (payload : List Byte) (macSecrets : List (BitVec 256)) (now : ℕ)
      (nonce : BitVec 192) (reader : s.reader = .armed id src payload macSecrets now) :
      Handles crypto c s e id
        (e.handleSealedDiscoControlMsg crypto src payload c.discoPublic macSecrets now nonce)
  | data (src : SocketAddr) (packet : List Byte) (now : ℕ)
      (reader : s.reader = .data id src packet) :
      Handles crypto c s e id (e.handleDataPacket src packet now)

/-- The steps of the read loop outside the endpoint. -/
inductive Reads (s : System) : Reader → List Event → Prop
  | receive (ip : BitVec 32) (port : BitVec 16) (packet : List Byte) (idle : s.reader = .idle) :
      Reads s (.received (.v4 ip port) packet) [.received (.v4 ip port) packet]
  | enter (src : SocketAddr) (packet : List Byte) (reader : s.reader = .received src packet)
      (gate : s.writer = .none) : Reads s (.admitted src packet) []
  | check (src : SocketAddr) (packet : List Byte) (reader : s.reader = .admitted src packet) :
      Reads s (.checked src packet) []
  | drop : Reads s .idle []
  | control (id : ℕ) (src : SocketAddr) (packet : List Byte) (gh : GeneveHeader)
      (payload : List Byte) (reader : s.reader = .checked src packet) (free : s.drain = none)
      (decoded : GeneveHeader.decode packet = some (gh, payload))
      (found : s.server.state.endpointsByVni.lookup gh.vni = some id) :
      Reads s (.control id src payload) []
  | data (id : ℕ) (src : SocketAddr) (packet : List Byte) (gh : GeneveHeader)
      (payload : List Byte) (reader : s.reader = .checked src packet) (free : s.drain = none)
      (decoded : GeneveHeader.decode packet = some (gh, payload))
      (found : s.server.state.endpointsByVni.lookup gh.vni = some id) :
      Reads s (.data id src packet) []
  | send (id : ℕ) (dst : SocketAddr) (packet : List Byte)
      (reader : s.reader = .replying id dst packet) : Reads s .idle [.sent id dst packet]

/-- Steps that only change flags. -/
inductive Flags (s : System) : System → Prop
  | disableGate (writer : s.writer = .none) (reader : s.reader.holdsGate = false) :
      Flags s { s with writer := .entered }
  | disableDone (writer : s.writer = .drained) : Flags s { s with writer := .none }
  | enableTest (enabling : ℕ) : Flags s { s with enabling }
  | closeStore : Flags s { s with
      server := { s.server with closed := true }
      closing := s.closing + 1 }
  | enableStore (free : s.drain = none) : Flags s { s.withState
      { s.server.state with serverClosed := false } with enabling := s.enabling - 1 }

/-- Steps that take the lock of the maps to close endpoints. -/
inductive Locks (s : System) : System → Prop
  | gc (now : ℕ) : Locks s { s with
      drain := some (.gc now (s.server.state.endpointsByDisco.entries.map fun e => (e.1, e.2)) []) }
  | disable (writer : s.writer = .entered) : Locks s { s.withState
      { s.server.state with serverClosed := true } with
        drain := some (.disable (s.server.state.endpointsByVni.entries.map (·.2))) }
  | close (closing : 0 < s.closing) : Locks s { s.withState
      { s.server.state with serverClosed := true } with
        drain := some (.close (s.server.state.endpointsByVni.entries.map (·.2)))
        closing := s.closing - 1 }

/-- An endpoint to close, for whom, and what is left to do. -/
inductive Visits (c : ServerInner) (s : System) : ℕ → Closer → Drain → Prop
  | gc (now k id : ℕ) (e : RelayEndpoint) (pair : DiscoPublic × DiscoPublic)
      (todo removed : List ((DiscoPublic × DiscoPublic) × ℕ))
      (drain : s.drain = some (.gc now todo removed)) (next : todo[k]? = some (pair, id))
      (found : s.server.endpoints[id]? = some e) :
      Visits c s id .gc (.gc now (todo.eraseIdx k) (removed ++ [(pair, e.vni)]))
  | disable (k id : ℕ) (todo : List ℕ) (drain : s.drain = some (.disable todo))
      (next : todo[k]? = some id) : Visits c s id .disable (.disable (todo.eraseIdx k))
  | close (k id : ℕ) (todo : List ℕ) (drain : s.drain = some (.close todo))
      (next : todo[k]? = some id) : Visits c s id .close (.close (todo.eraseIdx k))

/-- The last step of closing endpoints. -/
inductive Finishes (s : System) : System → Prop
  | gc (now : ℕ) (removed : List ((DiscoPublic × DiscoPublic) × ℕ))
      (drain : s.drain = some (.gc now [] removed)) : Finishes s
        { s.withState (removeAll s.server.state removed) with drain := none }
  | disable (drain : s.drain = some (.disable [])) : Finishes s
      { s.withState { cleared s.server.state with macSecretRotatedAt := none } with
        drain := none
        writer := .drained }
  | close (drain : s.drain = some (.close [])) : Finishes s
      { s.withState (cleared s.server.state) with drain := none }

def rotated (c : ServerInner) (s : System) (now : ℕ) (fresh : BitVec 256) : ServerState :=
  maybeRotateMacSecret s.server.state now c.macSecretRotationInterval fresh

def drawn (c : ServerInner) (s : System) (now : ℕ) (fresh : BitVec 256) : List Event :=
  if rotationDue s.server.state now c.macSecretRotationInterval then [.drew fresh] else []

/-- All steps of the system, each with what it logs. -/
inductive Moves (crypto : Crypto) (c : ServerInner) (s : System) : System → List Event → Prop
  | read (r : Reader) (log : List Event) (reads : Reads s r log) :
      Moves crypto c s { s with reader := r } log
  | arm (now : ℕ) (fresh : BitVec 256) (id : ℕ) (src : SocketAddr) (payload : List Byte)
      (free : s.drain = none) (reader : s.reader = .control id src payload) :
      Moves crypto c s { s.withState (rotated c s now fresh) with
        reader := .armed id src payload (rotated c s now fresh).macSecrets now }
        (drawn c s now fresh)
  | rotate (now : ℕ) (fresh : BitVec 256) (free : s.drain = none) :
      Moves crypto c s (s.withState (rotated c s now fresh)) (drawn c s now fresh)
  | handle (id : ℕ) (e : RelayEndpoint) (r : Option Handled)
      (found : s.server.endpoints[id]? = some e) (handles : Handles crypto c s e id r) :
      Moves crypto c s (s.handled id e r).1 (s.handled id e r).2
  | allocate (discoA discoB : DiscoPublic) (now : ℕ) (free : s.drain = none)
      (r : Except UdprelayError ServerEndpoint) (server : Server)
      (allocated : s.server.allocateEndpoint c discoA discoB now = some (r, server)) :
      Moves crypto c s { s with server } (told s.server server r)
  | advertise (addrPorts : List SocketAddr) (free : s.drain = none) :
      Moves crypto c s (s.withState { s.server.state with staticAddrPorts := addrPorts })
        [.advertised addrPorts]
  | flag (s' : System) (flags : Flags s s') : Moves crypto c s s' []
  | lock (s' : System) (free : s.drain = none) (locks : Locks s s') : Moves crypto c s s' []
  | skip (now k : ℕ) (todo removed : List ((DiscoPublic × DiscoPublic) × ℕ))
      (drain : s.drain = some (.gc now todo removed)) :
      Moves crypto c s { s with drain := some (.gc now (todo.eraseIdx k) removed) } []
  | visit (id : ℕ) (e : RelayEndpoint) (closer : Closer) (drain : Drain)
      (visits : Visits c s id closer drain) (found : s.server.endpoints[id]? = some e) :
      Moves crypto c s ({ s with drain := some drain }.withInner id e
        { e.inner with closed := true }) [.closed id closer]
  | finish (s' : System) (finishes : Finishes s s') : Moves crypto c s s' []

theorem mem_told {before server : Server} {r : Except UdprelayError ServerEndpoint} {ev : Event}
    (h : ev ∈ told before server r) :
    ∃ id pair vni lamportId, ev = .allocated id pair vni lamportId := by
  unfold told at h
  split at h
  · split at h
    · exact ⟨_, _, _, _, List.mem_singleton.mp h⟩
    · cases h
  · cases h

section
variable {crypto : Crypto} {c : ServerInner} {s s' : System} {a : Action} {log : List Event}

/-- The reader's steps are moves. -/
theorem moves_of_readStep (h : s.readStep crypto c a = some (s', log)) :
    Moves crypto c s s' log := by
  cases a <;> simp only [readStep, reduceCtorEq] at h
  case receive ip port packet =>
    split at h
    · next hr =>
      split_ifs at h
      cases h
      exact .read _ _ (.receive ip port packet hr)
    · cases h
  case enter =>
    split at h
    · next src packet hr hw =>
      cases h
      exact .read _ _ (.enter src packet hr hw)
    · cases h
  case check =>
    split at h
    · next src packet hr hd =>
      cases h
      refine .read _ _ ?_
      split_ifs
      · exact .drop
      · exact .check src packet hr
    · cases h
  case fetch =>
    split at h
    · next src packet hr hd =>
      cases h
      refine .read _ _ ?_
      unfold lookup
      split
      · exact .drop
      · next gh payload hdec =>
        split
        · exact .drop
        · next id hid =>
          split_ifs
          · exact .drop
          · exact .control id src packet gh payload hr hd hdec hid
          · exact .data id src packet gh payload hr hd hdec hid
    · cases h
  case takeSecrets now fresh =>
    split at h
    · next id src payload hr hd =>
      cases h
      exact .arm now fresh id src payload hd hr
    · cases h
  case handleControl nonce =>
    split at h
    · next id src payload macSecrets now hr =>
      simp only [bind_eq_bind, bind_eq_some_iff, pure, some.injEq] at h
      obtain ⟨e, he, h⟩ := h
      obtain ⟨rfl, rfl⟩ := Prod.ext_iff.mp h
      exact .handle id e _ he (.control src payload macSecrets now nonce hr)
    · cases h
  case handleData now =>
    split at h
    · next id src packet hr =>
      simp only [bind_eq_bind, bind_eq_some_iff, pure, some.injEq] at h
      obtain ⟨e, he, h⟩ := h
      obtain ⟨rfl, rfl⟩ := Prod.ext_iff.mp h
      exact .handle id e _ he (.data src packet now hr)
    · cases h
  case send =>
    split at h
    · next id dst packet hr =>
      cases h
      exact .read _ _ (.send id dst packet hr)
    · cases h

/-- The closer's visits are moves. -/
theorem moves_of_visitStep {k : ℕ} (h : s.visitStep c k = some (s', log)) :
    Moves crypto c s s' log := by
  unfold visitStep at h
  split at h
  · cases h
  · next now todo removed hd =>
    simp only [bind_eq_bind, bind_eq_some_iff] at h
    obtain ⟨⟨pair, id⟩, hk, e, he, h⟩ := h
    split_ifs at h
    · simp only [closeEndpoint, bind_eq_bind, bind_eq_some_iff, pure, some.injEq] at h
      obtain ⟨e', he', h⟩ := h
      cases h
      exact .visit id e' .gc _ (.gc now k id e pair todo removed hd hk he) he'
    · cases h
      exact .skip now k todo removed hd
  · next todo hd =>
    simp only [closeEndpoint, bind_eq_bind, bind_eq_some_iff, pure, some.injEq] at h
    obtain ⟨id, hk, e, he, h⟩ := h
    cases h
    exact .visit id e .disable _ (.disable k id todo hd hk) he
  · next todo hd =>
    simp only [closeEndpoint, bind_eq_bind, bind_eq_some_iff, pure, some.injEq] at h
    obtain ⟨id, hk, e, he, h⟩ := h
    cases h
    exact .visit id e .close _ (.close k id todo hd hk) he

theorem moves_of_finishStep (h : s.finishStep = some (s', log)) : Moves crypto c s s' log := by
  unfold finishStep at h
  split at h
  · next now removed hd =>
    cases h
    exact .finish _ (.gc now removed hd)
  · next hd =>
    cases h
    exact .finish _ (.disable hd)
  · next hd =>
    cases h
    exact .finish _ (.close hd)
  · cases h

theorem moves_of_callStep (hd : s.drain = none) (h : s.callStep c a = some (s', log)) :
    Moves crypto c s s' log := by
  cases a with
  | allocate discoA discoB now =>
    simp only [callStep, bind_eq_bind, bind_eq_some_iff, pure, some.injEq] at h
    obtain ⟨⟨r, server⟩, halloc, h⟩ := h
    cases h
    exact .allocate discoA discoB now hd r server halloc
  | setStaticAddrPorts addrPorts =>
    cases h
    exact .advertise addrPorts hd
  | getMacSecrets now fresh =>
    cases h
    exact .rotate now fresh hd
  | gc now =>
    cases h
    exact .lock _ hd (.gc now)
  | disable =>
    simp only [callStep] at h
    split_ifs at h with hw
    cases h
    exact .lock _ hd (.disable hw)
  | enableStore =>
    simp only [callStep] at h
    split_ifs at h
    cases h
    exact .flag _ (.enableStore hd)
  | close =>
    simp only [callStep] at h
    split_ifs at h with hc
    cases h
    exact .lock _ hd (.close hc)
  | _ => cases h

theorem moves_of_freeStep (h : s.freeStep a = some (s', log)) : Moves crypto c s s' log := by
  cases a <;> simp only [freeStep, reduceCtorEq] at h
  case disableGate =>
    split_ifs at h with hw
    cases h
    exact .flag _ (.disableGate hw.1 hw.2)
  case disableDone =>
    split_ifs at h with hw
    cases h
    exact .flag _ (.disableDone hw)
  case enableTest =>
    split_ifs at h
    · cases h
      exact .flag _ (.enableTest s.enabling)
    · cases h
      exact .flag _ (.enableTest (s.enabling + 1))
  case closeStore =>
    cases h
    exact .flag _ .closeStore

theorem moves_of_step (h : s.step crypto c a = some (s', log)) : Moves crypto c s s' log := by
  unfold step at h
  split at h
  case h_9 => exact moves_of_visitStep h
  case h_10 => exact moves_of_finishStep h
  case h_11 | h_12 | h_13 | h_14 => exact moves_of_freeStep h
  case h_15 | h_16 | h_17 | h_18 | h_19 | h_20 | h_21 =>
    split_ifs at h with hd
    exact moves_of_callStep (by simpa using hd) h
  all_goals exact moves_of_readStep h

end

end Rustscale.Udprelay
