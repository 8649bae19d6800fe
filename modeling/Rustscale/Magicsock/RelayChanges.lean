import Rustscale.Magicsock.RelayManager

/-! What the events do to the tables of work, one change at a time. -/
namespace Rustscale.RelayManager
open Disco HashTable List Effect State
open Udprelay (SocketAddr ServerEndpoint)

def AllocArgs.work (args : AllocArgs) (task : ℕ) : AllocWork :=
  ⟨args.authorizationGeneration, args.discoKeys, args.allocGen, task⟩

def HandshakeArgs.work (args : HandshakeArgs) (task : ℕ) : HandshakeWork :=
  ⟨args.authorizationGeneration, args.relayServer, args.handshakeGen, args.serverEndpoint.vni,
    args.serverEndpoint.lamportId, task⟩

/-- A piece of work that is registered. -/
inductive Item where
  | alloc (key : NodePublic × CandidatePeerRelay) (work : AllocWork)
  | handshake (key : NodePublic × DiscoPublic) (work : HandshakeWork)

def Item.task : Item → ℕ
  | .alloc _ work => work.task
  | .handshake _ work => work.task

def State.Has (s : State) : Item → Prop
  | .alloc key work => s.allocWork.lookup key = some work
  | .handshake key work => s.handshakeWork.lookup key = some work

def Effect.item : Effect → Option Item
  | .allocStarted task args => some (.alloc (args.peerKey, args.server) (args.work task))
  | .handshakeStarted task args =>
    some (.handshake (args.peerKey, args.serverEndpoint.serverDisco) (args.work task))
  | _ => none

def Effect.ends (task : ℕ) : Effect → Bool
  | .allocCancelled task' => task' == task
  | .allocDone task' => task' == task
  | .handshakeCancelled task' _ _ => task' == task
  | .handshakeDone task' _ => task' == task
  | _ => false

def Message.isChallenge : Message → Bool
  | .bindUdpRelayEndpointChallenge _ => true
  | _ => false

def Effect.isQuiet : Effect → Bool
  | .responded _ _ => true
  | .handed _ _ msg _ _ => !Message.isChallenge msg
  | .serversSet _ => true
  | .clearRelayServer _ _ _ => true
  | .sendPongViaRelay _ _ _ _ => true
  | _ => false

theorem Effect.item_of_isQuiet {e : Effect} (h : e.isQuiet = true) : e.item = none := by
  cases e <;> first | rfl | cases h

theorem Effect.ends_of_isQuiet {e : Effect} (h : e.isQuiet = true) (task : ℕ) :
    e.ends task = false := by
  cases e <;> first | rfl | cases h

def Vacant (s : State) (sdv : ServerDiscoVni) : Prop :=
  ∀ peer, s.handshakeBySdv.lookup sdv = some peer →
    s.handshakeWork.lookup (peer, sdv.serverDisco) = none

/-- Changes to the tables of work, but for completed handshakes and `stop_work`. -/
inductive Change : State → List Effect → State → Prop
  | quiet {s : State} {out : List Effect} (quiet : ∀ e ∈ out, e.isQuiet = true) : Change s out s
  | count {s : State} (handshakeGeneration allocGeneration : ℕ) :
      Change s [] { s with handshakeGeneration, allocGeneration }
  | allocStop {s : State} (drop : NodePublic × CandidatePeerRelay → Bool) :
      Change s ((s.allocWork.pairs.filter fun e => drop e.1).map fun e => .allocCancelled e.2.task)
        { s with allocWork := s.allocWork.retain fun key _ => !drop key }
  | allocDone {s : State} {key : NodePublic × CandidatePeerRelay} {work : AllocWork}
      (found : s.allocWork.lookup key = some work) :
      Change s [.allocDone work.task] { s with allocWork := s.allocWork.erase key }
  | allocStart {s : State} (args : AllocArgs) (allocGeneration : ℕ)
      (absent : s.allocWork.lookup (args.peerKey, args.server) = none) :
      Change s [.allocStarted s.spawned args] { s with
        allocGeneration
        allocWork := s.allocWork.insert (args.peerKey, args.server) (args.work s.spawned)
        spawned := s.spawned + 1 }
  | cancel {s : State} {peer : NodePublic} {sd : DiscoPublic} {work : HandshakeWork}
      (found : s.handshakeWork.lookup (peer, sd) = some work) :
      Change s [.handshakeCancelled work.task peer work.vni] { s with
        handshakeWork := s.handshakeWork.erase (peer, sd)
        handshakeBySdv := s.handshakeBySdv.erase ⟨sd, work.vni⟩
        handshakeAwaitingPong := s.handshakeAwaitingPong.retain fun apv p =>
          p != peer || apv.vni != work.vni }
  | start {s : State} (args : HandshakeArgs) (handshakeGeneration : ℕ)
      (absent : s.handshakeWork.lookup (args.peerKey, args.serverEndpoint.serverDisco) = none)
      (vacant : Vacant s ⟨args.serverEndpoint.serverDisco, args.serverEndpoint.vni⟩) :
      Change s [.handshakeStarted s.spawned args] { s with
        handshakeGeneration
        handshakeWork := s.handshakeWork.insert (args.peerKey, args.serverEndpoint.serverDisco)
          (args.work s.spawned)
        handshakeBySdv := s.handshakeBySdv.insert
          ⟨args.serverEndpoint.serverDisco, args.serverEndpoint.vni⟩ args.peerKey
        spawned := s.spawned + 1 }
  | challenge {s : State} {task : ℕ} {peer : NodePublic} {msg : Message} (apv : AddrPortVni)
      (isChallenge : Message.isChallenge msg = true)
      (absent : s.handshakeAwaitingPong.lookup apv = none) :
      Change s [.handed task peer msg apv.addr apv.vni]
        { s with handshakeAwaitingPong := s.handshakeAwaitingPong.insert apv peer }

/-- Changes one after another, with the effects they have together. -/
inductive Changes : State → List Effect → State → Prop
  | nil {s : State} : Changes s [] s
  | cons {s s1 s2 : State} {out out' : List Effect} (change : Change s out s1)
      (rest : Changes s1 out' s2) : Changes s (out ++ out') s2

section
variable {s s' s1 s2 : State} {out out' : List Effect}

theorem Change.changes (h : Change s out s') : Changes s out s' := by
  have := Changes.cons h .nil
  rwa [append_nil] at this

theorem Changes.trans (h : Changes s out s1) (h' : Changes s1 out' s2) :
    Changes s (out ++ out') s2 := by
  induction h with
  | nil => exact h'
  | cons change _ ih =>
    rw [append_assoc]
    exact .cons change (ih h')

theorem changes_quiet (h : ∀ e ∈ out, e.isQuiet = true) : Changes s out s := (Change.quiet h).changes

theorem Changes.serversByNodeKey (h : Changes s out s') :
    s'.serversByNodeKey = s.serversByNodeKey := by
  induction h with
  | nil => rfl
  | cons change _ ih =>
    rw [ih]
    cases change <;> rfl

def Effect.isInstall : Effect → Bool
  | .setRelay _ _ _ _ _ _ _ => true
  | _ => false

theorem Change.not_install (h : Change s out s') : ∀ e ∈ out, e.isInstall = false := by
  cases h with
  | quiet hq =>
    intro e he
    have := hq e he
    cases e <;> first | rfl | cases this
  | allocStop drop =>
    intro e he
    obtain ⟨x, -, rfl⟩ := mem_map.mp he
    rfl
  | _ => simp [isInstall]

theorem Changes.not_install (h : Changes s out s') : ∀ e ∈ out, e.isInstall = false := by
  induction h with
  | nil => simp
  | cons change _ ih =>
    intro e he
    rcases mem_append.mp he with he | he
    · exact change.not_install e he
    · exact ih e he

/-- A change starts no item, or one item under the next number. -/
theorem Change.items (h : Change s out s') : (∀ e ∈ out, e.item = none) ∧ s'.spawned = s.spawned ∨
    ∃ e item, out = [e] ∧ e.item = some item ∧ item.task = s.spawned ∧
      s'.spawned = s.spawned + 1 := by
  cases h with
  | quiet hq => exact .inl ⟨fun e he => item_of_isQuiet (hq e he), rfl⟩
  | count => exact .inl ⟨by simp, rfl⟩
  | allocStop drop =>
    refine .inl ⟨fun e he => ?_, rfl⟩
    obtain ⟨x, -, rfl⟩ := mem_map.mp he
    rfl
  | allocDone | cancel | challenge => exact .inl ⟨by simp [item], rfl⟩
  | allocStart | start => exact .inr ⟨_, _, rfl, rfl, rfl, rfl⟩

variable {peer : NodePublic} {work : HandshakeWork} {sdv : ServerDiscoVni} {spawns : ℕ → Bool}
  {peerKey : NodePublic} {peerDisco : DiscoPublic} {gen : ℕ} {se : ServerEndpoint}
  {server : CandidatePeerRelay} {ctx : Context} {result : HandshakeWorkResult}

theorem cancelHandshake_eq {sd : DiscoPublic}
    (hfound : s.handshakeWork.lookup (peer, sd) = some work) :
    s.cancelHandshake peer sd = ({ s with
      handshakeWork := s.handshakeWork.erase (peer, sd)
      handshakeBySdv := s.handshakeBySdv.erase ⟨sd, work.vni⟩
      handshakeAwaitingPong := s.handshakeAwaitingPong.retain fun apv p =>
        p != peer || apv.vni != work.vni }, [.handshakeCancelled work.task peer work.vni]) := by
  rw [cancelHandshake, hfound]

section
variable (s : State) (peer : NodePublic) (sd : DiscoPublic)

theorem changes_cancelHandshake :
    Changes s (s.cancelHandshake peer sd).2 (s.cancelHandshake peer sd).1 := by
  cases hfound : s.handshakeWork.lookup (peer, sd) with
  | none =>
    rw [cancelHandshake, hfound]
    exact .nil
  | some work =>
    rw [cancelHandshake_eq hfound]
    exact (Change.cancel hfound).changes

theorem lookup_cancelHandshake_self :
    (s.cancelHandshake peer sd).1.handshakeWork.lookup (peer, sd) = none := by
  cases hfound : s.handshakeWork.lookup (peer, sd) with
  | none =>
    rw [cancelHandshake, hfound]
    exact hfound
  | some work =>
    rw [cancelHandshake_eq hfound]
    exact AList.lookup_erase ..

end

theorem Vacant.cancelHandshake (h : Vacant s sdv) (peer : NodePublic) (sd : DiscoPublic) :
    Vacant (s.cancelHandshake peer sd).1 sdv := by
  cases hfound : s.handshakeWork.lookup (peer, sd) with
  | none =>
    rw [State.cancelHandshake, hfound]
    exact h
  | some work =>
    rw [cancelHandshake_eq hfound]
    intro p hp
    have habsent := h p (lookup_erase_eq_some.mp hp).2
    rw [Option.eq_none_iff_forall_ne_some] at habsent ⊢
    exact fun w hw => habsent w (lookup_erase_eq_some.mp hw).2

theorem vacant_cancelHandshake (h : s.handshakeBySdv.lookup sdv = some peer) :
    Vacant (s.cancelHandshake peer sdv.serverDisco).1 sdv := by
  intro p hp
  suffices hpeer : p = peer by rw [hpeer]; exact lookup_cancelHandshake_self ..
  cases hfound : s.handshakeWork.lookup (peer, sdv.serverDisco) with
  | none =>
    rw [cancelHandshake, hfound] at hp
    exact Option.mem_unique hp h
  | some work =>
    rw [cancelHandshake_eq hfound] at hp
    exact Option.some.inj ((lookup_erase_eq_some.mp hp).2.symm.trans h)

theorem changes_cancelHandshakes (keys : List (NodePublic × DiscoPublic)) : ∀ s : State,
    Changes s (s.cancelHandshakes keys).2 (s.cancelHandshakes keys).1 := by
  induction keys with
  | nil => exact fun s => .nil
  | cons key keys ih =>
    exact fun s => (changes_cancelHandshake s key.1 key.2).trans (ih _)

theorem changes_stopServerWork (s : State) (server : CandidatePeerRelay) :
    Changes s (s.stopServerWork server).2 (s.stopServerWork server).1 := by
  unfold stopServerWork
  exact (Change.allocStop fun key => key.2.nodeKey == server.nodeKey &&
    key.2.authorizationGeneration == server.authorizationGeneration).changes.trans
      (changes_cancelHandshakes _ _)

theorem changes_stopServers (removed : List CandidatePeerRelay) : ∀ s : State,
    Changes s (s.stopServers removed).2 (s.stopServers removed).1 := by
  induction removed with
  | nil => exact fun s => .nil
  | cons server removed ih =>
    intro s
    have hclear : ∀ e ∈ [clearRelayServer server.nodeKey server.discoKey
        server.authorizationGeneration], e.isQuiet = true := by simp [isQuiet]
    exact (changes_stopServerWork s server).trans ((changes_quiet hclear).trans (ih _))

theorem items_stopWork (s : State) (peer : NodePublic) :
    ∀ e ∈ (s.stopWork peer).2, e.item = none := by
  intro e he
  rcases mem_append.mp he with he | he <;> obtain ⟨x, -, rfl⟩ := mem_map.mp he <;> rfl

theorem not_install_stopWork (s : State) (peer : NodePublic) :
    ∀ e ∈ (s.stopWork peer).2, e.isInstall = false := by
  intro e he
  rcases mem_append.mp he with he | he <;> obtain ⟨x, -, rfl⟩ := mem_map.mp he <;> rfl

/-- Allocations for distinct servers, one after the other. -/
theorem changes_allocateServers (ctx : Context) (spawns : ℕ → Bool) (peerKey : NodePublic)
    (peerDisco : DiscoPublic) (gen : ℕ) (servers : List CandidatePeerRelay) : ∀ s : State,
    servers.Nodup → (∀ server ∈ servers, s.allocWork.lookup (peerKey, server) = none) →
    Changes s (s.allocateServers ctx spawns peerKey peerDisco gen servers).2
      (s.allocateServers ctx spawns peerKey peerDisco gen servers).1 := by
  induction servers with
  | nil => exact fun s _ _ => .nil
  | cons server servers ih =>
    intro s hnodup habsent
    rw [nodup_cons] at hnodup
    rw [allocateServers]
    dsimp only
    split_ifs
    · refine .cons (Change.allocStart ⟨peerKey, peerDisco, gen, server,
        sortPair ctx.ourDiscoPublic peerDisco, nextGen s.allocGeneration⟩
        (nextGen s.allocGeneration) (habsent server (by simp))) (ih _ hnodup.2 ?_)
      intro other hother
      have hne : (peerKey, other) ≠ (peerKey, server) := by
        rintro heq
        exact hnodup.1 ((Prod.mk.inj heq).2 ▸ hother)
      rw [AList.lookup_insert_ne hne]
      exact habsent other (by simp [hother])
    · exact .cons (Change.count s.handshakeGeneration (nextGen s.allocGeneration))
        (ih _ hnodup.2 fun other hother => habsent other (by simp [hother]))

theorem changes_startHandshake (absent : s.handshakeWork.lookup (peerKey, se.serverDisco) = none)
    (vacant : Vacant s ⟨se.serverDisco, se.vni⟩) :
    Changes s (s.startHandshake spawns peerKey peerDisco gen se server).2
      (s.startHandshake spawns peerKey peerDisco gen se server).1 := by
  unfold startHandshake
  dsimp only
  split_ifs
  · exact (Change.start ⟨peerKey, peerDisco, gen, server, se, nextGen s.handshakeGeneration⟩
      (nextGen s.handshakeGeneration) absent vacant).changes
  · exact (Change.count (nextGen s.handshakeGeneration) s.allocGeneration).changes

theorem changes_replaceOwn (vacant : Vacant s ⟨se.serverDisco, se.vni⟩) :
    Changes s (s.replaceOwn spawns peerKey peerDisco gen se server).2
      (s.replaceOwn spawns peerKey peerDisco gen se server).1 := by
  unfold replaceOwn
  split_ifs
  · exact .nil
  · exact (changes_cancelHandshake s peerKey se.serverDisco).trans
      (changes_startHandshake (lookup_cancelHandshake_self ..) (vacant.cancelHandshake _ _))

section
variable (s : State) (ctx : Context) (spawns : ℕ → Bool)

theorem changes_handleNewServerEndpoint
    (peerKey : NodePublic) (peerDisco : DiscoPublic) (gen : ℕ) (se : ServerEndpoint)
    (server : Option CandidatePeerRelay) :
    Changes s (s.handleNewServerEndpoint ctx spawns peerKey peerDisco gen se server).2
      (s.handleNewServerEndpoint ctx spawns peerKey peerDisco gen se server).1 := by
  unfold handleNewServerEndpoint
  split_ifs
  · exact .nil
  split
  · exact .nil
  split_ifs
  · exact .nil
  split
  · next hnone =>
    refine changes_replaceOwn fun p hp => ?_
    rw [hnone] at hp
    cases hp
  · next existing hindex =>
    split_ifs
    · exact .nil
    · exact (changes_cancelHandshake s existing se.serverDisco).trans
        (changes_replaceOwn (vacant_cancelHandshake hindex))

theorem changes_handleAllocWorkDone
    (result : AllocWorkResult) : Changes s (s.handleAllocWorkDone ctx spawns result).2
      (s.handleAllocWorkDone ctx spawns result).1 := by
  unfold handleAllocWorkDone
  split
  · exact .nil
  · next work hfound =>
    have hdone := (Change.allocDone hfound).changes
    dsimp only
    split_ifs
    · exact .nil
    · exact hdone
    · split
      · exact hdone
      · exact hdone.trans (changes_handleNewServerEndpoint ..)

end

/-- What `handle_alloc_work_done` compares. -/
def AllocWork.Matches (work : AllocWork) (result : AllocWorkResult) : Prop :=
  work.authorizationGeneration = result.authorizationGeneration

def HandshakeWork.Matches (work : HandshakeWork) (result : HandshakeWorkResult) : Prop :=
  work.authorizationGeneration = result.authorizationGeneration ∧
    work.handshakeGeneration = result.handshakeGeneration ∧ work.relayServer = result.relayServer

theorem handleAllocWorkDone_of_not_matches (ctx : Context) (spawns : ℕ → Bool)
    {result : AllocWorkResult}
    (h : ∀ work, s.allocWork.lookup (result.peerKey, result.server) = some work →
      ¬work.Matches result) : s.handleAllocWorkDone ctx spawns result = (s, []) := by
  unfold handleAllocWorkDone
  split
  · rfl
  · next work hfound => exact if_pos (h work hfound)

def State.retire (s : State) (result : HandshakeWorkResult) : State :=
  { s with
    handshakeBySdv := s.handshakeBySdv.erase ⟨result.serverDisco, result.vni⟩
    handshakeWork := s.handshakeWork.erase (result.peerKey, result.serverDisco)
    handshakeAwaitingPong := s.handshakeAwaitingPong.retain fun _ peer => peer != result.peerKey }

/-- What is checked before a path is installed for a result. -/
structure Installs (s : State) (ctx : Context) (result : HandshakeWorkResult)
    (pongFrom : SocketAddr) : Prop where
  pong : result.pongFrom = some pongFrom
  generation : ctx.peerAuthorizationGeneration result.peerKey = some result.authorizationGeneration
  disco : ctx.peerDiscoKey result.peerKey = some result.peerDisco
  server : s.hasCurrentServer ctx result.relayServer = true

/-- What the manager does with the result of a handshake. -/
inductive Completes (s : State) (ctx : Context) (result : HandshakeWorkResult) :
    List Effect → State → Prop
  | ignored (differs : ∀ work,
      s.handshakeWork.lookup (result.peerKey, result.serverDisco) = some work →
        ¬work.Matches result) : Completes s ctx result [] s
  | retired {work : HandshakeWork}
      (found : s.handshakeWork.lookup (result.peerKey, result.serverDisco) = some work)
      (same : work.Matches result) :
      Completes s ctx result [.handshakeDone work.task result.peerKey] (s.retire result)
  | installed {work : HandshakeWork} {pongFrom : SocketAddr}
      (found : s.handshakeWork.lookup (result.peerKey, result.serverDisco) = some work)
      (same : work.Matches result) (installs : Installs s ctx result pongFrom) :
      Completes s ctx result [.handshakeDone work.task result.peerKey,
        .setRelay result.peerKey result.peerDisco result.authorizationGeneration
          result.relayServer.nodeKey result.relayServer.authorizationGeneration pongFrom
          result.vni] (s.retire result)

/-- The result of a handshake is one of the completion cases. -/
theorem handleHandshakeWorkDone_completes (s : State) (ctx : Context)
    (result : HandshakeWorkResult) :
    Completes s ctx result (s.handleHandshakeWorkDone ctx result).2
      (s.handleHandshakeWorkDone ctx result).1 := by
  unfold handleHandshakeWorkDone
  split
  · next hnone =>
    refine .ignored fun work hfound => ?_
    rw [hnone] at hfound
    cases hfound
  · next work hfound =>
    split
    · next hdiffers =>
      refine .ignored fun work' hfound' hsame => ?_
      obtain rfl := Option.mem_unique hfound hfound'
      rcases hdiffers with h | h | h
      · exact h hsame.1
      · exact h hsame.2.1
      · exact h hsame.2.2
    · next hsame =>
      push Not at hsame
      dsimp only
      split
      · exact .retired hfound hsame
      · next pongFrom hpong =>
        split
        · exact .retired hfound hsame
        · next hchecks =>
          push Not at hchecks
          exact .installed hfound hsame
            ⟨hpong, hchecks.1, hchecks.2.1, Bool.eq_true_of_not_eq_false hchecks.2.2⟩

section
variable (h : Completes s ctx result out s')
include h

theorem Completes.done_mem
    (hfound : s.handshakeWork.lookup (result.peerKey, result.serverDisco) = some work)
    (hsame : work.Matches result) : .handshakeDone work.task result.peerKey ∈ out := by
  cases h with
  | ignored differs => exact absurd hsame (differs work hfound)
  | retired found | installed found =>
    rw [Option.mem_unique hfound found]
    simp

theorem Completes.install {disco : DiscoPublic} {generation : ℕ} {server : NodePublic}
    {serverGeneration : ℕ} {addr : SocketAddr} {vni : ℕ}
    (hset : .setRelay peer disco generation server serverGeneration addr vni ∈ out) :
    (∃ work, s.handshakeWork.lookup (result.peerKey, result.serverDisco) = some work ∧
      work.Matches result) ∧ Installs s ctx result addr ∧ peer = result.peerKey ∧
      disco = result.peerDisco ∧ generation = result.authorizationGeneration ∧
      server = result.relayServer.nodeKey ∧
      serverGeneration = result.relayServer.authorizationGeneration ∧ vni = result.vni := by
  cases h with
  | ignored => cases hset
  | retired => simp at hset
  | installed found same installs =>
    simp only [mem_cons, not_mem_nil, or_false, reduceCtorEq, false_or, setRelay.injEq] at hset
    obtain ⟨rfl, rfl, rfl, rfl, rfl, rfl, rfl⟩ := hset
    exact ⟨⟨_, found, same⟩, installs, rfl, rfl, rfl, rfl, rfl, rfl⟩

theorem Completes.serversByNodeKey : s'.serversByNodeKey = s.serversByNodeKey := by
  cases h <;> rfl

theorem Completes.items : (∀ e ∈ out, e.item = none) ∧ s'.spawned = s.spawned := by
  cases h with
  | ignored | retired | installed => exact ⟨by simp [item], rfl⟩

end

section
variable (s : State) (ctx : Context) (msg : RelayDiscoMsg)

theorem quiet_routeProbe (hmsg : Message.isChallenge msg.msg = false) :
    ∀ e ∈ s.routeProbe ctx msg, e.isQuiet = true := by
  unfold routeProbe
  split
  · simp
  · split <;> simp [isQuiet, hmsg]

/-- A disco message makes changes of the known kinds. -/
theorem changes_handleRxDiscoMsg :
    Changes s (s.handleRxDiscoMsg ctx msg).2 (s.handleRxDiscoMsg ctx msg).1 := by
  unfold handleRxDiscoMsg
  split
  · exact .nil
  split
  · split
    · exact .nil
    · split
      · exact .nil
      · dsimp only
        split
        · exact .nil
        · exact changes_quiet (by simp [isQuiet])
  · next common hmsg =>
    split
    · exact .nil
    split
    · exact .nil
    split_ifs with hskip
    · exact .nil
    · simp only [Bool.or_eq_true, not_or, Bool.not_eq_true, Option.isSome_eq_false_iff,
        Option.isNone_iff_eq_none] at hskip
      exact (Change.challenge ⟨msg.src, msg.vni⟩ (by rw [hmsg]; rfl) hskip.2).changes
  · next ping hmsg =>
    refine changes_quiet fun e he => ?_
    rcases mem_append.mp he with he | he
    · split_ifs at he
      · rw [mem_singleton.mp he]
        rfl
      · cases he
    · exact quiet_routeProbe s ctx msg (by rw [hmsg]; rfl) e he
  · next pong hmsg => exact changes_quiet (quiet_routeProbe s ctx msg (by rw [hmsg]; rfl))
  · exact .nil

end

def State.serversAfter (s : State) (ctx : Context) :
    RelayEvent → HashTable NodePublic CandidatePeerRelay
  | .serversUpdate servers => ofList ((servers.filter fun server =>
      server.isValid && relayServerCurrent ctx server).map fun server => (server.nodeKey, server))
  | .derpHomeChange nodeKey region =>
    match s.serversByNodeKey.lookup nodeKey with
    | none => s.serversByNodeKey
    | some server => s.serversByNodeKey.insert nodeKey { server with derpHomeRegion := region }
  | _ => s.serversByNodeKey

/-- Servers are registered under their own keys. -/
def Keyed (s : State) : Prop :=
  ∀ key server, s.serversByNodeKey.lookup key = some server → server.nodeKey = key

theorem nodup_servers (h : Keyed s) : (s.serversByNodeKey.pairs.map (·.2)).Nodup := by
  have hkeys : (s.serversByNodeKey.pairs.map (·.2)).map (·.nodeKey) = s.serversByNodeKey.keys := by
    rw [map_map, pairs, map_map, AList.keys, List.keys]
    refine map_congr_left fun e he => h e.1 e.2 ?_
    exact (mem_pairs).mp (mem_map_of_mem he)
  exact List.Nodup.of_map (·.nodeKey) (hkeys ▸ s.serversByNodeKey.keys_nodup)

theorem absent_of_hasActiveWorkFor (h : s.hasActiveWorkFor peerKey = false)
    (server : CandidatePeerRelay) :
    s.allocWork.lookup (peerKey, server) = none := by
  rw [Option.eq_none_iff_forall_ne_some]
  intro work hwork
  rw [hasActiveWorkFor, Bool.or_eq_false_iff, any_eq_false] at h
  have hmem : ((peerKey, server), work) ∈ s.allocWork.pairs := mem_pairs.mpr hwork
  simpa using h.1 _ hmem

/-- Each event cancels, completes or makes changes of the known kinds. -/
theorem dispatch_cases (h : Keyed s) (ctx : Context) (spawns : ℕ → Bool) (event : RelayEvent) :
    (∃ peer, event = .cancelWork peer) ∨ (∃ result, event = .handshakeWorkDone result) ∨
      Changes { s with serversByNodeKey := s.serversAfter ctx event }
        (s.dispatch ctx spawns event).2 (s.dispatch ctx spawns event).1 := by
  refine or_iff_not_imp_left.mpr fun hstop => or_iff_not_imp_left.mpr fun hdone => ?_
  cases event with
  | startDiscovery peerKey peerDisco gen =>
    simp only [dispatch]
    split_ifs with hstart
    · exact changes_allocateServers ctx spawns peerKey peerDisco gen _ s (nodup_servers h)
        fun server _ => absent_of_hasActiveWorkFor hstart.2 server
    · exact .nil
  | cancelWork peerKey => exact absurd ⟨peerKey, rfl⟩ hstop
  | serversUpdate servers =>
    have hset : ∀ servers, ∀ e ∈ [serversSet servers], e.isQuiet = true := by
      simp [isQuiet]
    exact (changes_quiet (hset _)).trans (changes_stopServers _ _)
  | newServerEndpoint peerKey peerDisco gen se server =>
    exact changes_handleNewServerEndpoint s ctx spawns peerKey peerDisco gen se server
  | discoMsg msg => exact changes_handleRxDiscoMsg s ctx msg
  | derpHomeChange nodeKey region =>
    simp only [dispatch, serversAfter]
    cases s.serversByNodeKey.lookup nodeKey <;> exact .nil
  | allocWorkDone result => exact changes_handleAllocWorkDone s ctx spawns result
  | handshakeWorkDone result => exact absurd ⟨result, rfl⟩ hdone

end

end Rustscale.RelayManager
