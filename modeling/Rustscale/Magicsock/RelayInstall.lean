import Rustscale.Magicsock.RelayIndex
import Rustscale.Magicsock.RelayRouting

/-! The installation of relays. -/
namespace Rustscale.RelayManager
open Disco HashTable Machine List Event
open Udprelay (SocketAddr ServerEndpoint)

def Event.isUpdate : Event → Bool
  | .took (.serversUpdate _) _ => true
  | _ => false

def LastUpdate (log : List Event) (servers : List CandidatePeerRelay) : Prop :=
  ∃ before sender after, log = before ++ .took (.serversUpdate servers) sender :: after ∧
    ∀ e ∈ after, e.isUpdate = false

def Listed (log : List Event) (server : NodePublic) (disco : DiscoPublic) (generation : ℕ) : Prop :=
  ∃ servers, LastUpdate log servers ∧ ∃ listed ∈ servers, listed.nodeKey = server ∧
    listed.discoKey = disco ∧ listed.authorizationGeneration = generation

def Event.handshake : Event → Option (ℕ × HandshakeArgs)
  | .did (.handshakeStarted task args) => some (task, args)
  | _ => none

/-- No two handshakes of a peer and a server were given the same number. -/
def OwnNumbers (log : List Event) : Prop :=
  ∀ x ∈ log.filterMap Event.handshake, ∀ y ∈ log.filterMap Event.handshake,
    x.2.peerKey = y.2.peerKey → x.2.serverEndpoint.serverDisco = y.2.serverEndpoint.serverDisco →
    x.2.handshakeGen = y.2.handshakeGen → x.1 = y.1

instance (log : List Event) : Decidable (OwnNumbers log) :=
  inferInstanceAs (Decidable (∀ x ∈ _, ∀ y ∈ _, _ → _ → _ → _))

/-- What holds when a relay path is installed. -/
structure Installation (log : List Event) (s : System) (peer : NodePublic) (disco : DiscoPublic)
    (generation : ℕ) (server : NodePublic) (serverGeneration : ℕ) (addr : SocketAddr) (vni : ℕ) :
    Prop where
  generation_eq : s.ctx.peerAuthorizationGeneration peer = some generation
  disco_eq : s.ctx.peerDiscoKey peer = some disco
  server_mem : ∃ current, s.state.serversByNodeKey.lookup server = some current ∧
    s.ctx.peerDiscoKey server = some current.discoKey ∧
    current.authorizationGeneration = serverGeneration ∧
    Listed log server current.discoKey serverGeneration
  handshake : ∃ task args, Running log task args ∧ args.peerKey = peer ∧
    args.relayServer.nodeKey = server ∧
    args.relayServer.authorizationGeneration = serverGeneration ∧ Ponged log task addr vni

section
variable {log new : List Event} {s : State} {ctx : Context}

theorem LastUpdate.append {servers : List CandidatePeerRelay} (h : LastUpdate log servers)
    (hnew : ∀ e ∈ new, e.isUpdate = false) : LastUpdate (log ++ new) servers := by
  obtain ⟨before, sender, after, rfl, hafter⟩ := h
  refine ⟨before, sender, after ++ new, by simp, fun e he => ?_⟩
  rcases mem_append.mp he with he | he
  · exact hafter e he
  · exact hnew e he

/-- The servers of the set are those that the last update lists. -/
def AllListed (log : List Event) (s : State) : Prop := ∀ key server,
  s.serversByNodeKey.lookup key = some server →
    Listed log key server.discoKey server.authorizationGeneration

theorem AllListed.keep {s' : State} (h : AllListed log s)
    (hsame : ∀ key, s'.serversByNodeKey.lookup key = s.serversByNodeKey.lookup key)
    (hnew : ∀ e ∈ new, e.isUpdate = false) : AllListed (log ++ new) s' := by
  intro key server hserver
  obtain ⟨servers, hlast, hlisted⟩ := h key server ((hsame key).symm.trans hserver)
  exact ⟨servers, hlast.append hnew, hlisted⟩

theorem AllListed.dispatch (h : AllListed log s) (hkeyed : Keyed s) (ctx : Context)
    (spawns : ℕ → Bool) (event : RelayEvent) (sender : Option ℕ) :
    AllListed (log ++ .took event sender :: (s.dispatch ctx spawns event).2.map did)
      (s.dispatch ctx spawns event).1 := by
  have hdid : ∀ e ∈ (s.dispatch ctx spawns event).2.map did, e.isUpdate = false := by
    intro e he
    obtain ⟨x, -, rfl⟩ := mem_map.mp he
    rfl
  intro key server hserver
  rw [serversByNodeKey_dispatch hkeyed] at hserver
  rcases lookup_serversAfter hserver with ⟨servers, rfl, hmem, hkey⟩ | ⟨hnot, region, hold⟩
  · exact ⟨servers, ⟨log, sender, _, rfl, hdid⟩, server, hmem, hkey, rfl, rfl⟩
  · obtain ⟨servers, hlast, hlisted⟩ := h key _ hold
    refine ⟨servers, hlast.append fun e he => ?_, hlisted⟩
    rcases mem_cons.mp he with rfl | he
    · cases event with
      | serversUpdate servers => exact absurd rfl (hnot servers)
      | _ => rfl
    · exact hdid e he

variable {s : System} {work : HandshakeWork} {q : Queued} {result : HandshakeWorkResult}

theorem Sound.work_eq (h : Sound log s) {key : NodePublic × DiscoPublic}
    (hwork : s.state.handshakeWork.lookup key = some work) {args : HandshakeArgs}
    (hstart : .did (.handshakeStarted work.task args) ∈ log) :
    key = (args.peerKey, args.serverEndpoint.serverDisco) ∧ work = args.work work.task := by
  obtain ⟨args', hrunning, rfl, hwork'⟩ := h.registers.exists_running hwork
  have hitem := h.registers.unique _ _ _ _ hrunning.1 hstart rfl rfl rfl
  obtain ⟨hkey, hargs⟩ := Item.handshake.inj hitem
  exact ⟨hkey, hwork'.trans hargs⟩

section
variable (h : Sound log s) (hq : q ∈ s.queue) (hevent : q.event = .handshakeWorkDone result)
include h hq hevent

theorem Sound.completion :
    ∃ task args, q.sender = some task ∧ .did (.handshakeStarted task args) ∈ log ∧
      result = args.result result.pongFrom ∧
      ∀ src, result.pongFrom = some src → Ponged log task src args.serverEndpoint.vni := by
  have hexplained := h.queue q hq
  unfold Explained at hexplained
  split at hexplained
  · rw [hevent] at hexplained
    cases hexplained
  · next task hsender =>
    rcases hexplained with ⟨args, se, -, heq⟩ | ⟨args, pongFrom, hstart, heq, hpong⟩
    · rw [hevent] at heq
      cases heq
    · obtain rfl := RelayEvent.handshakeWorkDone.inj (hevent.symm.trans heq)
      exact ⟨task, args, hsender, hstart, rfl, hpong⟩

/-- The completion is the registered handshake's own, because the numbers agree. -/
theorem Sound.completion_own (hown : OwnNumbers log)
    (hfound : s.state.handshakeWork.lookup (result.peerKey, result.serverDisco) = some work)
    (hsame : work.Matches result) :
    ∃ args, Running log work.task args ∧ work = args.work work.task ∧
      result = args.result result.pongFrom ∧
      ∀ src, result.pongFrom = some src → Ponged log work.task src args.serverEndpoint.vni := by
  obtain ⟨task, args, -, hstart, hresult, hpong⟩ := h.completion hq hevent
  obtain ⟨args', hrunning, hkey, hwork⟩ := h.registers.exists_running hfound
  rw [hresult] at hkey
  obtain ⟨hpeer, hdisco⟩ := Prod.mk.inj hkey
  have hgen : args'.handshakeGen = args.handshakeGen := by
    have hgen := hsame.2.1
    rwa [hwork, hresult] at hgen
  obtain rfl : work.task = task := hown (work.task, args')
    (mem_filterMap.mpr ⟨_, hrunning.1, rfl⟩) (task, args) (mem_filterMap.mpr ⟨_, hstart, rfl⟩)
    hpeer.symm hdisco.symm hgen
  exact ⟨args, ⟨hstart, hrunning.2⟩, (h.work_eq hfound hstart).2, hresult, hpong⟩

end

end

/-- Invariant of the runs: tasks, indices and listed servers agree with the log. -/
structure Safe (log : List Event) (s : System) : Prop where
  sound : Sound log s
  indexed : Indexed s.state
  listed : AllListed log s.state

section
variable {log new : List Event} {s s' : System}

/-- Step: every move keeps the invariants an installation relies on. -/
theorem Safe.step (h : Safe log s) (hs : Steps s new s') (hown : OwnNumbers log) :
    Safe (log ++ new) s' := by
  refine ⟨h.sound.step hs, ?_, ?_⟩
  · cases hs with
    | post | reauthorize | turn => exact h.indexed
    | reorder reorders =>
      intro sdv peer
      rw [reorders.2.2.2.1.lookup_eq, reorders.2.2.1.lookup_eq]
      exact h.indexed sdv peer
    | @dispatch q queue spawns head free =>
      obtain ⟨peer, hevent⟩ | ⟨result, hevent⟩ | hc :=
        dispatch_cases h.sound.keyed s.ctx spawns q.event
      · rw [hevent]
        exact h.indexed.stopWork peer
      · have hc := handleHandshakeWorkDone_completes s.state s.ctx result
        have hout : (s.state.dispatch s.ctx spawns q.event) =
            s.state.handleHandshakeWorkDone s.ctx result := by
          rw [hevent]
          rfl
        rw [hout]
        refine h.indexed.completes hc fun work hfound hsame => ?_
        obtain ⟨args, -, hwork, hresult, -⟩ := h.sound.completion_own (by simp [head]) hevent hown
          hfound hsame
        rw [hwork, hresult]
        rfl
      · exact Indexed.changes (s := { s.state with
          serversByNodeKey := s.state.serversAfter s.ctx q.event }) h.indexed hc
  · cases hs with
    | post | reauthorize => exact h.listed.keep (fun _ => rfl) (by simp)
    | reorder reorders => exact h.listed.keep (fun key => reorders.1.lookup_eq key) (by simp)
    | dispatch spawns head free => exact h.listed.dispatch h.sound.keyed s.ctx spawns _ _
    | turn found worked =>
      have hworks := Task.turn_works (h.sound.tracks.evident _ _ found) worked
      refine h.listed.keep (fun _ => rfl) fun e he => ?_
      cases e with
      | took event sender => exact absurd he (hworks.silent event sender)
      | _ => rfl

theorem safe_start (ctx : Context) : Safe [] (.new ctx) where
  sound := sound_start ctx
  indexed sdv peer := by
    constructor
    · nofun
    · rintro ⟨work, hwork, -⟩
      cases hwork
  listed key server h := by cases h

/-- A path is installed on the evidence of its own handshake. -/
theorem Safe.installation (h : Safe log s) (hs : Steps s new s') (hown : OwnNumbers log)
    {peer : NodePublic} {disco : DiscoPublic} {generation : ℕ} {server : NodePublic}
    {serverGeneration : ℕ} {addr : SocketAddr} {vni : ℕ}
    (hset : .did (.setRelay peer disco generation server serverGeneration addr vni) ∈ new) :
    Installation log s peer disco generation server serverGeneration addr vni := by
  cases hs with
  | post | reauthorize | reorder => cases hset
  | turn found worked =>
    exact absurd hset ((Task.turn_works (h.sound.tracks.evident _ _ found) worked).quiet _)
  | @dispatch q queue spawns head free =>
    have hset : .setRelay peer disco generation server serverGeneration addr vni ∈
        (s.state.dispatch s.ctx spawns q.event).2 := by simpa using hset
    obtain ⟨peer', hevent⟩ | ⟨result, hevent⟩ | hc :=
      dispatch_cases h.sound.keyed s.ctx spawns q.event
    · rw [hevent] at hset
      cases not_install_stopWork s.state peer' _ hset
    · have hc := handleHandshakeWorkDone_completes s.state s.ctx result
      have hout : s.state.dispatch s.ctx spawns q.event =
          s.state.handleHandshakeWorkDone s.ctx result := by
        rw [hevent]
        rfl
      rw [hout] at hset
      obtain ⟨⟨work, hfound, hsame⟩, hinstalls, rfl, rfl, rfl, rfl, rfl, rfl⟩ := hc.install hset
      obtain ⟨args, hrunning, -, hresult, hpong⟩ := h.sound.completion_own (by simp [head]) hevent
        hown hfound hsame
      refine ⟨hinstalls.generation, hinstalls.disco, ?_, work.task, args, hrunning, ?_, ?_, ?_, ?_⟩
      · have hserver := hinstalls.server
        simp only [State.hasCurrentServer, relayServerCurrent, Bool.and_eq_true,
          Option.any_eq_true, beq_iff_eq] at hserver
        obtain ⟨⟨current, hcurrent, hdisco, hgeneration⟩, ⟨-, -⟩, hctx⟩ := hserver
        refine ⟨current, hcurrent, hctx.trans (congrArg some hdisco.symm), hgeneration, ?_⟩
        rw [← hgeneration]
        exact h.listed _ current hcurrent
      · rw [hresult]
        rfl
      · rw [hresult]
        rfl
      · rw [hresult]
        rfl
      · rw [hresult]
        exact hpong addr hinstalls.pong
    · cases hc.not_install _ hset

theorem OwnNumbers.of_append (h : OwnNumbers (log ++ new)) : OwnNumbers log := by
  simp only [OwnNumbers, filterMap_append] at h
  exact fun x hx y hy => h x (mem_append_left _ hx) y (mem_append_left _ hy)

end

/-- If handshakes have numbers of their own, a relay is installed only for an authorized peer and a
listed server, after a pong for a ping of the registered handshake, and the index has one entry for
each handshake. -/
theorem relayInstallation_of_run {ctx : Context} {log : List Event} {s : System}
    (run : (machine ctx).Run (fun _ _ => True) log s) (hown : OwnNumbers log) :
    Indexed s.state ∧ ∀ a s' new peer disco generation server serverGeneration addr vni,
      s.step a = some (s', new) →
      .did (.setRelay peer disco generation server serverGeneration addr vni) ∈ new →
      Installation log s peer disco generation server serverGeneration addr vni := by
  have h : Safe log s := run.invariant (fun log s => OwnNumbers log → Safe log s)
    (fun _ => safe_start ctx) (fun _ _ _ _ _ h taken _ hown =>
      (h hown.of_append).step (steps_of_step taken) hown.of_append) hown
  exact ⟨h.indexed, fun _ _ _ _ _ _ _ _ _ _ taken hset =>
    h.installation (steps_of_step taken) hown hset⟩

def oneHandshake : List Action :=
  handle (.serversUpdate [relayAt 20]) ++ handle (.startDiscovery 10 11 1) ++ allocate 0 1 10 20 1 ++
    [.turn 1 (.handshakeStart true)]

/-- The handshake is replaced by a second one, which gets its pong. -/
theorem relayInstallation_of_run_pong : ∃ log s, (machine openNode).Run (fun _ _ => True) log s ∧
    OwnNumbers log ∧ Indexed s.state ∧ Installation log s 10 11 1 20 1 (.v4 0x7F000001 9) 1 := by
  obtain ⟨log, s, run, hown, hstep⟩ := exists_run (machine openNode) (fun _ _ => True)
    (oneHandshake ++ handle (.newServerEndpoint 10 11 1 ⟨21, (1, 11), 2, [], 1, 0, 0⟩ none) ++
      [.turn 1 .cancel, .turn 2 (.handshakeStart true)] ++
      handle (.discoMsg (relayed 21 1 challenge)) ++ [.turn 2 (.receive 7)] ++
      handle (.discoMsg (relayed 11 1 somePong)) ++ [.turn 2 (.receive 0)])
    (fun log s => OwnNumbers log ∧ (s.step (.dispatch fun _ => true)).any (fun r => decide
      (.did (.setRelay 10 11 1 20 1 (.v4 0x7F000001 9) 1) ∈ r.2)) = true)
    (by decide +kernel) (by decide +kernel)
  obtain ⟨⟨s', new⟩, htaken, hset⟩ := (Option.any_eq_true _ _).mp hstep
  have hall := relayInstallation_of_run run hown
  exact ⟨log, s, run, hown, hall.1,
    hall.2 _ s' new _ _ _ _ _ _ _ htaken (of_decide_eq_true hset)⟩

end Rustscale.RelayManager
