import Rustscale.Magicsock.RelayRuns

/-! Where pings and pongs go. -/
namespace Rustscale.RelayManager
open Disco HashTable Machine List Event State Message
open Udprelay (SocketAddr ServerEndpoint)

def Event.awaits (apv : AddrPortVni) (peer : NodePublic) : Event → Bool
  | .did (.handed _ peer' msg src vni) =>
    peer' == peer && src == apv.addr && vni == apv.vni && isChallenge msg
  | _ => false

/-- The manager forgets the addresses that a peer is awaited from under a number. -/
def Event.forgets (peer : NodePublic) (vni : ℕ) : Event → Bool
  | .took (.cancelWork peer') _ => peer' == peer
  | .did (.handshakeCancelled _ peer' vni') => peer' == peer && vni' == vni
  | .did (.handshakeDone _ peer') => peer' == peer
  | _ => false

/-- A challenge was handed to a handshake of a peer, and the manager has not forgotten it. -/
def Awaits (log : List Event) (apv : AddrPortVni) (peer : NodePublic) : Prop :=
  ∃ before e after, log = before ++ e :: after ∧ e.awaits apv peer = true ∧
    ∀ e' ∈ after, e'.forgets peer apv.vni = false

/-- The table of awaited addresses. -/
def Awaited (log : List Event) (s : State) : Prop :=
  ∀ apv peer, s.handshakeAwaitingPong.lookup apv = some peer ↔ Awaits log apv peer

section
variable {s s' : State} {log new : List Event} {out : List Effect} {ctx : Context}
variable {apv : AddrPortVni} {peer : NodePublic}

/-- What is awaited after one more event. -/
theorem awaits_concat {e : Event} : Awaits (log ++ [e]) apv peer ↔
    e.awaits apv peer = true ∨ Awaits log apv peer ∧ e.forgets peer apv.vni = false := by
  constructor
  · rintro ⟨before, e', after, heq, hawaits, hkept⟩
    rcases eq_nil_or_concat after with rfl | ⟨after, last, rfl⟩
    · obtain ⟨rfl, heq⟩ := append_inj' heq rfl
      obtain rfl : e = e' := by simpa using heq
      exact .inl hawaits
    · rw [concat_eq_append, ← cons_append, ← append_assoc] at heq
      obtain ⟨rfl, heq⟩ := append_inj' heq rfl
      obtain rfl : e = last := by simpa using heq
      refine .inr ⟨⟨before, e', after, rfl, hawaits, fun x hx => hkept x ?_⟩, hkept e ?_⟩
      · simp [hx]
      · simp
  · rintro (hawaits | ⟨⟨before, e', after, rfl, hawaits, hkept⟩, hforgets⟩)
    · exact ⟨log, e, [], rfl, hawaits, by simp⟩
    · refine ⟨before, e', after ++ [e], by simp, hawaits, fun x hx => ?_⟩
      rcases mem_append.mp hx with hx | hx
      · exact hkept x hx
      · rw [mem_singleton.mp hx]
        exact hforgets

theorem awaits_append (h : ∀ e ∈ new, e.awaits apv peer = false) :
    Awaits (log ++ new) apv peer ↔
      Awaits log apv peer ∧ ∀ e ∈ new, e.forgets peer apv.vni = false := by
  induction new using reverseRecOn with
  | nil => simp
  | append_singleton new e ih =>
    rw [← append_assoc, awaits_concat, ih fun x hx => h x (mem_append_left _ hx), h e (by simp)]
    simp [or_imp, forall_and, and_assoc]

theorem not_awaits_nil : ¬Awaits [] apv peer := by
  rintro ⟨before, e, after, heq, -⟩
  simp at heq

theorem awaited_start : Awaited [] .new := by
  intro apv peer
  simp only [not_awaits_nil, iff_false]
  intro h
  cases h

theorem Awaited.forget (h : Awaited log s)
    (hquiet : ∀ e ∈ new, ∀ apv peer, e.awaits apv peer = false)
    (hkept : ∀ apv peer, s'.handshakeAwaitingPong.lookup apv = some peer ↔
      s.handshakeAwaitingPong.lookup apv = some peer ∧ ∀ e ∈ new, e.forgets peer apv.vni = false) :
    Awaited (log ++ new) s' := by
  intro apv peer
  rw [hkept, h, awaits_append fun e he => hquiet e he apv peer]

def Event.IsPlain (e : Event) : Prop :=
  ∀ apv peer vni, e.awaits apv peer = false ∧ e.forgets peer vni = false

theorem isPlain_of_isQuiet {e : Effect} (h : e.isQuiet = true) : (did e).IsPlain := by
  intro apv peer vni
  cases e with
  | handed task peer' msg src vni' => simp_all [Effect.isQuiet, awaits, forgets]
  | handshakeCancelled | handshakeDone => cases h
  | _ => exact ⟨rfl, rfl⟩

theorem Awaited.keep (h : Awaited log s)
    (hsame : s'.handshakeAwaitingPong = s.handshakeAwaitingPong)
    (hplain : ∀ e ∈ new, e.IsPlain) : Awaited (log ++ new) s' := by
  refine h.forget (fun e he apv peer => (hplain e he apv peer 0).1) fun apv peer => ?_
  rw [hsame]
  exact ⟨fun hs => ⟨hs, fun e he => (hplain e he apv peer apv.vni).2⟩, fun hs => hs.1⟩

/-- Step: a change awaits what it starts and forgets what it ends. -/
theorem Awaited.change (h : Awaited log s) (hc : Change s out s') :
    Awaited (log ++ out.map did) s' := by
  cases hc with
  | quiet hq =>
    refine h.keep rfl fun e he => ?_
    obtain ⟨e, he', rfl⟩ := mem_map.mp he
    exact isPlain_of_isQuiet (hq e he')
  | count => exact h.keep rfl (by simp)
  | allocStop drop =>
    refine h.keep rfl fun e he => ?_
    rw [map_map] at he
    obtain ⟨x, -, rfl⟩ := mem_map.mp he
    exact fun _ _ _ => ⟨rfl, rfl⟩
  | allocDone | allocStart | start =>
    exact h.keep rfl (by simp [Event.IsPlain, awaits, forgets])
  | cancel found =>
    refine h.forget (by simp [awaits]) fun apv peer => ?_
    simp only [lookup_retain_eq_some, map_singleton, mem_singleton, forall_eq, forgets]
    grind
  | @challenge task peer msg apv isChallenge absent =>
    intro apv' peer'
    rw [map_singleton, awaits_concat, lookup_insert_eq_some, h]
    simp only [awaits, forgets, isChallenge, Bool.and_true, Bool.and_eq_true, beq_iff_eq, and_true]
    have hnot : ∀ p, ¬Awaits log apv p := fun p hp => by
      rw [← h, absent] at hp
      cases hp
    cases apv'
    cases apv
    grind

theorem Awaited.changes (h : Awaited log s) (hc : Changes s out s') :
    Awaited (log ++ out.map did) s' := by
  induction hc generalizing log with
  | nil => simpa using h
  | cons change _ ih =>
    rw [map_append, ← append_assoc]
    exact ih (h.change change)

theorem bne_iff_beq_false {peer peer' : NodePublic} :
    (peer != peer') = true ↔ (peer' == peer) = false := by
  rw [bne_iff_ne, beq_eq_false_iff_ne, ne_comm]

/-- Step: stopping a peer's work forgets what is awaited from it. -/
theorem Awaited.stopWork (h : Awaited log s) (peer : NodePublic) (sender : Option ℕ) :
    Awaited (log ++ .took (.cancelWork peer) sender :: (s.stopWork peer).2.map did)
      (s.stopWork peer).1 := by
  have hout : ∀ e ∈ (s.stopWork peer).2, ∀ apv p vni, (did e).awaits apv p = false ∧
      (p ≠ peer → (did e).forgets p vni = false) := by
    intro e he apv p vni
    rcases mem_append.mp he with he | he <;> obtain ⟨x, -, rfl⟩ := mem_map.mp he
    · exact ⟨rfl, fun _ => rfl⟩
    · exact ⟨rfl, fun hne => by simp [forgets, hne.symm]⟩
  refine h.forget (fun e he apv p => ?_) fun apv p => ?_
  · rcases mem_cons.mp he with rfl | he
    · rfl
    · obtain ⟨x, hx, rfl⟩ := mem_map.mp he
      exact (hout x hx apv p 0).1
  · simp only [State.stopWork, lookup_retain_eq_some]
    refine and_congr_right fun _ => ?_
    rw [forall_mem_cons]
    constructor
    · intro hne
      refine ⟨bne_iff_beq_false.mp hne, fun e he => ?_⟩
      obtain ⟨x, hx, rfl⟩ := mem_map.mp he
      exact (hout x hx apv p apv.vni).2 (bne_iff_ne.mp hne)
    · exact fun hkept => bne_iff_beq_false.mpr hkept.1

theorem Awaited.completes (h : Awaited log s) {result : HandshakeWorkResult}
    (hc : Completes s ctx result out s') : Awaited (log ++ out.map did) s' := by
  cases hc with
  | ignored _ => simpa using h
  | retired _ _ | installed _ _ _ =>
    refine h.forget (by simp [awaits]) fun apv peer => ?_
    simp only [retire, lookup_retain_eq_some, bne_iff_beq_false]
    simp [forgets]

/-- Step: every event keeps the routing in agreement with the log. -/
theorem Awaited.dispatch (h : Awaited log s) (hkeyed : Keyed s) (ctx : Context)
    (spawns : ℕ → Bool) (event : RelayEvent) (sender : Option ℕ) :
    Awaited (log ++ .took event sender :: (s.dispatch ctx spawns event).2.map did)
      (s.dispatch ctx spawns event).1 := by
  by_cases hstop : ∃ peer, event = .cancelWork peer
  · obtain ⟨peer, rfl⟩ := hstop
    exact h.stopWork peer sender
  rw [append_cons]
  have htook : ∀ s', s'.handshakeAwaitingPong = s.handshakeAwaitingPong →
      Awaited (log ++ [.took event sender]) s' := by
    refine fun s' hsame => h.keep hsame fun e he apv peer vni => ?_
    obtain rfl := mem_singleton.mp he
    cases event with
    | cancelWork peer => exact absurd ⟨peer, rfl⟩ hstop
    | _ => exact ⟨rfl, rfl⟩
  obtain ⟨result, rfl⟩ | hc := (dispatch_cases hkeyed ctx spawns event).resolve_left hstop
  · exact (htook s rfl).completes (handleHandshakeWorkDone_completes s ctx result)
  · exact (htook { s with serversByNodeKey := s.serversAfter ctx event } rfl).changes hc

theorem awaited_of_run {env : List Event → List Event → Prop} {s : System}
    (run : (machine ctx).Run env log s) : Awaited log s.state := by
  refine (run.invariant (fun log s => Sound log s ∧ Awaited log s.state)
    ⟨sound_start ctx, awaited_start⟩ ?_).2
  rintro log s a s' new ⟨hsound, h⟩ taken -
  have hstep := steps_of_step taken
  refine ⟨hsound.step hstep, ?_⟩
  cases hstep with
  | post | reauthorize =>
    rw [append_nil]
    exact h
  | reorder reorders =>
    rw [append_nil]
    intro apv peer
    rw [reorders.2.2.2.2.1.lookup_eq]
    exact h apv peer
  | dispatch spawns head free => exact h.dispatch hsound.keyed s.ctx spawns _ _
  | turn found worked =>
    have hworks := Task.turn_works (hsound.tracks.evident _ _ found) worked
    refine h.keep rfl fun e he apv peer vni => ?_
    cases e with
    | took event sender => exact absurd he (hworks.silent event sender)
    | did e => exact absurd he (hworks.quiet e)
    | _ => exact ⟨rfl, rfl⟩

end

def Message.isProbe : Message → Bool
  | .ping _ => true
  | .pong _ => true
  | _ => false

def Running (log : List Event) (task : ℕ) (args : HandshakeArgs) : Prop :=
  .did (.handshakeStarted task args) ∈ log ∧ ¬Ended log task

def Authorized (s : System) (args : HandshakeArgs) : Prop :=
  s.ctx.peerAuthorizationGeneration args.peerKey = some args.authorizationGeneration ∧
    s.state.hasCurrentServer s.ctx args.relayServer = true

/-- The message is handed to one task only, in whichever order the tables are read. -/
def HandedOnly (s : System) (msg : RelayDiscoMsg) (task : ℕ) : Prop :=
  ∀ state, Reorders s.state state → ∀ spawns task',
    (∃ peer, .handed task' peer msg.msg msg.src msg.vni ∈
      (state.dispatch s.ctx spawns (.discoMsg msg)).2) ↔ task' = task

section
variable {s s' : State} {log : List Event} {ctx : Context} {msg : RelayDiscoMsg}

theorem Registers.running (h : Registers log s) {task : ℕ} {args : HandshakeArgs}
    (hrun : Running log task args) : s.handshakeWork.lookup
      (args.peerKey, args.serverEndpoint.serverDisco) = some (args.work task) :=
  (h.live (.handshake _ _)).mpr ⟨⟨_, hrun.1, rfl⟩, hrun.2⟩

theorem Registers.exists_running (h : Registers log s) {key : NodePublic × DiscoPublic}
    {work : HandshakeWork} (hwork : s.handshakeWork.lookup key = some work) :
    ∃ args, Running log work.task args ∧
      key = (args.peerKey, args.serverEndpoint.serverDisco) ∧ work = args.work work.task := by
  obtain ⟨⟨e, he, hitem⟩, hend⟩ := (h.live (.handshake key work)).mp hwork
  cases e with
  | handshakeStarted task args =>
    obtain ⟨rfl, rfl⟩ := Item.handshake.inj (Option.some.inj hitem)
    exact ⟨args, ⟨he, hend⟩, rfl, rfl⟩
  | allocStarted | _ => cases hitem

theorem handed_mem_dispatch (hprobe : isProbe msg.msg = true) (spawns : ℕ → Bool)
    {task : ℕ} {peer : NodePublic} : .handed task peer msg.msg msg.src msg.vni ∈
      (s.dispatch ctx spawns (.discoMsg msg)).2 ↔
    accepts ctx msg = true ∧
      .handed task peer msg.msg msg.src msg.vni ∈ s.routeProbe ctx msg := by
  simp only [dispatch, handleRxDiscoMsg]
  cases accepts ctx msg with
  | false => simp
  | true =>
    cases hmsg : msg.msg with
    | ping ping => simp [mem_append]
    | pong pong => simp
    | _ => simp [hmsg, isProbe] at hprobe

def State.takes (s : State) (ctx : Context) (peer : NodePublic) (vni : ℕ)
    (e : (NodePublic × DiscoPublic) × HandshakeWork) : Bool :=
  e.1.1 == peer && (e.2.vni == vni && s.authorized ctx peer e.2)

theorem handed_mem_routeProbe {task : ℕ} {peer : NodePublic} :
    .handed task peer msg.msg msg.src msg.vni ∈ s.routeProbe ctx msg ↔
    s.handshakeAwaitingPong.lookup ⟨msg.src, msg.vni⟩ = some peer ∧
      ∃ e, s.handshakeWork.pairs.find? (s.takes ctx peer msg.vni) = some e ∧ e.2.task = task := by
  unfold routeProbe
  split
  · next hnone => simp [hnone]
  · next peer' hpeer =>
    rw [hpeer]
    split
    · next hnone =>
      simp only [not_mem_nil, Option.some.injEq, false_iff, not_and, not_exists]
      rintro rfl e he
      exact absurd (he.symm.trans hnone) (Option.some_ne_none e)
    · next key work hfind =>
      simp only [mem_singleton, Effect.handed.injEq, and_true, Option.some.injEq]
      constructor
      · rintro ⟨rfl, rfl⟩
        exact ⟨rfl, (key, work), hfind, rfl⟩
      · rintro ⟨rfl, e, he, rfl⟩
        obtain rfl := Option.mem_unique hfind he
        exact ⟨rfl, rfl⟩

end

theorem takes_iff {s : System} {peer : NodePublic} {args : HandshakeArgs} {task vni : ℕ} :
    s.state.takes s.ctx peer vni
      ((args.peerKey, args.serverEndpoint.serverDisco), args.work task) = true ↔
    args.peerKey = peer ∧ args.serverEndpoint.vni = vni ∧ Authorized s args := by
  simp only [takes, Bool.and_eq_true, beq_iff_eq, authorized, Authorized, HandshakeArgs.work]
  constructor <;> rintro ⟨rfl, hvni, hauth⟩ <;> exact ⟨rfl, hvni, hauth⟩

theorem Reorders.takes_eq {s s' : State} (h : Reorders s s') (ctx : Context) :
    s'.takes ctx = s.takes ctx := by
  funext peer vni e
  simp only [takes, authorized, hasCurrentServer, h.1.lookup_eq]

/-- In every run, a ping or pong is handed to an authorized handshake and to no other exactly if its
source is authorized, the address is awaited for the peer, and the number is that of the handshake
and of no other authorized one of the peer. -/
theorem handedOnly_iff {ctx : Context} {env : List Event → List Event → Prop} {log : List Event}
    {s : System} (run : (machine ctx).Run env log s) {task : ℕ} {args : HandshakeArgs}
    (running : Running log task args) (authorized : Authorized s args) {msg : RelayDiscoMsg}
    (probe : isProbe msg.msg = true) :
    HandedOnly s msg task ↔
      accepts s.ctx msg = true ∧ Awaits log ⟨msg.src, msg.vni⟩ args.peerKey ∧
      args.serverEndpoint.vni = msg.vni ∧
      ∀ task' args', Running log task' args' → args'.peerKey = args.peerKey →
        args'.serverEndpoint.vni = msg.vni → Authorized s args' → task' = task := by
  have hsound := sound_of_run run
  have hawaited := awaited_of_run run
  have hwork := hsound.registers.running running
  constructor
  · intro honly
    obtain ⟨peer, hhanded⟩ := (honly s.state ⟨.refl _, .refl _, .refl _, .refl _, .refl _, rfl, rfl,
      rfl⟩ (fun _ => true) task).mpr rfl
    obtain ⟨haccepts, hroute⟩ := (handed_mem_dispatch probe _).mp hhanded
    obtain ⟨hpeer, ⟨key, work⟩, hfind, htask⟩ := handed_mem_routeProbe.mp hroute
    -- the handshake that comes first is the one of the task
    have hfirst : s.state.handshakeWork.lookup key = some work :=
      mem_pairs.mp (mem_of_find?_eq_some hfind)
    have hsame : Item.handshake key work = .handshake _ (args.work task) :=
      hsound.registers.task_inj hfirst hwork htask
    obtain ⟨rfl, rfl⟩ := Item.handshake.inj hsame
    obtain ⟨rfl, hvni, -⟩ := takes_iff.mp (find?_some hfind)
    refine ⟨haccepts, (hawaited _ _).mp hpeer, hvni, ?_⟩
    -- any other that passes the test may come first
    intro task' args' hrunning' hpeer' hvni' hauth'
    have hwork' := hsound.registers.running hrunning'
    have hreorder : Reorders s.state { s.state with
        handshakeWork := s.state.handshakeWork.insert
          (args'.peerKey, args'.serverEndpoint.serverDisco) (args'.work task') } :=
      ⟨.refl _, .refl _, reordered_insert hwork', .refl _, .refl _, rfl, rfl, rfl⟩
    refine (honly _ hreorder (fun _ => true) task').mp ⟨args.peerKey, ?_⟩
    rw [handed_mem_dispatch probe, handed_mem_routeProbe]
    refine ⟨haccepts, hpeer, ((args'.peerKey, args'.serverEndpoint.serverDisco), args'.work task'),
      ?_, rfl⟩
    rw [hreorder.takes_eq]
    exact find?_cons_of_pos (takes_iff.mpr ⟨hpeer', hvni', hauth'⟩)
  · rintro ⟨haccepts, hawaits, hvni, hunique⟩ state hreorder spawns task'
    have hpeer : state.handshakeAwaitingPong.lookup ⟨msg.src, msg.vni⟩ = some args.peerKey := by
      rw [hreorder.2.2.2.2.1.lookup_eq]
      exact (hawaited _ _).mpr hawaits
    -- the handshake passes the test, and so it is the first that does
    have hfirst : ∃ e, state.handshakeWork.pairs.find? (s.state.takes s.ctx args.peerKey msg.vni) =
        some e ∧ e.2.task = task := by
      have hmem : ((args.peerKey, args.serverEndpoint.serverDisco), args.work task) ∈
          state.handshakeWork.pairs := by
        rw [mem_pairs, hreorder.2.2.1.lookup_eq]
        exact hwork
      obtain ⟨⟨key, work⟩, hfind⟩ := Option.isSome_iff_exists.mp
        (find?_isSome.mpr ⟨_, hmem, takes_iff.mpr ⟨rfl, hvni, authorized⟩⟩)
      refine ⟨(key, work), hfind, ?_⟩
      have hlookup : s.state.handshakeWork.lookup key = some work := by
        rw [← hreorder.2.2.1.lookup_eq]
        exact mem_pairs.mp (mem_of_find?_eq_some hfind)
      obtain ⟨args', hrunning', rfl, hwork'⟩ := hsound.registers.exists_running hlookup
      have htakes' := find?_some hfind
      rw [hwork'] at htakes'
      obtain ⟨hpeer', hvni', hauth'⟩ := takes_iff.mp htakes'
      exact hunique work.task args' hrunning' hpeer' hvni' hauth'
    obtain ⟨e, hfind, htask⟩ := hfirst
    simp only [handed_mem_dispatch probe, handed_mem_routeProbe, haccepts, true_and, hpeer,
      Option.some.injEq, hreorder.takes_eq]
    constructor
    · rintro ⟨peer, rfl, e', hfind', rfl⟩
      rw [← htask, Option.mem_unique hfind' hfind]
    · rintro rfl
      exact ⟨args.peerKey, rfl, e, hfind, htask⟩

instance (s : System) (args : HandshakeArgs) : Decidable (Authorized s args) :=
  inferInstanceAs (Decidable (_ ∧ _))

instance (log : List Event) (task : ℕ) (args : HandshakeArgs) : Decidable (Running log task args) :=
  inferInstanceAs (Decidable (_ ∧ _))

/-- The node asks two servers for the peer 10, and starts a handshake with each. -/
def twoHandshakes (vni vni' : BitVec 32) : List Action :=
  handle (.serversUpdate [relayAt 20, relayAt 30]) ++ handle (.startDiscovery 10 11 1) ++
    allocate 0 1 10 30 vni ++ allocate 1 2 10 20 vni'

/-- A challenge, or a pong, that arrives through a relay. -/
def relayed (disco : DiscoPublic) (vni : ℕ) (msg : Message) : RelayDiscoMsg :=
  ⟨msg, disco, .v4 0x7F000001 9, vni, none, none, none⟩

def challenge : Message := .bindUdpRelayEndpointChallenge ⟨1, 0, 11, 0⟩

def somePong : Message := .pong ⟨7, ⟨.v4 0, 0⟩⟩

/-- A pong for the only handshake that waits for it. -/
theorem handedOnly_iff_alone : ∃ log s, (machine openNode).Run (fun _ _ => True) log s ∧
    Running log 2 (argsAt 10 30 1 1) ∧ Authorized s (argsAt 10 30 1 1) ∧
    (HandedOnly s (relayed 11 1 somePong) 2 ↔
      accepts s.ctx (relayed 11 1 somePong) = true ∧
      Awaits log ⟨.v4 0x7F000001 9, 1⟩ 10 ∧ (argsAt 10 30 1 1).serverEndpoint.vni = 1 ∧
      ∀ task' args', Running log task' args' → args'.peerKey = 10 →
        args'.serverEndpoint.vni = 1 → Authorized s args' → task' = 2) := by
  obtain ⟨log, s, run, hrunning, hauth⟩ := exists_run (machine openNode) (fun _ _ => True)
    (twoHandshakes 1 2 ++ handle (.discoMsg (relayed 31 1 challenge)))
    (fun log s => Running log 2 (argsAt 10 30 1 1) ∧ Authorized s (argsAt 10 30 1 1))
    (by decide +kernel) (kept_of_forall (fun _ _ => trivial) _ _ _)
  exact ⟨log, s, run, hrunning, hauth, handedOnly_iff run hrunning hauth rfl⟩

/-- A pong is dropped once the handshake with the other server has failed, and goes to the other
handshake if both servers use one number. -/
theorem pong_dropped_and_redirected :
    (∃ log s, (machine openNode).Run (fun _ _ => True) log s ∧
      Running log 2 (argsAt 10 30 1 1) ∧ Authorized s (argsAt 10 30 1 1) ∧
      .did (.handed 2 10 challenge (.v4 0x7F000001 9) 1) ∈ log ∧
      (s.state.dispatch s.ctx (fun _ => true) (.discoMsg (relayed 11 1 somePong))).2 = []) ∧
    ∃ log s, (machine openNode).Run (fun _ _ => True) log s ∧
      Running log 2 (argsAt 10 30 1 1) ∧ Authorized s (argsAt 10 30 1 1) ∧
      .did (.handed 2 10 challenge (.v4 0x7F000001 9) 1) ∈ log ∧
      (s.state.dispatch s.ctx (fun _ => true) (.discoMsg (relayed 11 1 somePong))).2 =
        [.handed 3 10 somePong (.v4 0x7F000001 9) 1] := by
  constructor
  · exact exists_run _ _ (twoHandshakes 1 2 ++ handle (.discoMsg (relayed 31 1 challenge)) ++
      [.turn 3 (.handshakeStart false), .dispatch fun _ => true]) _ (by decide +kernel)
      (kept_of_forall (fun _ _ => trivial) _ _ _)
  · exact exists_run _ _ (twoHandshakes 1 1 ++ handle (.discoMsg (relayed 31 1 challenge))) _
      (by decide +kernel) (kept_of_forall (fun _ _ => trivial) _ _ _)

end Rustscale.RelayManager
