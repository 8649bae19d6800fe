import Rustscale.Lib.Machine
import Rustscale.Magicsock.RelayManager

/-! The relay manager with its queue and its tasks: callers and tasks post events, and the loop
takes them one by one. -/
namespace Rustscale.RelayManager
open Disco
open Udprelay (SocketAddr ServerEndpoint)

def maxPings : ℕ := 10

/-- The task of an allocation. Its channel has room for one response. -/
structure Allocation where
  args : AllocArgs
  waiting : Bool
  inbox : Option AllocateUdpRelayEndpointResponse

/-- The task of a handshake. Its channel has room for 16 messages. -/
structure Handshake where
  args : HandshakeArgs
  waiting : Bool
  inbox : List (Message × SocketAddr × ℕ)
  sentPings : List (BitVec 96)
  answered : Bool
  challengeFrom : Option SocketAddr

/-- What a task works on. -/
inductive Job where
  | alloc (a : Allocation)
  | handshake (h : Handshake)

def Job.waiting : Job → Bool
  | .alloc a => a.waiting
  | .handshake h => h.waiting

/-- A spawned task; a cancelled one goes on until it notices. -/
structure Task where
  job : Job
  cancelled : Bool
  ended : Bool

def AllocArgs.matches (args : AllocArgs) (resp : AllocateUdpRelayEndpointResponse) : Bool :=
  resp.generation.toNat == args.allocGen &&
    sortPair resp.endpoint.clientDisco.1 resp.endpoint.clientDisco.2 == args.discoKeys

def AllocArgs.result (args : AllocArgs) (serverEndpoint : Option ServerEndpoint) :
    AllocWorkResult :=
  ⟨args.peerKey, args.peerDisco, args.authorizationGeneration, args.server, serverEndpoint⟩

def HandshakeArgs.result (args : HandshakeArgs) (pongFrom : Option SocketAddr) :
    HandshakeWorkResult :=
  ⟨args.peerKey, args.peerDisco, args.authorizationGeneration, args.relayServer, args.handshakeGen,
    args.serverEndpoint.serverDisco, args.serverEndpoint.vni, pongFrom⟩

/-- What is logged of a run. -/
inductive Event where
  | took (event : RelayEvent) (sender : Option ℕ)
  | did (effect : Effect)
  | pinged (task : ℕ) (txId : BitVec 96)
  | ponged (task : ℕ) (txId : BitVec 96) (src : SocketAddr) (vni : ℕ)
  deriving DecidableEq

/-- What one turn of a task gives. -/
structure Worked where
  task : Task
  posted : Option RelayEvent
  log : List Event

namespace Allocation

variable (a : Allocation) (cancelled : Bool)

def goOn : Worked := ⟨⟨.alloc a, cancelled, false⟩, none, []⟩

def finish (serverEndpoint : Option ServerEndpoint) : Worked :=
  ⟨⟨.alloc a, cancelled, true⟩, some (.allocWorkDone (a.args.result serverEndpoint)), []⟩

/-- The server is the node itself and has answered, or the request is sealed and sent. -/
def start (self : Option (Option AllocateUdpRelayEndpointResponse)) (sealed : Bool) : Worked :=
  match self with
  | some (some resp) =>
    a.finish cancelled
      (if a.args.matches resp then some (fromUdpRelayEndpoint resp.endpoint) else none)
  | some none => a.finish cancelled none
  | none => if sealed then { a with waiting := true }.goOn cancelled else a.finish cancelled none

def receive : Option Worked :=
  match a.inbox with
  | none => none
  | some resp =>
    let a := { a with inbox := none }
    if a.args.matches resp then
      some (a.finish cancelled (some (fromUdpRelayEndpoint resp.endpoint)))
    else some (a.goOn cancelled)

end Allocation

namespace Handshake

def goOn (h : Handshake) (cancelled : Bool) : Worked := ⟨⟨.handshake h, cancelled, false⟩, none, []⟩

def finish (h : Handshake) (cancelled : Bool) (pongFrom : Option SocketAddr) : Worked :=
  ⟨⟨.handshake h, cancelled, true⟩, some (.handshakeWorkDone (h.args.result pongFrom)), []⟩

def ping (h : Handshake) (id : ℕ) (cancelled : Bool) (txId : BitVec 96) : Worked :=
  { ({ h with sentPings := h.sentPings.insert txId }).goOn cancelled with log := [.pinged id txId] }

def start (h : Handshake) (cancelled sealed : Bool) : Worked :=
  if sealed then { h with waiting := true }.goOn cancelled else h.finish cancelled none

def retry (h : Handshake) (id : ℕ) (cancelled : Bool) (txId : BitVec 96) : Worked :=
  if h.sentPings.length < maxPings ∧ h.challengeFrom.isSome then h.ping id cancelled txId
  else h.goOn cancelled

def handle (h : Handshake) (id : ℕ) (cancelled : Bool) (txId : BitVec 96) (src : SocketAddr) :
    Message → Worked
  | .bindUdpRelayEndpointChallenge common =>
    if common.vni.toNat ≠ h.args.serverEndpoint.vni ∨ common.remoteKey ≠ h.args.peerDisco ∨
        h.answered = true then h.goOn cancelled
    else { h with answered := true, challengeFrom := some src }.ping id cancelled txId
  | .ping _ =>
    if h.answered = false ∨ maxPings ≤ h.sentPings.length then h.goOn cancelled
    else h.ping id cancelled txId
  | .pong pong =>
    if pong.txId ∈ h.sentPings then
      { h.finish cancelled (some src) with
        log := [.ponged id pong.txId src h.args.serverEndpoint.vni] }
    else h.goOn cancelled
  | _ => h.goOn cancelled

def receive (h : Handshake) (id : ℕ) (cancelled : Bool) (txId : BitVec 96) : Option Worked :=
  match h.inbox with
  | [] => none
  | (msg, src, vni) :: inbox =>
    let h := { h with inbox }
    if vni ≠ h.args.serverEndpoint.vni then some (h.goOn cancelled)
    else some (h.handle id cancelled txId src msg)

end Handshake

/-- What a task does next. A task that was cancelled may notice it, or go on. -/
inductive Turn where
  | allocStart (self : Option (Option AllocateUdpRelayEndpointResponse)) (sealed : Bool)
  | handshakeStart (sealed : Bool)
  | receive (txId : BitVec 96)
  | retry (txId : BitVec 96)
  | timeout
  | cancel

def Task.turn (task : Task) (id : ℕ) : Turn → Option Worked
  | .allocStart self sealed =>
    match task.job with
    | .alloc a => if a.waiting then none else some (a.start task.cancelled self sealed)
    | .handshake _ => none
  | .handshakeStart sealed =>
    match task.job with
    | .alloc _ => none
    | .handshake h => if h.waiting then none else some (h.start task.cancelled sealed)
  | .receive txId =>
    match task.job with
    | .alloc a => if a.waiting then a.receive task.cancelled else none
    | .handshake h => if h.waiting then h.receive id task.cancelled txId else none
  | .retry txId =>
    match task.job with
    | .alloc _ => none
    | .handshake h =>
      if h.waiting && h.answered then some (h.retry id task.cancelled txId) else none
  | .timeout =>
    match task.job with
    | .alloc a => if a.waiting then some (a.finish task.cancelled none) else none
    | .handshake h => if h.waiting then some (h.finish task.cancelled none) else none
  | .cancel =>
    if task.cancelled && task.job.waiting then some ⟨{ task with ended := true }, none, []⟩ else none

/-- An event in the queue of the manager, with the task that posted it. -/
structure Queued where
  event : RelayEvent
  sender : Option ℕ
  deriving DecidableEq

/-- The manager, its tasks and its queue, under an authorization that may change. -/
structure System where
  state : State
  tasks : List Task
  queue : List Queued
  joining : List ℕ
  ctx : Context

def RelayEvent.isExternal : RelayEvent → Bool
  | .newServerEndpoint _ _ _ _ (some _) => false
  | .allocWorkDone _ => false
  | .handshakeWorkDone _ => false
  | _ => true

/-- The tasks after the manager has done something to them. -/
def applyEffect (tasks : List Task) : Effect → List Task
  | .allocStarted _ args => tasks ++ [⟨.alloc ⟨args, false, none⟩, false, false⟩]
  | .handshakeStarted _ args =>
    tasks ++ [⟨.handshake ⟨args, false, [], [], false, none⟩, false, false⟩]
  | .allocCancelled task => tasks.modify task fun t => { t with cancelled := true }
  | .allocDone task => tasks.modify task fun t => { t with cancelled := true }
  | .handshakeCancelled task _ _ => tasks.modify task fun t => { t with cancelled := true }
  | .handshakeDone task _ => tasks.modify task fun t => { t with cancelled := true }
  | .responded task resp => tasks.modify task fun t =>
    match t.job with
    | .alloc a => { t with job := .alloc { a with inbox := some (a.inbox.getD resp) } }
    | .handshake _ => t
  | .handed task _ msg src vni => tasks.modify task fun t =>
    match t.job with
    | .alloc _ => t
    | .handshake h =>
      if h.inbox.length < 16 then
        { t with job := .handshake { h with inbox := h.inbox ++ [(msg, src, vni)] } }
      else t
  | _ => tasks

/-- The tasks that the loop waits for. -/
def joined : Effect → Option ℕ
  | .allocCancelled task => some task
  | .handshakeCancelled task _ _ => some task
  | _ => none

/-- Hash tables may be iterated in any order. -/
def Reorders (s s' : State) : Prop :=
  s.serversByNodeKey.Reordered s'.serversByNodeKey ∧ s.allocWork.Reordered s'.allocWork ∧
    s.handshakeWork.Reordered s'.handshakeWork ∧ s.handshakeBySdv.Reordered s'.handshakeBySdv ∧
    s.handshakeAwaitingPong.Reordered s'.handshakeAwaitingPong ∧
    s.handshakeGeneration = s'.handshakeGeneration ∧ s.allocGeneration = s'.allocGeneration ∧
    s.spawned = s'.spawned

instance (s s' : State) : Decidable (Reorders s s') := by
  unfold Reorders
  infer_instance

/-- A step of the outside, of the manager or of a task. -/
inductive Action where
  | post (event : RelayEvent)
  | reauthorize (ctx : Context)
  | reorder (state : State)
  | dispatch (spawns : ℕ → Bool)
  | turn (id : ℕ) (turn : Turn)

namespace System

def new (ctx : Context) : System := ⟨.new, [], [], [], ctx⟩

def free (s : System) : Bool := s.joining.all fun id => (s.tasks[id]?).all (·.ended)

def step (s : System) : Action → Option (System × List Event)
  | .post event =>
    if event.isExternal then some ({ s with queue := s.queue ++ [⟨event, none⟩] }, []) else none
  | .reauthorize ctx => some ({ s with ctx }, [])
  | .reorder state => if Reorders s.state state then some ({ s with state }, []) else none
  | .dispatch spawns =>
    match s.queue with
    | [] => none
    | q :: queue =>
      if s.free then
        let (state, out) := s.state.dispatch s.ctx spawns q.event
        some ({ s with
          state
          tasks := out.foldl applyEffect s.tasks
          queue
          joining := out.filterMap joined }, .took q.event q.sender :: out.map .did)
      else none
  | .turn id turn =>
    match s.tasks[id]? with
    | none => none
    | some task =>
      if task.ended then none
      else do
        let w ← task.turn id turn
        return ({ s with
          tasks := s.tasks.set id w.task
          queue := s.queue ++ w.posted.toList.map fun event => ⟨event, some id⟩ }, w.log)

end System

def machine (ctx : Context) : Machine System Action Event := ⟨.new ctx, System.step⟩

end Rustscale.RelayManager
