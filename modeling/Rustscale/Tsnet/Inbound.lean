import Rustscale.Tsnet.PeerMap
import Rustscale.Udprelay.Server
import Rustscale.Wg.Tunnel

/-! The receive paths of a burst of WireGuard datagrams: scalar, pipelined, and that of the
netstack. -/
namespace Rustscale.Inbound
open Octets Tailcfg Wg List
open Udprelay (SocketAddr)

/-- How a datagram arrived. -/
inductive WgTransportEvidence where
  | direct (addr : SocketAddr)
  | derp (region : ℤ)
  | relay (addr : SocketAddr)
  deriving DecidableEq

/-- An encrypted datagram as the socket hands it on. -/
structure WgDatagram where
  peer : PublicKey
  data : List Byte
  authorizationGeneration : ℕ
  transport : Option WgTransportEvidence
  deriving DecidableEq

/-- The map of the tunnels, and the tunnels themselves, which tasks share. -/
structure Tunnels (E : Engine) where
  byPeer : PublicKey → Option ℕ
  arena : ℕ → WgTunn E

variable {E : Engine}

def Tunnels.put (w : Tunnels E) (tunnel : ℕ) (t : WgTunn E) : Tunnels E :=
  { w with arena := Function.update w.arena tunnel t }

/-- Where a burst can be interrupted by a change of the peers. -/
inductive Moment where
  | tunnels
  | preflight (start : ℕ)
  | open (start : ℕ)
  | commit (start : ℕ)
  | collect (start : ℕ)
  | finish
  deriving DecidableEq

/-- What others do to the tunnels while a task waits, and whether it is cancelled then. -/
structure Env (E : Engine) where
  interfere : Moment → Tunnels E → Tunnels E
  cancelled : Moment → Bool

def Env.quiet : Env E := ⟨fun _ w => w, fun _ => false⟩

/-- Datagrams of one peer in a row. -/
structure InboundRun where
  peer : PublicKey
  tunnel : ℕ
  start : ℕ
  stop : ℕ
  deriving DecidableEq

/-- A run that has a tunnel, or one to drop. -/
inductive InboundBatchRun where
  | drop (start stop : ℕ)
  | routed (run : InboundRun)
  deriving DecidableEq

/-- A datagram that was given to a tunnel, with the state of the tunnel then. -/
structure Handed (E : Engine) where
  index : ℕ
  datagram : WgDatagram
  tunn : E.Tunn

/-- The state of a burst. `handed` is kept for the record only. -/
structure InboundBatchScratch (E : Engine) where
  datagrams : List WgDatagram
  runs : List InboundBatchRun
  plaintext : WgPlaintextBatch
  plaintextPeers : List PublicKey
  plaintextGenerations : List ℕ
  replies : List (PublicKey × ℕ × List Byte)
  authenticatedDatagrams : List ℕ
  opened : List (Option (WgOpenedPacket E))
  handed : List (Handed E)

namespace InboundBatchScratch

def new (id : ℕ) : InboundBatchScratch E := ⟨[], [], .new id, [], [], [], [], [], []⟩

/-- Every slot that is lent out comes back. -/
def abortOpened (s : InboundBatchScratch E) : InboundBatchScratch E :=
  { s with
    plaintext := s.opened.foldl
      (fun plaintext opened => (opened.map (·.abort plaintext)).getD plaintext) s.plaintext
    opened := [] }

def clear (s : InboundBatchScratch E) : InboundBatchScratch E :=
  ⟨[], [], s.abortOpened.plaintext.clear, [], [], [], [], [], []⟩

def slice (s : InboundBatchScratch E) (run : InboundRun) : List WgDatagram :=
  (s.datagrams.drop run.start).take (run.stop - run.start)

end InboundBatchScratch

def buildInboundRuns (tunnels : PublicKey → Option ℕ) (start : ℕ) :
    List WgDatagram → List InboundBatchRun
  | [] => []
  | d :: rest =>
    let n := (rest.takeWhile fun e => e.peer == d.peer).length
    let stop := start + 1 + n
    let run : InboundBatchRun :=
      match tunnels d.peer with
      | some tunnel => .routed ⟨d.peer, tunnel, start, stop⟩
      | none => .drop start stop
    run :: buildInboundRuns tunnels stop (rest.drop n)
termination_by datagrams => datagrams.length
decreasing_by simp only [length_drop, length_cons]; omega

variable (peer : PublicKey) (index : ℕ)

def collectDatagram (t : WgTunn E) (s : InboundBatchScratch E) (d : WgDatagram) :
    WgTunn E × InboundBatchScratch E :=
  let handed := s.handed ++ [⟨index, d, t.tunn⟩]
  match t.decapsulateInto d.data s.plaintext with
  | (.error _, t, plaintext) => (t, { s with plaintext, handed })
  | (.ok replies, t, plaintext) =>
    let n := plaintext.len - s.plaintext.len
    (t, { s with
      plaintext
      handed
      authenticatedDatagrams := s.authenticatedDatagrams ++ [index]
      plaintextPeers := s.plaintextPeers ++ replicate n peer
      plaintextGenerations :=
        s.plaintextGenerations ++ replicate n d.authorizationGeneration
      replies := s.replies ++ replies.map fun reply => (peer, d.authorizationGeneration, reply) })

def collectDatagrams (peer : PublicKey) (index : ℕ) (t : WgTunn E) (s : InboundBatchScratch E) :
    List WgDatagram → WgTunn E × InboundBatchScratch E
  | [] => (t, s)
  | d :: rest =>
    let (t, s) := collectDatagram peer index t s d
    collectDatagrams peer (index + 1) t s rest

def collectRuns (env : Env E) (w : Tunnels E) (s : InboundBatchScratch E) :
    List InboundBatchRun → Option (Tunnels E × InboundBatchScratch E)
  | [] => some (w, s)
  | .drop _ _ :: runs => collectRuns env w s runs
  | .routed run :: runs =>
    if env.cancelled (.collect run.start) then none
    else
      let w := env.interfere (.collect run.start) w
      let (t, s) := collectDatagrams run.peer run.start (w.arena run.tunnel) s (s.slice run)
      collectRuns env (w.put run.tunnel t) s runs

/-- Decapsulate the datagrams one by one; `none` if the task is cancelled. -/
def collectTunInboundBatch (env : Env E) (w : Tunnels E) (s : InboundBatchScratch E) :
    Option (Tunnels E × InboundBatchScratch E) :=
  if env.cancelled .tunnels then none
  else do
    let w := env.interfere .tunnels w
    let (w, s) ← collectRuns env w { s with runs := [] } (buildInboundRuns w.byPeer 0 s.datagrams)
    if env.cancelled .finish then none else return (w, s)

/-- The tunnels after the preflight, and whether the burst is for the scalar path. -/
def preflightRuns (env : Env E) (s : InboundBatchScratch E) (w : Tunnels E) :
    List InboundBatchRun → Option (Tunnels E × Bool)
  | [] => some (w, false)
  | .drop _ _ :: _ => some (w, true)
  | .routed run :: runs =>
    if env.cancelled (.preflight run.start) then none
    else
      let w := env.interfere (.preflight run.start) w
      if (s.slice run).any fun d => maxPipelinedEncryptedBody < d.data.length - 16 ||
          ((w.arena run.tunnel).preflightData d.data).isNone then some (w, true)
      else preflightRuns env s w runs

/-- Open one datagram; the flag says that this failed. -/
def openDatagram (t : WgTunn E) (index : ℕ) (s : InboundBatchScratch E) (d : WgDatagram) :
    InboundBatchScratch E × Bool :=
  match t.preflightData d.data with
  | none => (s, true)
  | some prepared =>
    match t.openPreparedInto d.data prepared s.plaintext with
    | (none, plaintext) => ({ s with plaintext }, true)
    | (some opened, plaintext) =>
      ({ s with plaintext, opened := s.opened.set index (some opened) }, false)

def openDatagrams (t : WgTunn E) (index : ℕ) (s : InboundBatchScratch E) :
    List WgDatagram → InboundBatchScratch E × Bool
  | [] => (s, false)
  | d :: rest =>
    let (s, failed) := openDatagram t index s d
    if failed then (s, true) else openDatagrams t (index + 1) s rest

def openRuns (env : Env E) (w : Tunnels E) (s : InboundBatchScratch E) :
    List InboundBatchRun → Option (Tunnels E × InboundBatchScratch E × Bool)
  | [] => some (w, s, false)
  | .drop _ _ :: _ => some (w, s, true)
  | .routed run :: runs =>
    if env.cancelled (.open run.start) then none
    else
      let w := env.interfere (.open run.start) w
      let (s, failed) := openDatagrams (w.arena run.tunnel) run.start s (s.slice run)
      if failed then some (w, s, true) else openRuns env w s runs

def InboundBatchScratch.giveUp (s : InboundBatchScratch E) : InboundBatchScratch E :=
  { s.abortOpened with plaintext := s.abortOpened.plaintext.clear }

/-- The worker opens the whole burst, or nothing. Tunnels change only through others. -/
def openTunInboundBatch (env : Env E) (w : Tunnels E) (s : InboundBatchScratch E) :
    Option (Tunnels E × InboundBatchScratch E) :=
  if env.cancelled .tunnels then none
  else do
    let w := env.interfere .tunnels w
    let s := { s with runs := buildInboundRuns w.byPeer 0 s.datagrams }
    let (w, scalarOnly) ← preflightRuns env s w s.runs
    if scalarOnly then return (w, s.abortOpened)
    else
      let n := s.datagrams.length
      let s := { s with opened := s.opened.take n ++ replicate (n - s.opened.length) none }
      let (w, s, failed) ← openRuns env w s s.runs
      return (w, if failed then s.giveUp else s)

/-- Lock the tunnels of the runs; the flag says that all runs have one. -/
def lockRuns (env : Env E) (w : Tunnels E) : List InboundBatchRun → Option (Tunnels E × Bool)
  | [] => some (w, true)
  | .drop _ _ :: _ => some (w, false)
  | .routed run :: runs =>
    if env.cancelled (.commit run.start) then none
    else lockRuns env (env.interfere (.commit run.start) w) runs

def validRuns (w : Tunnels E) (s : InboundBatchScratch E) (runs : List InboundBatchRun) : Bool :=
  runs.all fun
    | .drop _ _ => false
    | .routed run => (range' run.start (run.stop - run.start)).all fun index =>
      match s.opened[index]?.join with
      | none => false
      | some opened => (w.arena run.tunnel).preflightOpened opened s.plaintext

def commitDatagram (t : WgTunn E) (s : InboundBatchScratch E) (d : WgDatagram) :
    Option (WgTunn E × InboundBatchScratch E) :=
  match s.opened[index]?.join with
  | none => some (t, s)
  | some opened =>
    let handed := s.handed ++ [⟨index, d, t.tunn⟩]
    match t.commitOpened opened s.plaintext with
    | (.accepted, t, opened, plaintext) =>
      some (t, { s with
        plaintext
        handed
        opened := s.opened.set index (some opened)
        authenticatedDatagrams := s.authenticatedDatagrams ++ [index]
        plaintextPeers := s.plaintextPeers ++ [peer]
        plaintextGenerations := s.plaintextGenerations ++ [d.authorizationGeneration] })
    | (.dropped, t, opened, plaintext) =>
      some (t, { s with plaintext, handed, opened := s.opened.set index (some opened) })
    | (.stale, _, _, _) => none

def commitDatagrams (peer : PublicKey) (index : ℕ) (t : WgTunn E) (s : InboundBatchScratch E) :
    List WgDatagram → Option (WgTunn E × InboundBatchScratch E)
  | [] => some (t, s)
  | d :: rest => do
    let (t, s) ← commitDatagram peer index t s d
    commitDatagrams peer (index + 1) t s rest

def commitRuns (w : Tunnels E) (s : InboundBatchScratch E) :
    List InboundBatchRun → Option (Tunnels E × InboundBatchScratch E)
  | [] => some (w, s)
  | .drop _ _ :: runs => commitRuns w s runs
  | .routed run :: runs => do
    let (t, s) ← commitDatagrams run.peer run.start (w.arena run.tunnel) s (s.slice run)
    commitRuns (w.put run.tunnel t) s runs

/-- The burst is opened, and every token holds under the locks. -/
def commits (w : Tunnels E) (s : InboundBatchScratch E) (locked : Bool) : Bool :=
  locked && validRuns w s s.runs

/-- The pump: commit the whole burst in order, or take the scalar path. -/
def commitOrScalarTunInboundBatch (env : Env E) (w : Tunnels E) (s : InboundBatchScratch E) :
    Option (Tunnels E × InboundBatchScratch E) :=
  if s.opened.length ≠ s.datagrams.length then collectTunInboundBatch env w s
  else do
    let (w, locked) ← lockRuns env w s.runs
    if commits w s locked then
      let (w, s) ← commitRuns w s s.runs
      if env.cancelled .finish then none else return (w, { s with runs := [], opened := [] })
    else collectTunInboundBatch env w s.giveUp

/-- What the path through the userspace stack gives. -/
structure NetstackOut (E : Engine) where
  delivered : List (PublicKey × List Byte)
  authenticated : List ℕ
  replies : List (PublicKey × List Byte)
  handed : List (Handed E)

/-- The answers for a run at its start and for each datagram, which may change at any time. -/
structure Authorization where
  before : ℕ → Bool
  guarded : ℕ → Bool
  each : ℕ → Bool

def netstackDatagram (t : WgTunn E) (out : NetstackOut E) (d : WgDatagram) :
    WgTunn E × NetstackOut E :=
  let handed := out.handed ++ [⟨index, d, t.tunn⟩]
  let (decap, t) := t.decapsulate d.data
  (t, {
    delivered := out.delivered ++ decap.plaintext.toList.map fun pt => (peer, pt)
    authenticated := out.authenticated ++ [index]
    replies := out.replies ++ decap.replies.map fun reply => (peer, reply)
    handed })

def netstackDatagrams (auth : Authorization) (peer : PublicKey) (index : ℕ) (t : WgTunn E)
    (out : NetstackOut E) : List WgDatagram → WgTunn E × NetstackOut E
  | [] => (t, out)
  | d :: rest =>
    if auth.each index then
      let (t, out) := netstackDatagram peer index t out d
      netstackDatagrams auth peer (index + 1) t out rest
    else (t, out)

def handleInboundWgDatagrams (auth : Authorization) (env : Env E) (start : ℕ) (w : Tunnels E)
    (out : NetstackOut E) : List WgDatagram → Tunnels E × NetstackOut E
  | [] => (w, out)
  | d :: rest =>
    let same (e : WgDatagram) : Bool :=
      e.peer == d.peer && e.authorizationGeneration == d.authorizationGeneration
    let n := (rest.takeWhile same).length
    let w := env.interfere (.collect start) w
    let (w, out) :=
      match w.byPeer d.peer with
      | some tunnel =>
        if auth.before start && auth.guarded start then
          let (t, out) := netstackDatagrams auth d.peer start (w.arena tunnel) out
            (d :: rest.takeWhile same)
          (w.put tunnel t, out)
        else (w, out)
      | none => (w, out)
    handleInboundWgDatagrams auth env (start + 1 + n) w out (rest.drop n)
termination_by datagrams => datagrams.length
decreasing_by simp only [length_drop, length_cons]; omega

end Rustscale.Inbound
