import Rustscale.Magicsock.RelayTasks

/-! What holds in every run of the relay manager. -/
namespace Rustscale.RelayManager
open Disco HashTable List RelayManager.System Option

/-- One step of the system, with what it adds to the log. -/
inductive Steps : System → List Event → System → Prop
  | post {s : System} {event : RelayEvent} (external : event.isExternal = true) :
      Steps s [] { s with queue := s.queue ++ [⟨event, none⟩] }
  | reauthorize {s : System} (ctx : Context) : Steps s [] { s with ctx }
  | reorder {s : System} {state : State} (reorders : Reorders s.state state) :
      Steps s [] { s with state }
  | dispatch {s : System} {q : Queued} {queue : List Queued} (spawns : ℕ → Bool)
      (head : s.queue = q :: queue) (free : s.free = true) :
      Steps s (.took q.event q.sender :: (s.state.dispatch s.ctx spawns q.event).2.map .did) { s with
        state := (s.state.dispatch s.ctx spawns q.event).1
        tasks := (s.state.dispatch s.ctx spawns q.event).2.foldl applyEffect s.tasks
        queue
        joining := (s.state.dispatch s.ctx spawns q.event).2.filterMap joined }
  | turn {s : System} {id : ℕ} {turn : Turn} {task : Task} {w : Worked}
      (found : s.tasks[id]? = some task) (worked : task.turn id turn = some w) :
      Steps s w.log { s with
        tasks := s.tasks.set id w.task
        queue := s.queue ++ w.posted.toList.map fun event => ⟨event, some id⟩ }

theorem steps_of_step {s s' : System} {a : Action} {new : List Event}
    (h : s.step a = some (s', new)) : Steps s new s' := by
  cases a <;> simp only [step] at h
  case post event =>
    split_ifs at h with hexternal
    cases h
    exact .post hexternal
  case reauthorize ctx =>
    cases h
    exact .reauthorize ctx
  case reorder state =>
    split_ifs at h with hreorders
    cases h
    exact .reorder hreorders
  case dispatch spawns =>
    split at h
    · cases h
    · next q queue hqueue =>
      split_ifs at h with hfree
      cases h
      exact .dispatch spawns hqueue hfree
  case turn id turn =>
    split at h
    · cases h
    · next task hfound =>
      split_ifs at h
      simp only [Option.bind_eq_bind, Option.bind_eq_some_iff, Option.pure_def,
        some.injEq, Prod.mk.injEq] at h
      obtain ⟨w, hw, rfl, rfl⟩ := h
      exact .turn hfound hw

section
variable {s s' : State} {ctx : Context} {log new : List Event}

theorem lookup_ofList {κ ν : Type} [DecidableEq κ] {l : List (κ × ν)} {k : κ} {v : ν}
    (h : (ofList l).lookup k = some v) : (k, v) ∈ l := by
  induction l using reverseRecOn with
  | nil => cases h
  | append_singleton l e ih =>
    rw [ofList, foldl_append, foldl_cons, foldl_nil, lookup_insert_eq_some] at h
    rcases h with ⟨rfl, rfl⟩ | ⟨-, h⟩
    · simp
    · exact mem_append_left _ (ih h)

/-- A server in the table was listed by the update, or was there, up to its region. -/
theorem lookup_serversAfter {event : RelayEvent} {key : NodePublic} {server : CandidatePeerRelay}
    (h : (s.serversAfter ctx event).lookup key = some server) :
    (∃ servers, event = .serversUpdate servers ∧ server ∈ servers ∧ server.nodeKey = key) ∨
    (∀ servers, event ≠ .serversUpdate servers) ∧ ∃ region,
      s.serversByNodeKey.lookup key = some { server with derpHomeRegion := region } := by
  cases event with
  | serversUpdate servers =>
    obtain ⟨listed, hlisted, heq⟩ := mem_map.mp (lookup_ofList h)
    cases heq
    exact .inl ⟨servers, rfl, (mem_filter.mp hlisted).1, rfl⟩
  | derpHomeChange nodeKey region =>
    refine .inr ⟨by simp, ?_⟩
    simp only [State.serversAfter] at h
    split at h
    · exact ⟨server.derpHomeRegion, h⟩
    · next old hold =>
      rcases lookup_insert_eq_some.mp h with ⟨rfl, rfl⟩ | ⟨-, h⟩
      · exact ⟨old.derpHomeRegion, hold⟩
      · exact ⟨server.derpHomeRegion, h⟩
  | _ => exact .inr ⟨by simp, server.derpHomeRegion, h⟩

theorem serversByNodeKey_dispatch (hkeyed : Keyed s) (ctx : Context) (spawns : ℕ → Bool)
    (event : RelayEvent) :
    (s.dispatch ctx spawns event).1.serversByNodeKey = s.serversAfter ctx event := by
  obtain ⟨peer, rfl⟩ | ⟨result, rfl⟩ | hc := dispatch_cases hkeyed ctx spawns event
  · rfl
  · exact (handleHandshakeWorkDone_completes s ctx result).serversByNodeKey
  · exact hc.serversByNodeKey

theorem Keyed.dispatch (h : Keyed s) (ctx : Context) (spawns : ℕ → Bool) (event : RelayEvent) :
    Keyed (s.dispatch ctx spawns event).1 := by
  intro key server hserver
  rw [serversByNodeKey_dispatch h] at hserver
  rcases lookup_serversAfter hserver with ⟨_, -, -, hkey⟩ | ⟨-, region, hold⟩
  · exact hkey
  · have hkey := h key _ hold
    exact hkey

theorem Reorders.has (h : Reorders s s') (item : Item) : s'.Has item ↔ s.Has item := by
  obtain ⟨-, halloc, hwork, -⟩ := h
  cases item with
  | alloc key work => simp only [State.Has, halloc.lookup_eq]
  | handshake key work => simp only [State.Has, hwork.lookup_eq]

theorem Reorders.spawned_eq (h : Reorders s s') : s'.spawned = s.spawned := h.2.2.2.2.2.2.2.symm

theorem Keyed.reorder (h : Keyed s) (hr : Reorders s s') : Keyed s' := by
  intro key server
  rw [hr.1.lookup_eq]
  exact h key server

/-- The log explains what is registered, running and queued. -/
structure Sound (log : List Event) (s : System) : Prop where
  keyed : Keyed s.state
  registers : Registers log s.state
  tracks : Tracks log s.tasks
  length : s.tasks.length = s.state.spawned
  queue : ∀ q ∈ s.queue, Explained log q

theorem sound_start (ctx : Context) : Sound [] (.new ctx) where
  keyed key server h := by cases h
  registers := registers_start
  tracks := ⟨by simp [new], by simp, by simp [new]⟩
  length := rfl
  queue := by simp [new]

/-- Step: state, log and tasks stay in agreement. -/
theorem Sound.step {s s' : System} (h : Sound log s) (hs : Steps s new s') :
    Sound (log ++ new) s' := by
  cases hs with
  | post external =>
    rw [append_nil]
    refine ⟨h.keyed, h.registers, h.tracks, h.length, fun q hq => ?_⟩
    rcases mem_append.mp hq with hq | hq
    · exact h.queue q hq
    · obtain rfl := mem_singleton.mp hq
      exact external
  | reauthorize ctx =>
    rw [append_nil]
    exact ⟨h.keyed, h.registers, h.tracks, h.length, h.queue⟩
  | reorder reorders =>
    rw [append_nil]
    exact ⟨h.keyed.reorder reorders,
      h.registers.congr (fun _ => Iff.rfl) reorders.has reorders.spawned_eq, h.tracks,
      h.length.trans reorders.spawned_eq.symm, h.queue⟩
  | @dispatch q queue spawns head free =>
    have htook : ∀ e, .did e ∈ log ++ [Event.took q.event q.sender] ↔ .did e ∈ log := by simp
    have hregisters := h.registers.congr htook (fun _ => Iff.rfl) rfl
    have htracks : Tracks (log ++ [.took q.event q.sender]) s.tasks := h.tracks.append (by simp)
    obtain ⟨htracks, hlength⟩ := htracks.dispatch h.length h.keyed s.ctx spawns q.event
    rw [append_cons]
    refine ⟨h.keyed.dispatch s.ctx spawns q.event, hregisters.dispatch h.keyed s.ctx spawns q.event,
      htracks, hlength, fun q' hq' => ?_⟩
    rw [append_assoc]
    exact (h.queue q' (by rw [head]; exact mem_cons_of_mem _ hq')).append
  | @turn id turn task w found worked =>
    have hworks := Task.turn_works (h.tracks.evident id task found) worked
    refine ⟨h.keyed, h.registers.congr (fun e => ?_) (fun _ => Iff.rfl) rfl, ?_, ?_, fun q hq => ?_⟩
    · simp [hworks.quiet e]
    · have hset : s.tasks.set id w.task = s.tasks.modify id fun _ => w.task := by
        rw [modify_eq_set_getElem?, found]
        rfl
      rw [hset]
      refine h.tracks.modify (fun e he => absurd he (hworks.quiet e)) id _ (fun task' htask' => ?_)
        fun _ _ => hworks.evident
      obtain rfl := mem_unique found htask'
      exact hworks.started_eq
    · simpa using h.length
    · rcases mem_append.mp hq with hq | hq
      · exact (h.queue q hq).append
      · obtain ⟨event, hposted, rfl⟩ := mem_map.mp hq
        exact hworks.explained (h.tracks.started id task found) (mem_toList.mp hposted)

theorem sound_of_run {ctx : Context} {env : List Event → List Event → Prop} {s : System}
    (run : (machine ctx).Run env log s) : Sound log s :=
  run.invariant Sound (sound_start ctx) fun _ _ _ _ _ h taken _ => h.step (steps_of_step taken)

end

/-- A node that all others have authorized; its disco key follows its node key. -/
def openNode : Context := ⟨1, fun key => some (key + 1), fun _ => some 1⟩

def relayAt (nodeKey : NodePublic) : CandidatePeerRelay := ⟨nodeKey, nodeKey + 1, 0, 1⟩

def handle (event : RelayEvent) : List Action := [.post event, .dispatch fun _ => true]

def allocated (gen : BitVec 32) (peer nodeKey : NodePublic) (vni : BitVec 32) : RelayDiscoMsg :=
  ⟨.allocateUdpRelayEndpointResponse ⟨gen,
    { serverDisco := nodeKey + 1, clientDisco := (1, peer + 1), lamportId := 1, vni }⟩,
    nodeKey + 1, .v4 0x7F000001 9, 0, some nodeKey, some nodeKey, some 1⟩

/-- The task of an allocation asks, the server responds, and the result is handled. -/
def allocate (task : ℕ) (gen : BitVec 32) (peer nodeKey : NodePublic) (vni : BitVec 32) :
    List Action :=
  .turn task (.allocStart none true) :: handle (.discoMsg (allocated gen peer nodeKey vni)) ++
    [.turn task (.receive 0), .dispatch fun _ => true]

/-- The handshake that follows from an allocation. -/
def argsAt (peer nodeKey : NodePublic) (vni gen : ℕ) : HandshakeArgs :=
  ⟨peer, peer + 1, 1, relayAt nodeKey, ⟨nodeKey + 1, (1, peer + 1), 1, [], vni, 0, 0⟩, gen⟩

end Rustscale.RelayManager
