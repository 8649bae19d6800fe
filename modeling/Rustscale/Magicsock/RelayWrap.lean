import Rustscale.Magicsock.RelayInstall

/-! The numbers of handshakes come round: a completion that waits behind all of them is taken for
another handshake. -/
namespace Rustscale.RelayManager
open Disco HashTable Machine List State RelayManager.System

theorem nextGen_of_lt {generation : ℕ} (h : generation + 1 < 2 ^ 32) :
    nextGen generation = generation + 1 := by
  rw [nextGen, Nat.mod_eq_of_lt h, if_neg (Nat.succ_ne_zero generation)]

theorem iterate_nextGen {generation : ℕ} : ∀ {n : ℕ}, generation + n < 2 ^ 32 →
    nextGen^[n] generation = generation + n
  | 0, _ => rfl
  | n + 1, h => by
    rw [Function.iterate_succ_apply', iterate_nextGen (by omega), nextGen_of_lt (by omega),
      Nat.add_assoc]

def restart (lamport vni : ℕ) : RelayEvent :=
  .newServerEndpoint 10 11 1 ⟨21, (1, 11), lamport, [], vni, 0, 0⟩ none

def oneWork (generation lamport task vni : ℕ) : State where
  serversByNodeKey := (∅ : HashTable _ _).insert 20 (relayAt 20)
  allocWork := ∅
  handshakeWork := (∅ : HashTable _ _).insert (10, 21)
    ⟨1, relayAt 20, generation, vni, lamport, task⟩
  handshakeBySdv := (∅ : HashTable _ _).insert ⟨21, vni⟩ 10
  handshakeAwaitingPong := ∅
  handshakeGeneration := generation
  allocGeneration := 1
  spawned := task + 1

def restartArgs (generation lamport vni : ℕ) : HandshakeArgs :=
  ⟨10, 11, 1, relayAt 20, ⟨21, (1, 11), lamport, [], vni, 0, 0⟩, generation⟩

def noWork (generation task : ℕ) : State :=
  { oneWork generation 0 task 0 with handshakeWork := ∅, handshakeBySdv := ∅ }

section
variable {generation lamport task vni lamport' vni' : ℕ}

theorem lookup_oneWork : (oneWork generation lamport task vni).handshakeWork.lookup (10, 21) =
    some ⟨1, relayAt 20, generation, vni, lamport, task⟩ := AList.lookup_insert _

theorem cancelHandshake_oneWork : (oneWork generation lamport task vni).cancelHandshake 10 21 =
    (noWork generation task, [.handshakeCancelled task 10 vni]) := by
  rw [cancelHandshake_eq lookup_oneWork]
  simp only [oneWork, noWork, erase_singleton]
  rfl

theorem startHandshake_noWork : (noWork generation task).startHandshake (fun _ => true) 10 11 1
    ⟨21, (1, 11), lamport, [], vni, 0, 0⟩ (relayAt 20) =
      (oneWork (nextGen generation) lamport (task + 1) vni,
        [.handshakeStarted (task + 1) (restartArgs (nextGen generation) lamport vni)]) := rfl

theorem replaceOwn_oneWork (h : lamport < lamport') :
    (oneWork generation lamport task vni).replaceOwn (fun _ => true) 10 11 1
      ⟨21, (1, 11), lamport', [], vni', 0, 0⟩ (relayAt 20) =
      (oneWork (nextGen generation) lamport' (task + 1) vni', [.handshakeCancelled task 10 vni,
          .handshakeStarted (task + 1) (restartArgs (nextGen generation) lamport' vni')]) := by
  have hnewer : ¬lamport' ≤ lamport := by omega
  simp only [replaceOwn, lookup_oneWork, Option.any_some, hnewer, decide_false,
    Bool.false_eq_true, if_false, cancelHandshake_oneWork, startHandshake_noWork,
    singleton_append]

theorem replaceOwn_noWork : (noWork generation task).replaceOwn (fun _ => true) 10 11 1
    ⟨21, (1, 11), lamport, [], vni, 0, 0⟩ (relayAt 20) =
      (oneWork (nextGen generation) lamport (task + 1) vni,
        [.handshakeStarted (task + 1) (restartArgs (nextGen generation) lamport vni)]) := rfl

/-- A newer endpoint restarts the handshake under the next generation. -/
theorem dispatch_restart (h : lamport < lamport') :
    (oneWork generation lamport task vni).dispatch openNode (fun _ => true) (restart lamport' vni') =
      (oneWork (nextGen generation) lamport' (task + 1) vni', [.handshakeCancelled task 10 vni,
          .handshakeStarted (task + 1) (restartArgs (nextGen generation) lamport' vni')]) := by
  have hauth : openNode.peerAuthorizationGeneration 10 = some 1 := rfl
  have hdisco : openNode.peerDiscoKey 10 = some 11 := rfl
  have hcurrent : (oneWork generation lamport task vni).hasCurrentServer openNode (relayAt 20) =
    true := rfl
  have hnewer : ¬lamport' ≤ lamport := by omega
  simp only [dispatch, restart, handleNewServerEndpoint, hauth, hdisco, lookup_oneWork,
    ne_eq, not_true_eq_false, or_self, if_false, Option.map_some, Option.none_or, hcurrent,
    Bool.not_true, Bool.false_eq_true]
  by_cases hvni : vni' = vni
  · subst hvni
    have hindex : (oneWork generation lamport task vni').handshakeBySdv.lookup ⟨21, vni'⟩ =
      some 10 := AList.lookup_insert _
    simp only [hindex, lookup_oneWork, Option.any_some, hnewer, decide_false, Bool.false_eq_true,
      if_false, cancelHandshake_oneWork, replaceOwn_noWork, singleton_append]
  · have hindex : (oneWork generation lamport task vni).handshakeBySdv.lookup ⟨21, vni'⟩ = none := by
      have hne : (⟨21, vni'⟩ : ServerDiscoVni) ≠ ⟨21, vni⟩ := by simp [hvni]
      exact (AList.lookup_insert_ne hne).trans rfl
    simp only [hindex, replaceOwn_oneWork h]

end

theorem step_turn {s : System} {id : ℕ} {turn : Turn} {task : Task} {w : Worked}
    (found : s.tasks[id]? = some task) (running : task.ended = false)
    (worked : task.turn id turn = some w) : s.step (.turn id turn) = some ({ s with
      tasks := s.tasks.set id w.task
      queue := s.queue ++ w.posted.toList.map fun event => ⟨event, some id⟩ }, w.log) := by
  simp [System.step, found, running, worked]

theorem run_step {log new : List Event} {s s' : System} {a : Action}
    (run : (machine openNode).Run (fun _ _ => True) log s) (h : s.step a = some (s', new)) :
    (machine openNode).Run (fun _ _ => True) (log ++ new) s' := Run.step run h trivial

def newTask (args : HandshakeArgs) : Task :=
  ⟨.handshake ⟨args, false, [], [], false, none⟩, false, false⟩

/-- One handshake, whose task can be made to end, with the queue going on. -/
structure Loops (s : System) (generation lamport task vni : ℕ) (queue : List Queued) : Prop where
  state : s.state = oneWork generation lamport task vni
  ctx : s.ctx = openNode
  queue : s.queue = queue
  free : s.free = true
  length : s.tasks.length = task + 1
  current : ∃ t, s.tasks[task]? = some t ∧ (t.ended = false → t.job.waiting = true)

section
variable {log : List Event} {s : System} {generation lamport task vni lamport' vni' : ℕ}
variable {queue : List Queued}

section
variable (run : (machine openNode).Run (fun _ _ => True) log s)
include run

/-- One restart later the loop is where it was, one generation on. -/
theorem Loops.next
    (h : Loops s generation lamport task vni (⟨restart lamport' vni', none⟩ :: queue))
    (hlamport : lamport < lamport') : ∃ log' s', (machine openNode).Run (fun _ _ => True) log' s' ∧
      Loops s' (nextGen generation) lamport' (task + 1) vni' queue := by
  obtain ⟨t, ht, hwaiting⟩ := h.current
  let args := restartArgs (nextGen generation) lamport' vni'
  let s1 : System := { s with
    state := oneWork (nextGen generation) lamport' (task + 1) vni'
    tasks := s.tasks.modify task (fun t => { t with cancelled := true }) ++ [newTask args]
    queue
    joining := [task]
    ctx := openNode }
  have hstep1 : s.step (.dispatch fun _ => true) = some (s1, .took (restart lamport' vni') none ::
      [.did (.handshakeCancelled task 10 vni), .did (.handshakeStarted (task + 1) args)]) := by
    simp only [System.step, h.queue, h.free, if_true, h.state, h.ctx, dispatch_restart hlamport]
    rfl
  have hlength1 : (s.tasks.modify task fun t => { t with cancelled := true }).length = task + 1 := by
    rw [length_modify, h.length]
  have hold1 : s1.tasks[task]? = some { t with cancelled := true } := by
    rw [getElem?_append_left (by omega), getElem?_modify_eq, ht]
    rfl
  have hnew1 : s1.tasks[task + 1]? = some (newTask args) := by
    rw [← hlength1]
    exact getElem?_concat_length
  -- the old task notices that it was cancelled, unless it has ended before
  obtain ⟨log2, s2, run2, hs2, ⟨t2, hold2, hended2⟩, hnew2, hlength2⟩ : ∃ log2 s2,
      (machine openNode).Run (fun _ _ => True) log2 s2 ∧ s2 = { s1 with tasks := s2.tasks } ∧
      (∃ t2, s2.tasks[task]? = some t2 ∧ t2.ended = true) ∧
      s2.tasks[task + 1]? = some (newTask args) ∧ s2.tasks.length = task + 2 := by
    have run1 := run_step run hstep1
    have hlength : s1.tasks.length = task + 2 := by
      rw [length_append, hlength1]
      rfl
    cases hended : t.ended with
    | true => exact ⟨_, s1, run1, rfl, ⟨_, hold1, hended⟩, hnew1, hlength⟩
    | false =>
      have hturn : ({ t with cancelled := true } : Task).turn task .cancel =
          some ⟨{ t with cancelled := true, ended := true }, none, []⟩ := by
        simp [Task.turn, hwaiting hended]
      refine ⟨_, _, run_step run1 (step_turn hold1 hended hturn), ?_,
        ⟨{ t with cancelled := true, ended := true }, ?_, rfl⟩, ?_, ?_⟩
      · simp
      · exact getElem?_set_self (by omega)
      · rw [getElem?_set_ne (by omega)]
        exact hnew1
      · simpa using hlength
  -- the new task sends its first message
  have hturn : (newTask args).turn (task + 1) (.handshakeStart true) =
    some ⟨⟨.handshake ⟨args, true, [], [], false, none⟩, false, false⟩, none, []⟩ := rfl
  refine ⟨_, _, run_step run2 (step_turn hnew2 rfl hturn), ?_⟩
  rw [hs2]
  refine ⟨rfl, rfl, append_nil _, ?_, ?_, _,
    getElem?_set_self (show task + 1 < s2.tasks.length by omega), fun _ => rfl⟩
  · have hold : (s2.tasks.set (task + 1) ⟨.handshake ⟨args, true, [], [], false, none⟩, false,
        false⟩)[task]? = some t2 := by
      rw [getElem?_set_ne (by omega)]
      exact hold2
    simp [System.free, s1, hold, hended2]
  · simpa using hlength2

theorem Loops.iterate : ∀ n,
    Loops s generation lamport task vni
      ((range' (lamport + 1) n).map (fun l => ⟨restart l vni, none⟩) ++ queue) →
    ∃ log' s', (machine openNode).Run (fun _ _ => True) log' s' ∧
      Loops s' (nextGen^[n] generation) (lamport + n) (task + n) vni queue := by
  intro n
  induction n generalizing log s generation lamport task with
  | zero => exact fun h => ⟨log, s, run, h⟩
  | succ n ih =>
    intro h
    rw [range'_succ, map_cons, cons_append] at h
    obtain ⟨log1, s1, run1, h1⟩ := h.next run (Nat.lt_succ_self lamport)
    obtain ⟨log2, s2, run2, h2⟩ := ih run1 h1
    refine ⟨log2, s2, run2, ?_⟩
    rwa [Nat.add_right_comm lamport, Nat.add_right_comm task] at h2

theorem run_posts (events : List RelayEvent) (hexternal : ∀ event ∈ events, event.isExternal = true) :
    (machine openNode).Run (fun _ _ => True) log
      { s with queue := s.queue ++ events.map fun event => ⟨event, none⟩ } := by
  induction events using reverseRecOn with
  | nil => simpa using run
  | append_singleton events event ih =>
    have hpost := run_step (a := .post event) (ih fun e he => hexternal e (by simp [he]))
      (if_pos (hexternal event (by simp)))
    simpa using hpost

end

end

def allocTask : Task := ⟨.alloc ⟨⟨10, 11, 1, relayAt 20, (1, 11), 1⟩, true, none⟩, true, true⟩

def waitingTask : Task := ⟨.handshake ⟨restartArgs 1 1 1, true, [], [], false, none⟩, false, false⟩

theorem exec_oneHandshake : ∃ log, exec (machine openNode) oneHandshake [] (.new openNode) =
    some (log, ⟨oneWork 1 1 1 1, [allocTask, waitingTask], [], [], openNode⟩) := ⟨_, rfl⟩

def firstDone : Queued := ⟨.handshakeWorkDone ((restartArgs 1 1 1).result none), some 1⟩

/-- The handshake times out while all the restarts are in the queue. -/
theorem exists_loops (n : ℕ) : ∃ log s, (machine openNode).Run (fun _ _ => True) log s ∧
    Loops s 1 1 1 1 ((range' 2 n).map (fun l => ⟨restart l 1, none⟩) ++
      [⟨restart (n + 2) 6, none⟩, firstDone]) := by
  obtain ⟨log, hexec⟩ := exec_oneHandshake
  have run : (machine openNode).Run (fun _ _ => True) log _ :=
    Run.start.exec hexec (kept_of_forall (fun _ _ => trivial) _ _ _)
  have hposted := run_posts run ((range' 2 n).map (fun l => restart l 1) ++ [restart (n + 2) 6])
    fun event hevent => by
      rcases mem_append.mp hevent with hevent | hevent
      · obtain ⟨l, -, rfl⟩ := mem_map.mp hevent
        rfl
      · rw [mem_singleton.mp hevent]
        rfl
  have hturn : waitingTask.turn 1 .timeout = some ⟨{ waitingTask with ended := true },
    some firstDone.event, []⟩ := rfl
  refine ⟨_, _, run_step hposted (step_turn rfl rfl hturn), rfl, rfl, ?_, rfl,
    rfl, _, rfl, nofun⟩
  simp [firstDone]

theorem dispatch_firstDone (lamport task vni : ℕ) :
    (oneWork 1 lamport task vni).dispatch openNode (fun _ => true) firstDone.event =
      ((oneWork 1 lamport task vni).retire ((restartArgs 1 1 1).result none),
        [.handshakeDone task 10]) := by
  simp only [dispatch, firstDone, handleHandshakeWorkDone, HandshakeArgs.result,
    restartArgs, lookup_oneWork]
  rfl

/-- A completion can leave an entry without a handshake. -/
theorem index_dangles : ∃ log s, (machine openNode).Run (fun _ _ => True) log s ∧
    ¬Indexed s.state := by
  obtain ⟨log0, s0, run0, h0⟩ := exists_loops (2 ^ 32 - 2)
  obtain ⟨log1, s1, run1, h1⟩ := Loops.iterate run0 _ h0
  obtain ⟨log2, s2, run2, h2⟩ := h1.next run1 (by omega)
  -- the last restart has the number of the first one
  rw [iterate_nextGen (by norm_num), show nextGen (1 + (2 ^ 32 - 2)) = 1 from rfl] at h2
  refine ⟨_, _, run_step (a := .dispatch fun _ => true) run2
    (by simp only [System.step, h2.queue, h2.free, if_true]; rfl), fun hindexed => ?_⟩
  dsimp only at hindexed
  rw [h2.state, h2.ctx, dispatch_firstDone] at hindexed
  obtain ⟨work, hwork, -⟩ := (hindexed ⟨21, 6⟩ 10).mp rfl
  cases hwork

end Rustscale.RelayManager
