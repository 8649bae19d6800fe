import Rustscale.Magicsock.RelayLives

/-! The tasks of the relay manager: what they have in hand, and what they post. -/
namespace Rustscale.RelayManager
open Disco HashTable List Handshake Allocation RelayManager.Task Option
open Udprelay (SocketAddr ServerEndpoint)

def Job.started (id : ℕ) : Job → Effect
  | .alloc a => .allocStarted id a.args
  | .handshake h => .handshakeStarted id h.args

/-- What a handshake has in its channel was handed to it, and it has sent its pings. -/
def Job.Evident (log : List Event) (id : ℕ) : Job → Prop
  | .alloc _ => True
  | .handshake h => (∀ tx ∈ h.sentPings, .pinged id tx ∈ log) ∧
    ∀ m ∈ h.inbox, ∃ peer, .did (.handed id peer m.1 m.2.1 m.2.2) ∈ log

/-- Each task was started in the log, and has there the pings and pongs it knows of. -/
structure Tracks (log : List Event) (tasks : List Task) : Prop where
  started : ∀ id (task : Task), tasks[id]? = some task → .did (task.job.started id) ∈ log
  known : ∀ e item, .did e ∈ log → e.item = some item →
    ∃ task : Task, tasks[item.task]? = some task ∧ task.job.started item.task = e
  evident : ∀ id (task : Task), tasks[id]? = some task → task.job.Evident log id

section
variable {s s' : State} {log new : List Event} {tasks : List Task} {out : List Effect}

theorem Job.Evident.append {id : ℕ} {job : Job} (h : job.Evident log id) :
    job.Evident (log ++ new) id := by
  cases job with
  | alloc => trivial
  | handshake hs =>
    refine ⟨fun tx htx => mem_append_left _ (h.1 tx htx), fun m hm => ?_⟩
    obtain ⟨peer, hpeer⟩ := h.2 m hm
    exact ⟨peer, mem_append_left _ hpeer⟩

/-- Changing a task keeps what it was started for. -/
theorem Tracks.modify (h : Tracks log tasks) (hnew : ∀ e, .did e ∈ new → e.item = none) (id : ℕ)
    (f : Task → Task)
    (hjob : ∀ task, tasks[id]? = some task → (f task).job.started id = task.job.started id)
    (hev : ∀ task, tasks[id]? = some task → (f task).job.Evident (log ++ new) id) :
    Tracks (log ++ new) (tasks.modify id f) := by
  have hget : ∀ i, (tasks.modify id f)[i]? = if id = i then tasks[i]?.map f else tasks[i]? := by
    intro i
    rw [getElem?_modify]
    split <;> simp
  refine ⟨fun i task hi => ?_, fun e item he hitem => ?_, fun i task hi => ?_⟩
  · rw [hget] at hi
    refine mem_append_left _ ?_
    split_ifs at hi with hid
    · obtain ⟨old, hold, rfl⟩ := map_eq_some_iff.mp hi
      subst hid
      rw [hjob old hold]
      exact h.started _ old hold
    · exact h.started i task hi
  · have he : .did e ∈ log := by
      rcases mem_append.mp he with he | he
      · exact he
      · rw [hnew e he] at hitem
        cases hitem
    obtain ⟨task, htask, hstart⟩ := h.known e item he hitem
    rw [hget]
    split_ifs with hid
    · exact ⟨f task, by rw [htask]; rfl, by rw [← hid, hjob task (hid ▸ htask), hid, hstart]⟩
    · exact ⟨task, htask, hstart⟩
  · rw [hget] at hi
    split_ifs at hi with hid
    · obtain ⟨old, hold, rfl⟩ := map_eq_some_iff.mp hi
      subst hid
      exact hev old hold
    · exact (h.evident i task hi).append

theorem Tracks.append (h : Tracks log tasks) (hnew : ∀ e, .did e ∈ new → e.item = none) :
    Tracks (log ++ new) tasks := by
  have := h.modify hnew 0 id (fun _ _ => rfl) fun task htask => (h.evident 0 task htask).append
  rwa [modify_id] at this

/-- A started task is the next one in the table. -/
theorem Tracks.start (h : Tracks log tasks) (job : Job) (hev : job.Evident log tasks.length)
    (hitem : ∃ item, (job.started tasks.length).item = some item ∧ item.task = tasks.length) :
    Tracks (log ++ [.did (job.started tasks.length)]) (tasks ++ [⟨job, false, false⟩]) := by
  have hget : ∀ i task, (tasks ++ [⟨job, false, false⟩])[i]? = some task →
      tasks[i]? = some task ∨ i = tasks.length ∧ task = ⟨job, false, false⟩ := by
    intro i task hi
    rcases Nat.lt_trichotomy i tasks.length with hlt | rfl | hlt
    · rw [getElem?_append_left hlt] at hi
      exact .inl hi
    · rw [getElem?_concat_length] at hi
      exact .inr ⟨rfl, (some.inj hi).symm⟩
    · rw [getElem?_eq_none (by simp; omega)] at hi
      cases hi
  obtain ⟨item, hitem, htask⟩ := hitem
  refine ⟨fun i task hi => ?_, fun e item' he hitem' => ?_, fun i task hi => ?_⟩
  · rcases hget i task hi with hold | ⟨rfl, rfl⟩
    · exact mem_append_left _ (h.started i task hold)
    · simp
  · rcases mem_append.mp he with he | he
    · obtain ⟨task, hold, hstart⟩ := h.known e item' he hitem'
      have hlt := (List.getElem?_eq_some_iff.mp hold).1
      exact ⟨task, by rwa [getElem?_append_left hlt], hstart⟩
    · obtain rfl : e = job.started tasks.length := by simpa using he
      obtain rfl := mem_unique hitem hitem'
      exact ⟨⟨job, false, false⟩, by rw [htask, getElem?_concat_length], by rw [htask]⟩
  · rcases hget i task hi with hold | ⟨rfl, rfl⟩
    · exact (h.evident i task hold).append
    · exact hev.append

/-- An effect that starts nothing leaves the table's shape alone. -/
theorem Tracks.applyEffect (h : Tracks log tasks) {e : Effect} (hitem : e.item = none) :
    Tracks (log ++ [.did e]) (applyEffect tasks e) := by
  have hnew : ∀ e', .did e' ∈ [Event.did e] → e'.item = none := by
    intro e' he'
    obtain rfl : e' = e := by simpa using he'
    exact hitem
  have hcancel : ∀ id, Tracks (log ++ [.did e])
      (tasks.modify id fun t => { t with cancelled := true }) := fun id =>
    h.modify hnew id _ (fun _ _ => rfl) fun task htask => (h.evident id task htask).append
  cases e with
  | allocStarted | handshakeStarted => cases hitem
  | allocCancelled task | allocDone task | handshakeCancelled task | handshakeDone task =>
    exact hcancel task
  | responded id resp =>
    refine h.modify hnew id _ (fun task _ => ?_) fun task htask => ?_
    · split
      · next hjob => rw [hjob]; rfl
      · rfl
    · have hev : task.job.Evident (log ++ [.did (.responded id resp)]) id :=
        (h.evident id task htask).append
      split
      · trivial
      · exact hev
  | handed id peer msg src vni =>
    refine h.modify hnew id _ (fun task _ => ?_) fun task htask => ?_
    · split
      · rfl
      · next hjob =>
        split
        · rw [hjob]; rfl
        · rfl
    · have hev : task.job.Evident (log ++ [.did (.handed id peer msg src vni)]) id :=
        (h.evident id task htask).append
      split
      · exact hev
      · next hs hjob =>
        split
        · rw [hjob] at hev
          refine ⟨hev.1, fun m hm => ?_⟩
          rcases mem_append.mp hm with hm | hm
          · exact hev.2 m hm
          · obtain rfl := mem_singleton.mp hm
            exact ⟨peer, by simp⟩
        · exact hev
  | serversSet | setRelay | clearRelayServer | sendPongViaRelay => exact h.append hnew

@[simp] theorem length_applyEffect (tasks : List Task) (e : Effect) :
    (applyEffect tasks e).length = tasks.length + e.item.toList.length := by
  cases e <;> simp [applyEffect, Effect.item]

theorem Tracks.applyEffects (h : Tracks log tasks) (hitem : ∀ e ∈ out, e.item = none) :
    Tracks (log ++ out.map Event.did) (out.foldl RelayManager.applyEffect tasks) ∧
    (out.foldl RelayManager.applyEffect tasks).length = tasks.length := by
  induction out generalizing log tasks with
  | nil => simpa using h
  | cons e out ih =>
    have hrest := ih (h.applyEffect (hitem e (by simp))) fun e' he' => hitem e' (by simp [he'])
    rw [length_applyEffect, hitem e (by simp)] at hrest
    simpa using hrest

theorem Tracks.change (h : Tracks log tasks) (hlen : tasks.length = s.spawned)
    (hc : Change s out s') :
    Tracks (log ++ out.map Event.did) (out.foldl RelayManager.applyEffect tasks) ∧
    (out.foldl RelayManager.applyEffect tasks).length = s'.spawned := by
  rcases hc.items with ⟨hitem, hspawned⟩ | ⟨e, item, rfl, hitem, htask, hspawned⟩
  · rw [hspawned, ← hlen]
    exact h.applyEffects hitem
  · refine ⟨?_, by simp [hitem, hlen, hspawned]⟩
    rw [← hlen] at htask
    cases e with
    | allocStarted task args =>
      obtain rfl := some.inj hitem
      obtain rfl : task = tasks.length := htask
      exact h.start (.alloc ⟨args, false, none⟩) trivial ⟨_, hitem, rfl⟩
    | handshakeStarted task args =>
      obtain rfl := some.inj hitem
      obtain rfl : task = tasks.length := htask
      exact h.start (.handshake ⟨args, false, [], [], false, none⟩) ⟨by simp, by simp⟩ ⟨_, hitem, rfl⟩
    | _ => cases hitem

theorem Tracks.changes (h : Tracks log tasks) (hlen : tasks.length = s.spawned)
    (hc : Changes s out s') :
    Tracks (log ++ out.map Event.did) (out.foldl RelayManager.applyEffect tasks) ∧
    (out.foldl RelayManager.applyEffect tasks).length = s'.spawned := by
  induction hc generalizing log tasks with
  | nil => simpa using ⟨h, hlen⟩
  | cons change _ ih =>
    obtain ⟨h, hlen⟩ := h.change hlen change
    rw [map_append, ← append_assoc, foldl_append]
    exact ih h hlen

theorem Tracks.dispatch (h : Tracks log tasks) (hlen : tasks.length = s.spawned)
    (hkeyed : Keyed s) (ctx : Context) (spawns : ℕ → Bool) (event : RelayEvent) :
    Tracks (log ++ (s.dispatch ctx spawns event).2.map Event.did)
      ((s.dispatch ctx spawns event).2.foldl RelayManager.applyEffect tasks) ∧
    ((s.dispatch ctx spawns event).2.foldl RelayManager.applyEffect tasks).length =
      (s.dispatch ctx spawns event).1.spawned := by
  obtain ⟨peer, rfl⟩ | ⟨result, rfl⟩ | hc := dispatch_cases hkeyed ctx spawns event
  · obtain ⟨htracks, hlen'⟩ := h.applyEffects (items_stopWork s peer)
    exact ⟨htracks, hlen'.trans hlen⟩
  · obtain ⟨hitem, hspawned⟩ := (handleHandshakeWorkDone_completes s ctx result).items
    obtain ⟨htracks, hlen'⟩ := h.applyEffects hitem
    exact ⟨htracks, (hlen'.trans hlen).trans hspawned.symm⟩
  · exact Tracks.changes (s := { s with serversByNodeKey := s.serversAfter ctx event }) h hlen hc

/-- A handshake has received, from an address, a pong for a ping of its own. -/
def Ponged (log : List Event) (id : ℕ) (src : SocketAddr) (vni : ℕ) : Prop :=
  ∃ (pong : Pong) (peer : NodePublic), .pinged id pong.txId ∈ log ∧
    .did (.handed id peer (.pong pong) src vni) ∈ log ∧ .ponged id pong.txId src vni ∈ log

/-- What a turn may do, by the job of the task. -/
inductive Works (log : List Event) (id : ℕ) : Job → Worked → Prop
  | alloc {a : Allocation} {w : Worked} (start : w.task.job.started id = .allocStarted id a.args)
      (evident : w.task.job.Evident (log ++ w.log) id)
      (posted : ∀ event, w.posted = some event → ∃ se, event = .allocWorkDone (a.args.result se))
      (quiet : ∀ e, .did e ∉ w.log) (silent : ∀ e sender, .took e sender ∉ w.log) :
      Works log id (.alloc a) w
  | handshake {h : Handshake} {w : Worked}
      (start : w.task.job.started id = .handshakeStarted id h.args)
      (evident : w.task.job.Evident (log ++ w.log) id)
      (posted : ∀ event, w.posted = some event → ∃ pongFrom,
        event = .handshakeWorkDone (h.args.result pongFrom) ∧
        ∀ src, pongFrom = some src → Ponged (log ++ w.log) id src h.args.serverEndpoint.vni)
      (quiet : ∀ e, .did e ∉ w.log) (silent : ∀ e sender, .took e sender ∉ w.log) :
      Works log id (.handshake h) w

section
variable {id : ℕ} {h : Handshake} {cancelled : Bool}

variable {h' : Handshake} {w : Worked} {a a' : Allocation} {job : Job}

theorem works_handshake_goOn (hargs : h'.args = h.args) (hev : (Job.handshake h').Evident log id) :
    Works log id (.handshake h) (h'.goOn cancelled) :=
  .handshake (by rw [← hargs]; rfl) hev.append (by simp [Handshake.goOn]) (by simp [Handshake.goOn])
    (by simp [Handshake.goOn])

theorem works_handshake_finish (hev : (Job.handshake h).Evident log id) :
    Works log id (.handshake h) (h.finish cancelled none) := by
  refine .handshake rfl hev.append (fun event hposted => ?_) (by simp [Handshake.finish])
    (by simp [Handshake.finish])
  exact ⟨none, (some.inj hposted).symm, by simp⟩

theorem works_handshake_ping (hargs : h'.args = h.args) (hev : (Job.handshake h').Evident log id)
    (tx : BitVec 96) :
    Works log id (.handshake h) (h'.ping id cancelled tx) := by
  refine .handshake (by rw [← hargs]; rfl) ⟨fun tx' htx' => ?_, ?_⟩
    (by simp [Handshake.ping, Handshake.goOn]) (by simp [Handshake.ping]) (by simp [Handshake.ping])
  · rcases mem_insert_iff.mp htx' with rfl | htx'
    · exact mem_append_right _ (by simp [ping])
    · exact mem_append_left _ (hev.1 tx' htx')
  · exact (hev.append : (Job.handshake h').Evident (log ++ _) id).2

/-- Taking a message keeps a handshake's evidence. -/
theorem works_handshake_receive (hev : (Job.handshake h).Evident log id) {tx : BitVec 96}
    (hw : h.receive id cancelled tx = some w) : Works log id (.handshake h) w := by
  unfold Handshake.receive at hw
  split at hw
  · cases hw
  · next msg src vni inbox hinbox =>
    have hev' : (Job.handshake { h with inbox }).Evident log id :=
      ⟨hev.1, fun m hm => hev.2 m (by rw [hinbox]; exact mem_cons_of_mem _ hm)⟩
    obtain ⟨peer, hhanded⟩ := hev.2 (msg, src, vni) (by rw [hinbox]; simp)
    dsimp only at hw hhanded
    split at hw
    · obtain rfl := some.inj hw
      exact works_handshake_goOn rfl hev'
    · next hvni =>
      obtain rfl := some.inj hw
      unfold handle
      split
      · split
        · exact works_handshake_goOn rfl hev'
        · exact works_handshake_ping (by rfl) (by exact hev') tx
      · split
        · exact works_handshake_goOn rfl hev'
        · exact works_handshake_ping (by rfl) (by exact hev') tx
      · next pong =>
        split
        · next hsent =>
          refine .handshake rfl (Job.Evident.append hev') (fun event hposted => ?_) (by simp)
            (by simp)
          refine ⟨some src, (some.inj hposted).symm, ?_⟩
          rintro _ ⟨⟩
          refine ⟨pong, peer, mem_append_left _ (hev.1 _ hsent), ?_, ?_⟩
          · refine mem_append_left _ ?_
            rwa [not_not.mp hvni] at hhanded
          · exact mem_append_right _ (by simp)
        · exact works_handshake_goOn rfl hev'
      · exact works_handshake_goOn rfl hev'

theorem works_alloc_goOn (hargs : a'.args = a.args) : Works log id (.alloc a) (a'.goOn cancelled) :=
  .alloc (by rw [← hargs]; rfl) trivial (by simp [Allocation.goOn]) (by simp [Allocation.goOn])
    (by simp [Allocation.goOn])

theorem works_alloc_finish (hargs : a'.args = a.args) (se : Option ServerEndpoint) :
    Works log id (.alloc a) (a'.finish cancelled se) := by
  refine .alloc (by rw [← hargs]; rfl) trivial (fun event hposted => ?_)
    (by simp [Allocation.finish]) (by simp [Allocation.finish])
  rw [← hargs]
  exact ⟨se, (some.inj hposted).symm⟩

/-- Every turn of a task works on the evidence it has. -/
theorem Task.turn_works {task : Task} {turn : Turn} (hev : task.job.Evident log id)
    (hw : task.turn id turn = some w) :
    Works log id task.job w := by
  cases turn <;> simp only [turn] at hw
  case allocStart self sealed =>
    split at hw
    · next a hjob =>
      split_ifs at hw
      cases hw
      rw [hjob]
      unfold Allocation.start
      split
      iterate 2 · exact works_alloc_finish rfl _
      · split
        · exact works_alloc_goOn rfl
        · exact works_alloc_finish rfl _
    · cases hw
  case handshakeStart sealed =>
    split at hw
    · cases hw
    · next h hjob =>
      split_ifs at hw
      cases hw
      rw [hjob] at hev ⊢
      unfold Handshake.start
      split
      · exact works_handshake_goOn rfl hev
      · exact works_handshake_finish hev
  case receive tx =>
    split at hw
    · next a hjob =>
      split_ifs at hw
      rw [hjob]
      unfold Allocation.receive at hw
      split at hw
      · cases hw
      · dsimp only at hw
        split_ifs at hw <;> cases hw
        · exact works_alloc_finish (by rfl) _
        · exact works_alloc_goOn (by rfl)
    · next h hjob =>
      split_ifs at hw
      rw [hjob] at hev ⊢
      exact works_handshake_receive hev hw
  case retry tx =>
    split at hw
    · cases hw
    · next h hjob =>
      split_ifs at hw
      cases hw
      rw [hjob] at hev ⊢
      unfold retry
      split
      · exact works_handshake_ping rfl hev tx
      · exact works_handshake_goOn rfl hev
  case timeout =>
    split at hw
    · next a hjob =>
      split_ifs at hw
      cases hw
      rw [hjob]
      exact works_alloc_finish rfl _
    · next h hjob =>
      split_ifs at hw
      cases hw
      rw [hjob] at hev ⊢
      exact works_handshake_finish hev
  case cancel =>
    split_ifs at hw
    cases hw
    cases hjob : task.job with
    | alloc a =>
      exact .alloc rfl trivial (by simp) (by simp) (by simp)
    | handshake h =>
      exact .handshake rfl (hjob ▸ hev).append (by simp) (by simp) (by simp)

theorem Works.started_eq (h : Works log id job w) : w.task.job.started id = job.started id := by
  cases h with
  | alloc start => exact start
  | handshake start => exact start

theorem Works.quiet (h : Works log id job w) (e : Effect) : .did e ∉ w.log := by
  cases h with
  | alloc _ _ _ quiet | handshake _ _ _ quiet => exact quiet e

theorem Works.silent (h : Works log id job w) (event : RelayEvent) (sender : Option ℕ) :
    .took event sender ∉ w.log := by
  cases h with
  | alloc _ _ _ _ silent | handshake _ _ _ _ silent => exact silent event sender

theorem Works.evident (h : Works log id job w) : w.task.job.Evident (log ++ w.log) id := by
  cases h with
  | alloc _ evident | handshake _ evident => exact evident

end

/-- Callers post what they may, and tasks post their own results. -/
def Explained (log : List Event) (q : Queued) : Prop :=
  match q.sender with
  | none => q.event.isExternal = true
  | some id =>
    (∃ args se, .did (.allocStarted id args) ∈ log ∧ q.event = .allocWorkDone (args.result se)) ∨
    ∃ args pongFrom, .did (.handshakeStarted id args) ∈ log ∧
      q.event = .handshakeWorkDone (args.result pongFrom) ∧
      ∀ src, pongFrom = some src → Ponged log id src args.serverEndpoint.vni

theorem Ponged.append {id : ℕ} {src : SocketAddr} {vni : ℕ} (h : Ponged log id src vni) :
    Ponged (log ++ new) id src vni := by
  obtain ⟨pong, peer, hpinged, hhanded, hponged⟩ := h
  exact ⟨pong, peer, mem_append_left _ hpinged, mem_append_left _ hhanded,
    mem_append_left _ hponged⟩

theorem Explained.append {q : Queued} (h : Explained log q) : Explained (log ++ new) q := by
  unfold Explained at h ⊢
  split at h
  · exact h
  · rcases h with ⟨args, se, hstart, hevent⟩ | ⟨args, pongFrom, hstart, hevent, hpong⟩
    · exact .inl ⟨args, se, mem_append_left _ hstart, hevent⟩
    · exact .inr ⟨args, pongFrom, mem_append_left _ hstart, hevent,
        fun src hsrc => (hpong src hsrc).append⟩

theorem Works.explained {id : ℕ} {job : Job} {w : Worked} (h : Works log id job w)
    (hstart : .did (job.started id) ∈ log) {event : RelayEvent} (hposted : w.posted = some event) :
    Explained (log ++ w.log) ⟨event, some id⟩ := by
  cases h with
  | alloc _ _ posted =>
    obtain ⟨se, rfl⟩ := posted event hposted
    exact .inl ⟨_, se, mem_append_left _ hstart, rfl⟩
  | handshake _ _ posted =>
    obtain ⟨pongFrom, rfl, hpong⟩ := posted event hposted
    exact .inr ⟨_, pongFrom, mem_append_left _ hstart, rfl, hpong⟩

end

end Rustscale.RelayManager
