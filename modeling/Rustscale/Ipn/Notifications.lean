import Rustscale.Ipn.Backend

/-! The notifications of the backend: commits queued under a lock, delivered to callbacks by
whichever thread is the drainer, and broadcast on a bus that forgets. -/
namespace Rustscale.Ipn.Notifications

open List Option

variable {π : Type}

/-- What subscribers are told of: a state or a change of profiles. -/
inductive Notice (π : Type) where
  | state (state : State)
  | profile (snapshot : π)
  deriving DecidableEq

def Notice.isState : Notice π → Bool
  | .state _ => true
  | .profile _ => false

/-- A queued notification with the callbacks that were registered at its commit. -/
structure BackendNotification (π : Type) where
  notice : Notice π
  callbacks : List ℕ

/-- The holder of a `ProfileNotification` that is the drainer. The others do nothing. -/
inductive Worker (π : Type) where
  | token
  | draining
  | invoking (notification : BackendNotification π)
  /-- A callback runs, the others wait for it to return. -/
  | calling (rest : BackendNotification π)
  | done

/-- A callback, how much was committed before it and what it was called for. -/
structure Callback (π : Type) where
  isState : Bool
  since : ℕ
  snapshot : Option State := none
  called : List (Notice π) := []
  deriving DecidableEq

/-- A subscriber of the bus: where it started, what it has read, and if it fell behind. -/
structure Receiver (π : Type) where
  since : ℕ
  snapshot : Option State
  cursor : ℕ
  received : List (Notice π) := []
  lagged : Bool := false
  deriving DecidableEq

/-- The bus is everything that was sent on it. -/
structure Backend (π : Type) where
  state : State := .noState
  callbacks : List (Callback π) := []
  draining : Bool := false
  queue : List (BackendNotification π) := []
  workers : List (Worker π) := []
  bus : List (Notice π) := []
  receivers : List (Receiver π) := []

inductive Action (π : Type) where
  | commitState (state : State)
  | commitProfile (snapshot : π)
  | addCallback (isState : Bool)
  | subscribeWithSnapshot
  | subscribeWithInitialNotify (initialState : Bool)
  | recv (receiver : ℕ)
  | work (worker : ℕ)

def channelCapacity : ℕ := 128

namespace Backend
variable (s : Backend π)

def registered (isState : Bool) : List ℕ :=
  (range s.callbacks.length).filter fun i => s.callbacks[i]?.any (·.isState == isState)

def queueNotification (n : Notice π) : Backend π :=
  { s with
    bus := s.bus ++ [n]
    queue := s.queue ++ [⟨n, s.registered n.isState⟩]
    draining := true
    workers := if s.draining then s.workers else s.workers ++ [.token] }

/-- `dispatch`, or one step of `drain_notifications` or `invoke_notification`. -/
def work (i : ℕ) : Option (Backend π) :=
  let moved (w : Worker π) : Backend π := { s with workers := s.workers.set i w }
  match s.workers[i]? with
  | some .token => some (moved .draining)
  | some .draining =>
    match s.queue with
    | [] => some { moved .done with draining := false }
    | n :: queue => some { moved (.invoking n) with queue }
  | some (.invoking ⟨_, []⟩) => some (moved .draining)
  | some (.invoking ⟨n, callback :: rest⟩) =>
    some { moved (.calling ⟨n, rest⟩) with
      callbacks := s.callbacks.modify callback fun c => { c with called := c.called ++ [n] } }
  | some (.calling n) => some (moved (.invoking n))
  | _ => none

/-- A receiver more than the capacity behind goes on with the oldest message there is. -/
def recv (i : ℕ) : Option (Backend π) :=
  let moved (r : Receiver π) : Backend π := { s with receivers := s.receivers.set i r }
  (s.receivers[i]?).bind fun r =>
    if r.cursor + channelCapacity < s.bus.length then
      some (moved { r with cursor := s.bus.length - channelCapacity, lagged := true })
    else
      (s.bus[r.cursor]?).map fun n =>
        moved { r with cursor := r.cursor + 1, received := r.received ++ [n] }

/-- Each step is what is done while locks are held. -/
def step : Action π → Option (Backend π)
  | .commitState state =>
    if state = s.state then none else some (queueNotification { s with state } (.state state))
  | .commitProfile snapshot => some (s.queueNotification (.profile snapshot))
  | .addCallback isState =>
    some { s with callbacks := s.callbacks ++ [{ isState, since := s.bus.length }] }
  | .subscribeWithSnapshot =>
    some { s with callbacks := s.callbacks ++
      [{ isState := true, since := s.bus.length, snapshot := some s.state },
        { isState := false, since := s.bus.length }] }
  | .subscribeWithInitialNotify initialState =>
    let snapshot := if initialState then some s.state else none
    some { s with receivers := s.receivers ++ [⟨s.bus.length, snapshot, s.bus.length, [], false⟩] }
  | .recv i => s.recv i
  | .work i => s.work i

/-- Steps that cannot be taken are left out. -/
def run (actions : List (Action π)) : Backend π :=
  actions.foldl (fun s a => (s.step a).getD s) {}

end Backend

def Worker.isDrainer : Worker π → Bool
  | .done => false
  | _ => true

/-- The steps that the worker has before it, without those for what is in the queue. -/
def Worker.effort : Worker π → ℕ
  | .token => 2
  | .draining => 1
  | .invoking n => 2 * n.callbacks.length + 2
  | .calling rest => 2 * rest.callbacks.length + 3
  | .done => 0

def Backend.effort (s : Backend π) : ℕ :=
  (s.workers.map Worker.effort).sum + (s.queue.map (2 * ·.callbacks.length + 2)).sum

/-- What the worker has taken from the queue and not delivered yet. -/
def Worker.holding : Worker π → List (BackendNotification π)
  | .invoking n | .calling n => [n]
  | _ => []

/-- What the workers have taken from the queue, and what is still in it. -/
def Backend.pending (s : Backend π) : List (BackendNotification π) :=
  s.workers.flatMap Worker.holding ++ s.queue

/-- What a callback has still to be called for. -/
def awaiting (pending : List (BackendNotification π)) (callback : ℕ) : List (Notice π) :=
  (pending.filter (callback ∈ ·.callbacks)).map (·.notice)

def states (notices : List (Notice π)) : List State :=
  notices.filterMap fun n => match n with
    | .state state => some state
    | .profile _ => none

/-- The state that a snapshot and the notices after it tell. -/
def told (snapshot : State) (notices : List (Notice π)) : State :=
  (states notices).getLastD snapshot

/-- What the actions commit, from a state on. Committing the state that it is changes nothing. -/
def commits : State → List (Action π) → List (Notice π)
  | current, .commitState state :: rest =>
    if state = current then commits current rest else .state state :: commits state rest
  | current, .commitProfile snapshot :: rest => .profile snapshot :: commits current rest
  | current, _ :: rest => commits current rest
  | _, [] => []

/-- Commits reach everyone who was there before them. -/
structure Delivered (s : Backend π) : Prop where
  changes : (.noState :: states s.bus).IsChain (· ≠ ·)
  current : told .noState s.bus = s.state
  /-- One notification is delivered at a time, and somebody delivers what is pending. -/
  one : s.workers.countP Worker.isDrainer = if s.draining then 1 else 0
  idle : s.draining = false → s.pending = []
  calls : ∀ i c, s.callbacks[i]? = some c →
    c.called ++ awaiting s.pending i = (s.bus.drop c.since).filter (·.isState = c.isState) ∧
      ∀ state ∈ c.snapshot, told state (c.called ++ awaiting s.pending i) = s.state
  watched : ∀ r ∈ s.receivers, r.lagged = false →
    r.received ++ s.bus.drop r.cursor = s.bus.drop r.since ∧
      ∀ state ∈ r.snapshot, told state (r.received ++ s.bus.drop r.cursor) = s.state

/-- What is delivered is sound, and queued callbacks and cursors are in range. -/
structure Inv (s : Backend π) : Prop extends Delivered s where
  sound : ∀ n ∈ s.pending, n.callbacks.Nodup ∧ ∀ i ∈ n.callbacks, i < s.callbacks.length
  since : ∀ c ∈ s.callbacks, c.since ≤ s.bus.length ∧ (c.snapshot ≠ none → c.isState = true)
  cursor : ∀ r ∈ s.receivers, r.since ≤ s.bus.length ∧ r.cursor ≤ s.bus.length

section
variable {s s' : Backend π} {n : Notice π} {i : ℕ} {w v : Worker π}

theorem told_append (v : State) (l : List (Notice π)) (n : Notice π) :
    told v (l ++ [n]) = told (told v l) [n] := by
  cases n <;> simp [told, states]

theorem told_cons (v : State) (n : Notice π) (l : List (Notice π)) :
    told v (n :: l) = told (told v [n]) l := by
  cases n with
  | state => exact getLastD_cons ..
  | profile => rfl

theorem awaiting_cons (b : BackendNotification π) (l : List (BackendNotification π)) (i : ℕ) :
    awaiting (b :: l) i = (if i ∈ b.callbacks then [b.notice] else []) ++ awaiting l i := by
  by_cases h : i ∈ b.callbacks <;> simp [awaiting, h]

theorem flatMap_holding (workers : List (Worker π)) (h : workers.countP Worker.isDrainer = 0) :
    workers.flatMap Worker.holding = [] := by
  rw [flatMap_eq_nil_iff]
  intro w hw
  have := countP_eq_zero.mp h w hw
  cases w <;> simp_all [Worker.isDrainer, Worker.holding]

theorem mem_registered {isState : Bool} :
    i ∈ s.registered isState ↔ ∃ c, s.callbacks[i]? = some c ∧ c.isState = isState := by
  rw [Backend.registered, mem_filter, mem_range, Option.any_eq_true]
  simp only [beq_iff_eq, and_iff_right_iff_imp]
  rintro ⟨c, hc, -⟩
  exact (List.getElem?_eq_some_iff.mp hc).1

theorem pending_queueNotification (s : Backend π) (state : State) (n : Notice π) :
    (Backend.queueNotification { s with state } n).pending =
      s.pending ++ [⟨n, s.registered n.isState⟩] := by
  have hw : (if s.draining then s.workers else s.workers ++ [.token]).flatMap Worker.holding =
      s.workers.flatMap Worker.holding := by
    split_ifs <;> simp [Worker.holding]
  simp only [Backend.pending, Backend.queueNotification, hw, append_assoc]
  rfl

theorem Inv.changes_append (h : Inv s) (hn : ∀ v, n = .state v → s.state ≠ v) :
    (.noState :: states (s.bus ++ [n])).IsChain (· ≠ ·) := by
  cases n with
  | profile => simpa [states] using h.changes
  | state v =>
    rw [states, filterMap_append, ← cons_append]
    refine h.changes.append (by simp) fun x hx y hy => ?_
    obtain rfl : v = y := by simpa using hy
    obtain rfl : s.state = x := by
      rw [getLast?_cons, ← getLastD_eq_getLast?] at hx
      exact h.current.symm.trans (some.inj hx)
    exact hn v rfl

/-- Step: a queued notification is owed to each callback it is queued for. -/
theorem Inv.queueNotification {state : State} (h : Inv s) (hs : told s.state [n] = state)
    (hn : ∀ v, n = .state v → s.state ≠ v) :
    Inv (Backend.queueNotification { s with state } n) := by
  have hpending := pending_queueNotification s state n
  have htold : ∀ v l, told v l = s.state → told v (l ++ [n]) = state := by
    intro v l hl
    rw [told_append, hl, hs]
  have hdrop : ∀ {k}, k ≤ s.bus.length → (s.bus ++ [n]).drop k = s.bus.drop k ++ [n] :=
    fun hk => drop_append_of_le_length hk
  have hlen : s.bus.length ≤ (s.bus ++ [n]).length := by simp
  refine ⟨⟨?_, htold _ _ h.current, ?_, nofun, fun i c hc => ?_, fun r hr hlag => ?_⟩, ?_, ?_, ?_⟩
  · exact h.changes_append hn
  · show countP _ (if s.draining then s.workers else s.workers ++ [.token]) = 1
    have hone := h.one
    split_ifs at hone ⊢
    · exact hone
    · rw [countP_append, hone]
      rfl
  · have hbound := h.since c (mem_of_getElem? hc)
    obtain ⟨hcalls, hsnap⟩ := h.calls i c hc
    have hmem : i ∈ s.registered n.isState ↔ n.isState = c.isState := by
      rw [mem_registered, show s.callbacks[i]? = some c from hc]
      simp [eq_comm]
    have hawait : c.called ++ awaiting (Backend.queueNotification { s with state } n).pending i =
        c.called ++ awaiting s.pending i ++ if n.isState = c.isState then [n] else [] := by
      rw [hpending, awaiting, filter_append, map_append, ← append_assoc]
      exact congrArg _ ((awaiting_cons _ [] i).trans (by simp [hmem, awaiting]))
    rw [hawait]
    refine ⟨?_, fun v hv => ?_⟩
    · show _ = ((s.bus ++ [n]).drop c.since).filter _
      rw [hdrop hbound.1, filter_append, hcalls]
      by_cases hk : n.isState = c.isState <;> simp [hk]
    · rw [hbound.2 (ne_none_iff_exists'.mpr ⟨v, hv⟩)]
      cases n with
      | state => exact htold _ _ (hsnap v hv)
      | profile =>
        rw [if_neg (by simp [Notice.isState]), append_nil, hsnap v hv]
        exact hs
  · obtain ⟨hgot, hsnap⟩ := h.watched r hr hlag
    obtain ⟨hsince, hcursor⟩ := h.cursor r hr
    show r.received ++ (s.bus ++ [n]).drop r.cursor = (s.bus ++ [n]).drop r.since ∧
      ∀ v ∈ r.snapshot, told v (r.received ++ (s.bus ++ [n]).drop r.cursor) = state
    rw [hdrop hcursor, hdrop hsince, ← append_assoc, hgot]
    exact ⟨rfl, fun v hv => htold _ _ (hgot ▸ hsnap v hv)⟩
  · rw [hpending]
    intro b hb
    rcases mem_append.mp hb with hb | hb
    · exact h.sound b hb
    · rw [mem_singleton.mp hb]
      exact ⟨nodup_range.filter _, fun i hi => mem_range.mp (mem_filter.mp hi).1⟩
  · exact fun c hc => ⟨(h.since c hc).1.trans hlen, (h.since c hc).2⟩
  · exact fun r hr => ⟨(h.cursor r hr).1.trans hlen, (h.cursor r hr).2.trans hlen⟩

/-- The drainer is alone, so what is held is what it holds. -/
theorem Inv.drainer (h : Inv s) (hw : s.workers[i]? = some w) (hd : w.isDrainer = true) :
    s.draining = true ∧ s.pending = w.holding ++ s.queue ∧
      ∀ w', (s.workers.set i w').flatMap Worker.holding = w'.holding ∧
        (s.workers.set i w').countP Worker.isDrainer = if w'.isDrainer then 1 else 0 := by
  obtain ⟨hi, hget⟩ := List.getElem?_eq_some_iff.mp hw
  have hsplit : s.workers = s.workers.take i ++ w :: s.workers.drop (i + 1) := by
    rw [← hget, getElem_cons_drop, take_append_drop]
  have hone := h.one
  rw [hsplit, countP_append, countP_cons_of_pos hd] at hone
  have hdrain : s.draining = true := by
    by_contra hne
    rw [if_neg hne] at hone
    omega
  rw [if_pos hdrain] at hone
  have hfront := flatMap_holding (s.workers.take i) (by omega)
  have hback := flatMap_holding (s.workers.drop (i + 1)) (by omega)
  refine ⟨hdrain, ?_, fun w' => ?_⟩
  · rw [Backend.pending, hsplit, flatMap_append, flatMap_cons, hfront, hback]
    simp
  · rw [set_eq_take_cons_drop w' hi, flatMap_append, flatMap_cons, hfront, hback,
      countP_append, countP_cons]
    exact ⟨by simp, by omega⟩

/-- A step of the drainer, which calls at most one callback. -/
theorem Inv.drain {queue : List (BackendNotification π)} {callbacks : List (Callback π)}
    {draining : Bool} (h : Inv s) (hw : s.workers[i]? = some w) (hd : w.isDrainer = true)
    (hdrain : draining = v.isDrainer) (hidle : draining = false → v.holding ++ queue = [])
    (hsound : ∀ n ∈ v.holding ++ queue, ∃ m ∈ w.holding ++ s.queue, n.callbacks.Sublist m.callbacks)
    (hlen : callbacks.length = s.callbacks.length)
    (hcalls : ∀ j c', callbacks[j]? = some c' → ∃ c, s.callbacks[j]? = some c ∧
      c' = { c with called := c'.called } ∧ c'.called ++ awaiting (v.holding ++ queue) j =
        c.called ++ awaiting (w.holding ++ s.queue) j) :
    Inv { s with workers := s.workers.set i v, queue, callbacks, draining } := by
  obtain ⟨-, hpending, hset⟩ := h.drainer hw hd
  have hpending' : Backend.pending
      { s with workers := s.workers.set i v, queue, callbacks, draining } =
      v.holding ++ queue := by rw [Backend.pending, (hset v).1]
  refine ⟨⟨h.changes, h.current, hdrain ▸ (hset v).2, fun hd' => hpending'.trans (hidle hd'), ?_,
    h.watched⟩, ?_, ?_, h.cursor⟩
  · intro j c' hc'
    obtain ⟨c, hc, hsame, hcalled⟩ := hcalls j c' hc'
    rw [hpending', hcalled, ← hpending, hsame]
    exact h.calls j c hc
  · rw [hpending']
    intro n hn
    obtain ⟨m, hm, hsub⟩ := hsound n hn
    obtain ⟨hnodup, hlt⟩ := h.sound m (hpending ▸ hm)
    exact ⟨hnodup.sublist hsub, fun j hj => hlen ▸ hlt j (hsub.subset hj)⟩
  · intro c' hc'
    obtain ⟨j, hj⟩ := getElem?_of_mem hc'
    obtain ⟨c, hc, hsame, -⟩ := hcalls j c' hj
    rw [hsame]
    exact h.since c (mem_of_getElem? hc)

theorem effort_lt {queue : List (BackendNotification π)} (callbacks : List (Callback π))
    (draining : Bool) (hw : s.workers[i]? = some w)
    (hlt : v.effort + (queue.map (2 * ·.callbacks.length + 2)).sum <
      w.effort + (s.queue.map (2 * ·.callbacks.length + 2)).sum) :
    Backend.effort { s with workers := s.workers.set i v, queue, callbacks, draining } <
      s.effort := by
  obtain ⟨hi, hget⟩ := List.getElem?_eq_some_iff.mp hw
  have hsplit : s.workers = s.workers.take i ++ w :: s.workers.drop (i + 1) := by
    rw [← hget, getElem_cons_drop, take_append_drop]
  have hold := congrArg (fun l => (l.map Worker.effort).sum) hsplit
  simp only [Backend.effort, set_eq_take_cons_drop v hi, map_append, map_cons, sum_append,
    sum_cons] at hold ⊢
  omega

/-- A step of the drainer that calls none: it may be done with notices nobody is owed. -/
theorem Inv.drain_quiet {queue : List (BackendNotification π)} (h : Inv s)
    (hw : s.workers[i]? = some w) (hd : w.isDrainer = true) (hd' : v.isDrainer = true)
    (done : List (BackendNotification π))
    (hlist : w.holding ++ s.queue = done ++ (v.holding ++ queue))
    (hdone : ∀ b ∈ done, b.callbacks = []) :
    Inv { s with workers := s.workers.set i v, queue } := by
  refine h.drain hw hd ((h.drainer hw hd).1.trans hd'.symm) ?_ ?_ rfl fun j c hc => ?_
  · exact fun hne => absurd ((h.drainer hw hd).1.symm.trans hne) (by simp)
  · exact fun n hn => ⟨n, hlist ▸ mem_append_right _ hn, .refl _⟩
  · refine ⟨c, hc, rfl, ?_⟩
    have hnone : done.filter (j ∈ ·.callbacks) = [] := by
      rw [filter_eq_nil_iff]
      intro b hb
      simp [hdone b hb]
    rw [hlist, awaiting, awaiting, filter_append (done), hnone, nil_append]

/-- A step of the drainer delivers nothing twice and brings the end nearer. -/
theorem Inv.work (h : Inv s) (hs : s.work i = some s') : Inv s' ∧ s'.effort < s.effort := by
  unfold Backend.work at hs
  dsimp only at hs
  split at hs
  · next hw =>
    cases hs
    exact ⟨h.drain_quiet hw rfl rfl [] rfl nofun, effort_lt _ _ hw (by simp [Worker.effort])⟩
  · next hw =>
    split at hs
    · next hq =>
      cases hs
      refine ⟨h.drain hw rfl rfl (fun _ => hq) (fun n hn => ⟨n, hn, .refl _⟩) rfl
        fun j c hc => ⟨c, hc, rfl, rfl⟩, effort_lt _ _ hw (by simp [Worker.effort])⟩
    · next hq =>
      cases hs
      exact ⟨h.drain_quiet hw rfl rfl [] hq nofun, effort_lt _ _ hw (by simp [hq, Worker.effort])⟩
  · next notice hw =>
    cases hs
    exact ⟨h.drain_quiet hw rfl rfl [⟨notice, []⟩] rfl (by simp),
      effort_lt _ _ hw (by simp [Worker.effort])⟩
  · next notice callback rest hw =>
    cases hs
    obtain ⟨hdrain, hpending, -⟩ := h.drainer hw rfl
    have hnodup := (h.sound ⟨notice, callback :: rest⟩ (by simp [hpending, Worker.holding])).1
    refine ⟨h.drain hw rfl hdrain (by simp [hdrain]) ?_ (length_modify ..) fun j c' hc' => ?_,
      effort_lt _ _ hw (by simp [Worker.effort, mul_add])⟩
    · intro b hb
      rcases mem_cons.mp hb with rfl | hb
      · exact ⟨_, mem_cons_self, sublist_cons_self ..⟩
      · exact ⟨b, mem_cons_of_mem _ hb, .refl _⟩
    · rw [getElem?_modify] at hc'
      obtain ⟨c, hc, rfl⟩ := map_eq_some_iff.mp hc'
      refine ⟨c, hc, by split_ifs <;> rfl, ?_⟩
      simp only [Worker.holding, cons_append, nil_append, awaiting_cons]
      by_cases hj : callback = j
      · subst hj
        simp [(nodup_cons.mp hnodup).1]
      · simp [hj, Ne.symm hj]
  · next hw =>
    cases hs
    exact ⟨h.drain_quiet hw rfl rfl [] rfl nofun, effort_lt _ _ hw (by simp [Worker.effort])⟩
  · cases hs

/-- Step: a registration sees the bus from here on. -/
theorem Inv.register (h : Inv s) {new : List (Callback π)}
    (hnew : ∀ c ∈ new, c.since = s.bus.length ∧ c.called = [] ∧
      (∀ state ∈ c.snapshot, state = s.state) ∧ (c.snapshot ≠ none → c.isState = true)) :
    Inv { s with callbacks := s.callbacks ++ new } := by
  refine ⟨⟨h.changes, h.current, h.one, h.idle, fun i c hc => ?_, h.watched⟩, fun b hb => ?_, ?_,
    h.cursor⟩
  · rcases Nat.lt_or_ge i s.callbacks.length with hlt | hge
    · rw [getElem?_append_left hlt] at hc
      exact h.calls i c hc
    · rw [getElem?_append_right hge] at hc
      obtain ⟨hsince, hcalled, hsnap, -⟩ := hnew c (mem_of_getElem? hc)
      have hnone : awaiting s.pending i = [] := by
        rw [awaiting, map_eq_nil_iff, filter_eq_nil_iff]
        intro b hb
        simpa using fun hi => absurd ((h.sound b hb).2 i hi) (by omega)
      show c.called ++ awaiting s.pending i = (s.bus.drop c.since).filter _ ∧
        ∀ v ∈ c.snapshot, told v (c.called ++ awaiting s.pending i) = s.state
      rw [hnone, hcalled, hsince, drop_length]
      exact ⟨rfl, hsnap⟩
  · obtain ⟨hnodup, hlt⟩ := h.sound b hb
    exact ⟨hnodup, fun i hi => (hlt i hi).trans_le (by simp)⟩
  · intro c hc
    rcases mem_append.mp hc with hc | hc
    · exact h.since c hc
    · exact ⟨(hnew c hc).1.le, (hnew c hc).2.2.2⟩

theorem Inv.of_receivers (h : Inv s) {receivers : List (Receiver π)}
    (hr : ∀ r ∈ receivers, (r.lagged = false →
      r.received ++ s.bus.drop r.cursor = s.bus.drop r.since ∧
        ∀ state ∈ r.snapshot, told state (r.received ++ s.bus.drop r.cursor) = s.state) ∧
      r.since ≤ s.bus.length ∧ r.cursor ≤ s.bus.length) : Inv { s with receivers } :=
  ⟨⟨h.changes, h.current, h.one, h.idle, h.calls, fun r hm => (hr r hm).1⟩, h.sound, h.since,
    fun r hm => (hr r hm).2⟩

/-- Step: every action keeps the deliveries in agreement with the bus. -/
theorem Inv.step {a : Action π} (h : Inv s) (hs : s.step a = some s') : Inv s' := by
  have hold : ∀ r ∈ s.receivers, _ := fun r hr => And.intro (h.watched r hr) (h.cursor r hr)
  cases a with
  | commitState state =>
    rw [Backend.step] at hs
    split_ifs at hs with hne
    cases hs
    exact h.queueNotification rfl fun v hv => by cases hv; exact Ne.symm hne
  | commitProfile snapshot =>
    cases hs
    exact h.queueNotification rfl nofun
  | addCallback isState | subscribeWithSnapshot =>
    cases hs
    exact h.register (by simp)
  | subscribeWithInitialNotify initialState =>
    cases hs
    refine h.of_receivers fun r hr => ?_
    rcases mem_append.mp hr with hr | hr
    · exact hold r hr
    · rw [mem_singleton.mp hr]
      cases initialState <;> simp [told, states]
  | recv i =>
    obtain ⟨r, hr, hs⟩ := bind_eq_some_iff.mp hs
    obtain ⟨hgot, hsince, hcursor⟩ := hold r (mem_of_getElem? hr)
    split_ifs at hs
    · cases hs
      refine h.of_receivers fun q hq => ?_
      rcases mem_or_eq_of_mem_set hq with hq | rfl
      · exact hold q hq
      · exact ⟨nofun, hsince, by simp⟩
    · obtain ⟨n, hn, rfl⟩ := map_eq_some_iff.mp hs
      obtain ⟨hlt, rfl⟩ := List.getElem?_eq_some_iff.mp hn
      refine h.of_receivers fun q hq => ?_
      rcases mem_or_eq_of_mem_set hq with hq | rfl
      · exact hold q hq
      · refine ⟨fun hlag => ?_, hsince, hlt⟩
        have := hgot hlag
        rwa [drop_eq_getElem_cons hlt, append_cons] at this
  | work i => exact (h.work hs).1

theorem run_concat (actions : List (Action π)) (a : Action π) :
    Backend.run (actions ++ [a]) = ((Backend.run actions).step a).getD (Backend.run actions) := by
  rw [Backend.run, foldl_append]
  rfl

theorem run_inv (actions : List (Action π)) : Inv (Backend.run actions) := by
  induction actions using reverseRecOn with
  | nil => exact ⟨⟨.singleton _, rfl, rfl, fun _ => rfl, nofun, nofun⟩, nofun, nofun, nofun⟩
  | append_singleton actions a ih =>
    rw [run_concat]
    cases hs : (Backend.run actions).step a with
    | none => exact ih
    | some s' => exact ih.step hs

theorem step_bus (s : Backend π) (a : Action π) :
    ((s.step a).getD s).bus = s.bus ++ commits s.state [a] := by
  cases a with
  | commitState state =>
    by_cases h : state = s.state <;> simp [Backend.step, commits, h, Backend.queueNotification]
  | recv i =>
    simp only [Backend.step, Backend.recv, commits, append_nil]
    cases s.receivers[i]? with
    | none => rfl
    | some r => dsimp only [Option.bind_some]; split_ifs <;> [rfl; cases s.bus[r.cursor]? <;> rfl]
  | work i =>
    simp only [Backend.step, Backend.work, commits, append_nil]
    split <;> [rfl; (split <;> rfl); rfl; rfl; rfl; rfl]
  | _ => simp [Backend.step, commits, Backend.queueNotification]

theorem commits_concat (current : State) (actions : List (Action π)) (a : Action π) :
    commits current (actions ++ [a]) = commits current actions ++
      commits (told current (commits current actions)) [a] := by
  induction actions generalizing current with
  | nil => rfl
  | cons b actions ih =>
    cases b with
    | commitState state =>
      by_cases h : state = current
      · simpa [commits, h] using ih current
      · rw [cons_append, commits, if_neg h, commits, if_neg h, told_cons, ih state]
        rfl
    | commitProfile snapshot =>
      rw [cons_append, commits, commits, told_cons, ih current]
      rfl
    | _ => exact ih current

theorem commits_works (current : State) (actions : List (Action π)) (is : List ℕ) :
    commits current (actions ++ is.map .work) = commits current actions := by
  induction is using reverseRecOn with
  | nil => simp
  | append_singleton is i ih =>
    rw [map_append, ← append_assoc, map_singleton, commits_concat, ih]
    exact append_nil _

theorem run_bus (actions : List (Action π)) :
    (Backend.run actions).bus = commits .noState actions := by
  induction actions using reverseRecOn with
  | nil => rfl
  | append_singleton actions a ih =>
    rw [run_concat, step_bus, commits_concat, ← ih, (run_inv actions).current]

theorem Inv.enabled (h : Inv s) (hdrain : s.draining = true) : ∃ i, (s.work i).isSome := by
  have hone := h.one
  rw [if_pos hdrain] at hone
  obtain ⟨w, hw, hdrainer⟩ := countP_pos_iff.mp (hone ▸ one_pos)
  obtain ⟨i, hi⟩ := getElem?_of_mem hw
  refine ⟨i, ?_⟩
  rw [Backend.work, hi]
  cases w with
  | done => cases hdrainer
  | draining => cases s.queue <;> rfl
  | invoking n => obtain ⟨notice, _ | ⟨callback, rest⟩⟩ := n <;> rfl
  | _ => rfl

/-- The drainer, left alone, empties the queue. -/
theorem run_drains (actions : List (Action π)) :
    ∃ is : List ℕ, (Backend.run (actions ++ is.map .work)).draining = false := by
  generalize he : (Backend.run actions).effort = effort
  induction effort using Nat.strong_induction_on generalizing actions with
  | _ effort ih =>
    cases hdrain : (Backend.run actions).draining with
    | false => exact ⟨[], by simpa using hdrain⟩
    | true =>
      obtain ⟨i, hi⟩ := (run_inv actions).enabled hdrain
      obtain ⟨s', hs⟩ := Option.isSome_iff_exists.mp hi
      have hnext : Backend.run (actions ++ [.work i]) = s' := by
        rw [run_concat]
        exact congrArg (Option.getD · _) hs
      have hlt := ((run_inv actions).work hs).2
      obtain ⟨is, his⟩ := ih _ (he ▸ hnext ▸ hlt) (actions ++ [.work i]) rfl
      exact ⟨i :: is, by simpa using his⟩

/-- What is on the bus is what was committed, and callbacks and receivers are told of it as
`Delivered` says. While there is a drainer it can go on, each of its steps brings the end nearer,
and when it is done every callback was called for all that was committed after it came. -/
theorem notifications_delivered (actions : List (Action π)) :
    let s := Backend.run actions
    let committed := commits .noState actions
    Delivered s ∧ s.bus = committed ∧ (s.draining = true → ∃ i, (s.work i).isSome) ∧
      (∀ i s', s.work i = some s' → s'.effort < s.effort) ∧
      ∃ is : List ℕ, let s' := Backend.run (actions ++ is.map .work)
        s'.draining = false ∧ ∀ (i : ℕ) (c : Callback π), s'.callbacks[i]? = some c →
          c.called = (committed.drop c.since).filter (·.isState = c.isState) := by
  intro s committed
  have h := run_inv actions
  obtain ⟨is, his⟩ := run_drains actions
  refine ⟨h.toDelivered, run_bus actions, h.enabled, fun i s' hs => (h.work hs).2, is, his,
    fun i c hc => ?_⟩
  have hend := run_inv (actions ++ is.map .work)
  have hcalls := (hend.calls i c hc).1
  rw [hend.idle his, run_bus, commits_works] at hcalls
  simpa [awaiting] using hcalls

end

/-- A receiver that is too slow is never told the state it is in. -/
theorem lagged_not_told :
    let s := Backend.run ([.subscribeWithInitialNotify true, .commitState .starting] ++
      .replicate 128 (.commitProfile ()) ++ .replicate 129 (.recv 0))
    s.state = .starting ∧ s.receivers.map (fun r => (r.snapshot, states r.received)) =
      [(some .noState, [])] ∧ s.receivers.map (·.cursor) = [s.bus.length] := by
  decide +kernel

end Rustscale.Ipn.Notifications
