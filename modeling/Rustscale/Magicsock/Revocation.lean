import Rustscale.Magicsock.Grants
import Rustscale.Magicsock.NetmapPhases

/-! What a netmap revokes is not published any more, however the handlers are interleaved. -/
namespace Rustscale.Magicsock
open Disco List PeerAuthorization Receiver Machine Magicsock.Task
open Udprelay (SocketAddr)

/-- What the turns of reader tasks may do. -/
structure Receiver.Turns (s s' : Receiver) (new : List Notice) : Prop where
  inner : Undisturbed s.inner s'.inner
  sending : ∀ datagrams, sending datagrams ∈ s'.tasks →
    sending datagrams ∈ s.tasks ∨ s.inner.netmap = none ∧
      ∀ d ∈ datagrams, s.inner.authorization.isCurrent d.1 d.2 = true
  new : ∀ e ∈ new, ∃ datagrams, Task.sending datagrams ∈ s.tasks ∧
    ∃ d ∈ datagrams, e = .published d.1 d.2

section
variable {disableDirectPaths : Bool} {s s' : Receiver} {new log : List Notice} {a : Act}

theorem Receiver.Turns.spawn (s : Receiver) {task : Task} (h : task.isSending = false) :
    s.Turns (s.spawn task) [] where
  inner := .refl _
  sending datagrams hmem := by
    rcases mem_append.mp hmem with hmem | hmem
    · exact .inl hmem
    · obtain rfl := mem_singleton.mp hmem
      cases h
  new := by simp

theorem Receiver.Turns.setTask (s : Receiver) (i : ℕ) {task : Task} (h : task.isSending = false) :
    s.Turns (s.setTask i task) [] where
  inner := .refl _
  sending datagrams hmem := by
    rcases mem_or_eq_of_mem_set hmem with hmem | rfl
    · exact .inl hmem
    · cases h
  new := by simp

/-- A task's turn is one of the cases of the relation. -/
theorem Receiver.Turns.turn {task : Task} {i : ℕ} (htask : s.tasks[i]? = some task)
    (h : s.turn i task = some (s', new)) : s.Turns s' new := by
  cases task with
  | looked route src peer =>
    simp only [Receiver.turn] at h
    split at h
    · split at h
      all_goals
        cases h
        exact .setTask s i rfl
    · cases h
  | identifying peers stamped =>
    cases peers with
    | nil | cons peer peers =>
      cases h
      exact .setTask s i rfl
  | waiting datagrams =>
    simp only [Receiver.turn] at h
    split at h
    · next hnetmap =>
      cases h
      refine ⟨.refl _, fun datagrams' hmem => ?_, by simp⟩
      rcases mem_or_eq_of_mem_set hmem with hmem | heq
      · exact .inl hmem
      · split at heq
        · cases heq
        · obtain rfl := Task.sending.inj heq
          exact .inr ⟨Option.isNone_iff_eq_none.mp hnetmap, fun d hd => (mem_filter.mp hd).2⟩
    · cases h
  | sending datagrams =>
    cases h
    refine ⟨.refl _, (Receiver.Turns.setTask s i rfl).sending, fun e he => ?_⟩
    obtain ⟨d, hd, rfl⟩ := mem_map.mp he
    exact ⟨datagrams, mem_of_getElem? htask, d, hd, rfl⟩
  | ended => cases h

/-- A step begins a netmap, continues it, or leaves the netmap alone. -/
theorem Receiver.step_cases (h : s.step disableDirectPaths a = some (s', new)) :
    (∃ peers, s.inner.netmap = none ∧ s.tasks.any Task.isSending = false ∧
      s' = { s with inner := s.inner.purge peers } ∧ new = []) ∨
    (∃ netmap order, s.inner.netmap = some netmap ∧ netmap.goOn s.inner order = some s'.inner ∧
      s'.tasks = s.tasks ∧ new = s.inner.returns order) ∨ s.Turns s' new := by
  cases a with
  | node action =>
    by_cases hset : ∃ peers, action = .setNetmap peers
    · obtain ⟨peers, rfl⟩ := hset
      simp only [step, node] at h
      split at h
      · cases h
      next hsending =>
      obtain ⟨⟨inner, events⟩, hstep, heq⟩ := Option.map_eq_some_iff.mp h
      cases heq
      simp only [Inner.step] at hstep
      split at hstep
      · next hnone =>
        obtain ⟨rfl, -⟩ := Prod.mk.inj (Option.some.inj hstep)
        exact .inl ⟨peers, Option.isNone_iff_eq_none.mp hnone, by simpa using hsending, rfl, rfl⟩
      · cases hstep
    by_cases hgo : ∃ order, action = .goOn order
    · obtain ⟨order, rfl⟩ := hgo
      obtain ⟨⟨inner, events⟩, hstep, heq⟩ := Option.map_eq_some_iff.mp h
      cases heq
      simp only [Inner.step] at hstep
      split at hstep
      · cases hstep
      next netmap hnetmap =>
      obtain ⟨inner', hgo, heq⟩ := Option.map_eq_some_iff.mp hstep
      obtain ⟨rfl, -⟩ := Prod.mk.inj heq
      exact .inr (.inl ⟨netmap, order, hnetmap, hgo, rfl, rfl⟩)
    -- the other actions of the node
    have hother : ∀ r : Inner × List Event, s.inner.step disableDirectPaths action = some r →
        ({ s with inner := r.1 }, []) = (s', new) → s.Turns s' new := by
      rintro r hr heq
      cases heq
      refine ⟨step_undisturbed hr (fun peers h => hset ⟨peers, h⟩) fun order h => hgo ⟨order, h⟩,
        fun _ hmem => .inl hmem, by simp⟩
    refine .inr (.inr ?_)
    simp only [step, node] at h
    split at h
    · cases h
    · exact absurd ⟨_, rfl⟩ hset
    · exact absurd ⟨_, rfl⟩ hgo
    · obtain ⟨r, hr, heq⟩ := Option.map_eq_some_iff.mp h
      exact hother r hr heq
  | derp source =>
    refine .inr (.inr ?_)
    simp only [step] at h
    split at h
    · split at h
      · cases h
        exact ⟨.refl _, fun _ hmem => .inl hmem, by simp⟩
      · cases h
        exact .spawn s rfl
    · cases h
  | receive route src =>
    refine .inr (.inr ?_)
    simp only [step] at h
    split at h
    · cases h
      exact ⟨.refl _, fun _ hmem => .inl hmem, by simp⟩
    · cases h
      exact .spawn s rfl
  | batch srcs =>
    cases h
    exact .inr (.inr (.spawn s rfl))
  | turn i =>
    obtain ⟨task, htask, h⟩ := Option.bind_eq_some_iff.mp h
    exact .inr (.inr (.turn htask h))
  | cancel i =>
    cases h
    exact .inr (.inr (.setTask s i rfl))

end

section
variable {s s' : Inner} {netmap : Netmap} {order : List NodePublic} {p : NodePublic}

def PeerAuthorization.granted (auth : PeerAuthorization) (order refreshed : List NodePublic) :
    List (NodePublic × ℕ) :=
  grants refreshed
    { auth with generations := auth.generations.retain fun peer _ => decide (peer ∈ order) } order

theorem foldl_upsert_authorization {peers : List NetmapPeer} : ∀ s : Inner,
    (peers.foldl Inner.upsert s).authorization = s.authorization := by
  induction peers with
  | nil => exact fun s => rfl
  | cons peer peers ih =>
    intro s
    refine (ih _).trans ?_
    unfold Inner.upsert
    split <;> rfl

theorem goOn_cases (hnetmap : s.netmap = some netmap) (h : netmap.goOn s order = some s') :
    (s.returns order = [] ∧ s'.netmap.isSome ∧ s'.authorization = s.authorization) ∨
      (order.Perm (desired netmap.peers).dedup ∧ s' = s.publish order netmap.refreshed ∧
        s.returns order =
          [.returned netmap.peers (s.authorization.granted order netmap.refreshed)]) := by
  obtain ⟨peers, refreshed, phase⟩ := netmap
  cases phase with
  | purged | replaced =>
    cases h
    exact .inl ⟨by rw [Inner.returns, hnetmap], rfl, rfl⟩
  | unmapped =>
    cases h
    refine .inl ⟨by rw [Inner.returns, hnetmap], ?_, foldl_upsert_authorization _⟩
    rw [Inner.replace, (foldl_upsert_rest _).2]
    rfl
  | remapped =>
    simp only [Netmap.goOn] at h
    split at h
    · next horder =>
      cases h
      refine .inr ⟨horder, rfl, ?_⟩
      rw [Inner.returns, hnetmap]
      rfl
    · cases h

/-- Reconciling moves the generations as the notice says. -/
theorem generation_reconcile (auth : PeerAuthorization) {peers : List NetmapPeer}
    {refreshed : List NodePublic} (horder : order.Perm (desired peers).dedup) :
    (auth.reconcile order refreshed).generation p =
      (Notice.returned peers (auth.granted order refreshed)).after auth.generation p := by
  have hmem : p ∈ order ↔ p ∈ desired peers := horder.mem_iff.trans mem_dedup
  have hretained : (auth.generations.retain fun peer _ => decide (peer ∈ order)).lookup p =
      if p ∈ desired peers then auth.generation p else none := by
    rw [HashTable.lookup_retain]
    by_cases hp : p ∈ order
    · rw [if_pos (hmem.mp hp), generation]
      cases auth.generations.lookup p <;> simp [hp]
    · rw [if_neg (hmem.not.mp hp)]
      cases auth.generations.lookup p <;> simp [hp]
  rw [reconcile, generation_foldl_refresh (horder.nodup_iff.mpr (nodup_dedup _)),
    ← granted, generation, hretained, Notice.after]
  dsimp only
  by_cases hp : p ∈ desired peers
  · rw [if_pos hp, if_pos hp]
  · rw [if_neg hp, if_neg hp, Option.or_none]
    exact lookup_grants_of_not_mem (hmem.not.mpr hp)

theorem isSome_lookup_grants {refreshed order : List NodePublic} {auth : PeerAuthorization}
    (hp : p ∈ refreshed) (hmem : p ∈ order) :
    ((grants refreshed auth order).lookup p).isSome := by
  induction order generalizing auth with
  | nil => cases hmem
  | cons peer order ih =>
    rw [grants, lookup_append, Option.isSome_or, Bool.or_eq_true]
    by_cases heq : p = peer
    · subst heq
      rw [if_pos (.inl hp)]
      exact .inl (by simp)
    · exact .inr (ih ((mem_cons.mp hmem).resolve_left heq))

end

/-- A datagram is published in its peer's current generation, and a netmap that changes a disco key
hands out a generation. -/
def Justified (before : List Notice) : Notice → Prop
  | .published p g => replay before p = some g
  | .returned peers grants =>
    ∀ p, Changed (lastReturned before) peers p → (grants.lookup p).isSome

/-- Invariant behind the barrier: nothing is being sent while a netmap is applied. -/
structure Barred (log : List Notice) (s : Receiver) : Prop where
  consistent : Consistent (lastReturned log) s.inner
  replayed : s.inner.authorization.generation = replay log
  counted : (grantsOf log).length < 2 ^ 64 →
    s.inner.authorization.nextGeneration = (grantsOf log).length ∧
      (grantsOf log).map Prod.snd = range' 1 (grantsOf log).length
  barrier : s.inner.netmap.isSome → s.tasks.any isSending = false
  current : ∀ datagrams, sending datagrams ∈ s.tasks →
    ∀ d ∈ datagrams, s.inner.authorization.isCurrent d.1 d.2 = true
  every : Machine.Every Justified log

section
variable {disableDirectPaths : Bool} {s s' : Receiver} {new log before : List Notice} {a : Act}
  {p : NodePublic} {g : ℕ}

theorem isSending_of_mem {datagrams : List (NodePublic × ℕ)}
    (h : sending datagrams ∈ s.tasks) : s.tasks.any isSending = true :=
  any_eq_true.mpr ⟨_, h, rfl⟩

/-- Justified publications change nothing that the log is asked for. -/
theorem published_append (h : ∀ e ∈ new, ∃ p g, e = Notice.published p g ∧ replay log p = some g) :
    replay (log ++ new) = replay log ∧ grantsOf (log ++ new) = grantsOf log ∧
      lastReturned (log ++ new) = lastReturned log ∧
      (Machine.Every Justified log → Machine.Every Justified (log ++ new)) := by
  induction new using reverseRecOn with
  | nil => simp
  | append_singleton new e ih =>
    obtain ⟨hreplay, hgrants, hlast, hevery⟩ := ih fun x hx => h x (mem_append_left _ hx)
    obtain ⟨p, g, rfl, hp⟩ := h e (by simp)
    rw [← append_assoc]
    refine ⟨(replay_concat _).trans hreplay, ?_, ?_,
      fun h => every_concat.mpr ⟨hevery h, by rwa [Justified, hreplay]⟩⟩
    · rw [grantsOf, flatMap_append, ← grantsOf, hgrants]
      simp [Notice.grants]
    · rw [lastReturned, filterMap_append, ← hlast]
      simp [Notice.netmap, lastReturned]

theorem barred_new : Barred [] Receiver.new where
  consistent := by
    refine ⟨fun p => rfl, fun a p hp => ?_, fun d p hp => ?_⟩
    · simp [Receiver.new, Inner.new] at hp
    · simp [new, Inner.new] at hp
  replayed := rfl
  counted _ := ⟨rfl, rfl⟩
  barrier h := by cases h
  current datagrams h := by cases h
  every := every_nil

theorem Barred.purge (h : Barred log s) (hnone : s.inner.netmap = none)
    (hsending : s.tasks.any isSending = false) (peers : List NetmapPeer) :
    Barred log { s with inner := s.inner.purge peers } where
  consistent := h.consistent.purge hnone peers
  replayed := h.replayed
  counted := h.counted
  barrier _ := hsending
  current := h.current
  every := h.every

/-- Step: a task's turn keeps the barrier and the record of grants. -/
theorem Barred.turns (h : Barred log s) (hstep : s.Turns s' new) : Barred (log ++ new) s' := by
  have hnew : ∀ e ∈ new, ∃ p g, e = Notice.published p g ∧ replay log p = some g := by
    intro e he
    obtain ⟨datagrams, hmem, d, hd, rfl⟩ := hstep.new e he
    have hcurrent := h.current datagrams hmem d hd
    rw [isCurrent, h.replayed, beq_iff_eq] at hcurrent
    exact ⟨d.1, d.2, rfl, hcurrent⟩
  obtain ⟨hreplay, hgrants, hlast, hevery⟩ := published_append hnew
  refine ⟨?_, ?_, ?_, ?_, ?_, hevery h.every⟩
  · rw [hlast]
    exact h.consistent.undisturbed hstep.inner
  · rw [hreplay, hstep.inner.authorization]
    exact h.replayed
  · rw [hgrants, hstep.inner.authorization]
    exact h.counted
  · intro hsome
    rw [hstep.inner.netmap] at hsome
    have hnone := h.barrier hsome
    refine Bool.eq_false_iff.mpr fun hany => ?_
    obtain ⟨task, hmem, hsending⟩ := any_eq_true.mp hany
    cases task with
    | sending datagrams =>
      rcases hstep.sending datagrams hmem with hmem | ⟨hnetmap, -⟩
      · rw [isSending_of_mem hmem] at hnone
        cases hnone
      · rw [hnetmap] at hsome
        cases hsome
    | _ => cases hsending
  · intro datagrams hmem d hd
    rw [hstep.inner.authorization]
    rcases hstep.sending datagrams hmem with hmem | ⟨-, hcurrent⟩
    · exact h.current datagrams hmem d hd
    · exact hcurrent d hd

section
variable (h : Barred log s) {netmap : Netmap} {order : List NodePublic}
  (hnetmap : s.inner.netmap = some netmap)
include h hnetmap

/-- Step: publishing a netmap extends the record by its grants. -/
theorem Barred.publish (horder : order.Perm (desired netmap.peers).dedup)
    (hconsistent : Consistent netmap.peers (s.inner.publish order netmap.refreshed)) :
    Barred (log ++ [.returned netmap.peers (s.inner.authorization.granted order netmap.refreshed)])
      { s with inner := s.inner.publish order netmap.refreshed } := by
  have hgrants : grantsOf (log ++ [.returned netmap.peers
      (s.inner.authorization.granted order netmap.refreshed)]) =
      grantsOf log ++ s.inner.authorization.granted order netmap.refreshed := by
    simp [grantsOf, Notice.grants]
  refine ⟨?_, ?_, ?_, ?_, ?_, ?_⟩
  · simpa [lastReturned, Notice.netmap] using hconsistent
  · funext p
    rw [replay_concat, ← h.replayed]
    exact generation_reconcile s.inner.authorization horder
  · rw [hgrants, length_append]
    intro hlength
    obtain ⟨hnext, hmap⟩ := h.counted (by omega)
    obtain ⟨hnext', hmap'⟩ := grants_count netmap.refreshed order
      { s.inner.authorization with
        generations := s.inner.authorization.generations.retain fun peer _ =>
          decide (peer ∈ order) } (by rw [hnext]; exact hlength)
    refine ⟨?_, ?_⟩
    · rw [← hnext]
      exact hnext'
    · rw [hnext, Nat.add_comm] at hmap'
      rw [map_append, hmap, ← range'_append_1]
      exact congrArg _ hmap'
  · rintro ⟨⟩
  · intro datagrams hmem
    have hbarrier := h.barrier (by rw [hnetmap]; rfl)
    rw [isSending_of_mem hmem] at hbarrier
    cases hbarrier
  · rw [every_concat]
    refine ⟨h.every, fun p hp => ?_⟩
    have hc := h.consistent
    unfold Consistent at hc
    rw [hnetmap] at hc
    refine isSome_lookup_grants ((hc.1 p).mpr hp) (horder.mem_iff.mpr (mem_dedup.mpr ?_))
    obtain ⟨-, d', -, hd', -⟩ := hp
    exact isSome_desiredDisco.mp (by rw [hd']; rfl)

theorem Barred.goOn (hgo : netmap.goOn s.inner order = some s'.inner)
    (htasks : s'.tasks = s.tasks) : Barred (log ++ s.inner.returns order) s' := by
  have hconsistent := h.consistent.goOn hnetmap hgo
  obtain ⟨inner', tasks'⟩ := s'
  obtain rfl : tasks' = s.tasks := htasks
  dsimp only at hgo hconsistent
  rcases goOn_cases hnetmap hgo with ⟨hreturns, hsome, hauth⟩ | ⟨horder, rfl, hreturns⟩
  · rw [hreturns, append_nil]
    refine ⟨?_, ?_, ?_, ?_, ?_, h.every⟩
    · obtain ⟨netmap', hnetmap'⟩ := Option.isSome_iff_exists.mp hsome
      rwa [installed, hnetmap, hnetmap'] at hconsistent
    · rw [← h.replayed, ← hauth]
    · rw [hauth]
      exact h.counted
    · exact fun _ => h.barrier (by rw [hnetmap]; rfl)
    · rw [hauth]
      exact h.current
  · rw [hreturns]
    refine h.publish hnetmap horder ?_
    rwa [installed, hnetmap] at hconsistent

end

theorem run_barred (run : (Receiver.machine disableDirectPaths).Run (fun _ _ => True) log s) :
    Barred log s := by
  refine run.invariant Barred barred_new fun log s a s' new h hs _ => ?_
  rcases step_cases hs with
    ⟨peers, hnone, hsending, rfl, rfl⟩ | ⟨netmap, order, hnetmap, hgo, htasks, rfl⟩ | hstep
  · rw [append_nil]
    exact h.purge hnone hsending peers
  · exact h.goOn hnetmap hgo htasks
  · exact h.turns hstep

/-- Generations are not handed out twice while there are new ones. -/
theorem Barred.nodup (h : Barred log s) (hlength : (grantsOf log).length < 2 ^ 64) :
    ((grantsOf log).map Prod.snd).Nodup := by
  rw [(h.counted hlength).2]
  exact nodup_range'

theorem mem_grantsOf_of_published (h : Machine.Every Justified before)
    (hp : Notice.published p g ∈ before) : (p, g) ∈ grantsOf before := by
  obtain ⟨l1, l2, rfl⟩ := append_of_mem hp
  have hreplay : replay l1 p = some g := h l1 _ l2 rfl
  rw [grantsOf, flatMap_append]
  exact mem_append_left _ (replay_mem_grantsOf hreplay)

/-- After a netmap without a peer nothing is published for it before one that has it, and after a
changed disco key only in a generation of that netmap or a later one. Generations are not reused
until they run out, so what was published before is rejected. Between netmaps the endpoints and
indexes name peers of the last one. -/
theorem revocation_barrier
    (run : (Receiver.machine disableDirectPaths).Run (fun _ _ => True) log s) :
    (∀ before peers grants between p g after,
      log = before ++ .returned peers grants :: (between ++ .published p g :: after) →
        (p ∉ desired peers →
          ∃ peers' grants', Notice.returned peers' grants' ∈ between ∧ p ∈ desired peers') ∧
        (Changed (lastReturned before) peers p →
          (p, g) ∈ grantsOf (.returned peers grants :: between))) ∧
    ((grantsOf log).length < 2 ^ 64 →
      ((grantsOf log).map Prod.snd).Nodup ∧
      ∀ before peers grants after p g, log = before ++ .returned peers grants :: after →
        p ∉ desired peers ∨ Changed (lastReturned before) peers p →
        Notice.published p g ∈ before → s.inner.authorization.isCurrent p g = false) ∧
    (s.inner.netmap = none →
      (∀ p, (s.inner.endpoints.lookup p).isSome → p ∈ desired (lastReturned log)) ∧
      Names s.inner (lastReturned log)) := by
  have h := run_barred run
  refine ⟨?_, fun hlength => ⟨h.nodup hlength, ?_⟩, fun hnone => ?_⟩
  · rintro before peers grants between p g after rfl
    have hpublished : replay (before ++ [.returned peers grants] ++ between) p = some g :=
      h.every (before ++ [Notice.returned peers grants] ++ between) (.published p g) after (by simp)
    refine ⟨fun hp => ?_, fun hchanged => ?_⟩
    · by_contra hnot
      have hbefore := replay_of_not_desired
        (fun peers' grants' hmem hp' => hnot ⟨peers', grants', hmem, hp'⟩) hpublished
      simp [replay_concat, Notice.after, hp] at hbefore
    · rw [append_assoc] at hpublished
      rcases replay_cases before _ hpublished with hmem | ⟨-, hkept⟩
      · exact hmem
      · have hgranted := h.every before _ _ rfl p hchanged
        rw [(hkept peers grants (by simp)).2] at hgranted
        cases hgranted
  · rintro before peers grants after p g rfl hrevoked hpublished
    have hgranted := mem_grantsOf_of_published h.every.left hpublished
    rw [isCurrent, h.replayed, beq_eq_false_iff_ne]
    intro hcurrent
    rcases replay_cases before _ hcurrent with hmem | ⟨-, hkept⟩
    · have hnodup := h.nodup hlength
      rw [grantsOf, flatMap_append, map_append, nodup_append] at hnodup
      exact hnodup.2.2 g (mem_map_of_mem hgranted) g (mem_map_of_mem hmem) rfl
    · obtain ⟨hdesired, hlookup⟩ := hkept peers grants (by simp)
      rcases hrevoked with hp | hchanged
      · exact hp hdesired
      · have hgranted := h.every before _ _ rfl p hchanged
        rw [hlookup] at hgranted
        cases hgranted
  · have hc := h.consistent
    unfold Consistent at hc
    rw [hnone] at hc
    exact ⟨fun p hp => isSome_of_disco hc.1 (by rwa [Inner.disco, Option.isSome_map]), hc.2⟩

end

def install (peers : List NetmapPeer) (order : List NodePublic) : List Act :=
  [.node (.setNetmap peers), .node (.goOn []), .node (.goOn []), .node (.goOn []),
    .node (.goOn order)]

/-- A peer that the second netmap leaves out. -/
theorem revocation_barrier_removed : ∃ log s,
    (Receiver.machine false).Run (fun _ _ => True) log s ∧
      log = [.returned [⟨1, 11⟩, ⟨2, 12⟩] [(1, 1), (2, 2)], .published 1 1,
        .returned [⟨2, 12⟩] []] ∧ s.inner.authorization.isCurrent 1 1 = false := by
  obtain ⟨log, s, run, hlog⟩ := Machine.exists_run (Receiver.machine false) (fun _ _ => True)
    (install [⟨1, 11⟩, ⟨2, 12⟩] [1, 2] ++ [.derp 1, .turn 0, .turn 0] ++ install [⟨2, 12⟩] [2])
    (fun log _ => log = [.returned [⟨1, 11⟩, ⟨2, 12⟩] [(1, 1), (2, 2)], .published 1 1,
      .returned [⟨2, 12⟩] []])
    (by decide +kernel) (Machine.kept_of_forall (fun _ _ => trivial) _ _ _)
  refine ⟨log, s, run, hlog, ?_⟩
  refine ((revocation_barrier run).2.1 (by rw [hlog]; decide)).2
    [.returned [⟨1, 11⟩, ⟨2, 12⟩] [(1, 1), (2, 2)], .published 1 1] [⟨2, 12⟩] [] [] 1 1 hlog
    (.inl (by decide)) (by simp)

theorem mem_grants_lt {refreshed order : List NodePublic} {e : NodePublic × ℕ}
    {auth : PeerAuthorization} (he : e ∈ grants refreshed auth order) : 1 ≤ e.2 ∧ e.2 < 2 ^ 64 := by
  induction order generalizing auth with
  | nil => cases he
  | cons peer order ih =>
    rcases mem_append.mp he with he | he
    · split at he
      · next hnew =>
        obtain rfl := mem_singleton.mp he
        dsimp only
        rw [refresh, if_pos hnew]
        dsimp only
        have := Nat.mod_lt (auth.nextGeneration + 1) (y := 2 ^ 64) (by decide)
        omega
      · cases he
    · exact ih he

/-- Nobody is authorized. -/
def deserted (generation : ℕ) : Receiver := ⟨{ Inner.new with authorization := ⟨generation, ∅⟩ }, []⟩

def three : List NetmapPeer := [⟨1, 11⟩, ⟨2, 12⟩, ⟨3, 13⟩]

/-- Three peers come and go. -/
theorem exec_comeAndGo (log : List Notice) (generation : ℕ) : ∃ log' generation',
    exec (Receiver.machine false) (install three [1, 2, 3] ++ install [] []) log
        (deserted generation) = some (log', deserted generation') ∧
      log' = log ++ [.returned three (grants [] ⟨generation, ∅⟩ [1, 2, 3]), .returned [] []] :=
  ⟨_, _, rfl, by simp only [append_assoc]; rfl⟩

/-- Two netmaps hand out three generations. -/
theorem exists_run_comeAndGo (n : ℕ) : ∃ log generation,
    (Receiver.machine false).Run (fun _ _ => True) log (deserted generation) ∧
      (log.filterMap Notice.netmap).length = 2 * n ∧ (grantsOf log).length = 3 * n ∧
      ∀ e ∈ grantsOf log, 1 ≤ e.2 ∧ e.2 < 2 ^ 64 := by
  induction n with
  | zero => exact ⟨[], 0, .start, rfl, rfl, nofun⟩
  | succ n ih =>
    obtain ⟨log, generation, run, hcommits, hlength, hlt⟩ := ih
    obtain ⟨log', generation', hexec, rfl⟩ := exec_comeAndGo log generation
    have hgrants : grantsOf (log ++ [.returned three (grants [] ⟨generation, ∅⟩ [1, 2, 3]),
        .returned [] []]) = grantsOf log ++ grants [] ⟨generation, ∅⟩ [1, 2, 3] := by
      simp [grantsOf, Notice.grants]
    refine ⟨_, generation', run.exec hexec (kept_of_forall (fun _ _ => trivial) ..), ?_, ?_, ?_⟩
    · rw [filterMap_append, length_append, hcommits]
      rfl
    · rw [hgrants, length_append, hlength]
      rfl
    · intro e he
      rw [hgrants] at he
      exact (mem_append.mp he).elim (hlt e) mem_grants_lt

/-- The netmap that changes a disco key hands out the new generation itself; and fewer than 2^64
netmaps can hand out more generations than there are. -/
theorem revocation_limits :
    (∃ before peers grants after s, (Receiver.machine false).Run (fun _ _ => True)
      (before ++ .returned peers grants :: after) s ∧
      Changed (lastReturned before) peers 1 ∧ after = [.published 1 2]) ∧
    ∃ log s, (Receiver.machine false).Run (fun _ _ => True) log s ∧
      (log.filterMap Notice.netmap).length < 2 ^ 64 ∧ ¬((grantsOf log).map Prod.snd).Nodup := by
  constructor
  · obtain ⟨log, s, run, hlog⟩ := Machine.exists_run (Receiver.machine false) (fun _ _ => True)
      (install [⟨1, 11⟩] [1] ++ install [⟨1, 12⟩] [1] ++ [.derp 1, .turn 0, .turn 0])
      (fun log _ => log = [.returned [⟨1, 11⟩] [(1, 1)]] ++
        .returned [⟨1, 12⟩] [(1, 2)] :: [.published 1 2])
      (by decide +kernel) (kept_of_forall (fun _ _ => trivial) _ _ _)
    exact ⟨_, _, _, _, s, hlog ▸ run, ⟨11, 12, by decide, by decide, by decide⟩, rfl⟩
  · obtain ⟨log, generation, run, hcommits, hlength, hlt⟩ := exists_run_comeAndGo (2 ^ 63 - 1)
    refine ⟨log, _, run, by omega, fun hnodup => ?_⟩
    have hsubset : (grantsOf log).map Prod.snd ⊆ range' 1 (2 ^ 64 - 1) := by
      intro g hg
      obtain ⟨e, he, rfl⟩ := mem_map.mp hg
      have := hlt e he
      rw [mem_range'_1]
      omega
    have hle := (hnodup.subperm hsubset).length_le
    rw [length_map, length_range', hlength] at hle
    omega

end Rustscale.Magicsock
