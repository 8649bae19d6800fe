import Rustscale.Magicsock.RelayChanges
import Rustscale.Magicsock.RelaySystem

/-! The registered items of work are those that were started and have not ended. -/
namespace Rustscale.RelayManager
open Disco HashTable List Effect Option

def Ended (log : List Event) (task : ℕ) : Prop := ∃ e, .did e ∈ log ∧ e.ends task = true

def Live (log : List Event) (item : Item) : Prop :=
  (∃ e, .did e ∈ log ∧ e.item = some item) ∧ ¬Ended log item.task

def Event.ends (task : ℕ) : Event → Bool
  | .did e => e.ends task
  | _ => false

theorem ended_iff {log : List Event} {task : ℕ} :
    Ended log task ↔ ∃ event ∈ log, event.ends task = true := by
  constructor
  · rintro ⟨e, he, hend⟩
    exact ⟨.did e, he, hend⟩
  · rintro ⟨event, hevent, hend⟩
    cases event with
    | did e => exact ⟨e, hevent, hend⟩
    | _ => cases hend

instance (log : List Event) (task : ℕ) : Decidable (Ended log task) :=
  decidable_of_iff _ ended_iff.symm

/-- The registered work is what the log has started and not ended. -/
structure Registers (log : List Event) (s : State) : Prop where
  live : ∀ item, s.Has item ↔ Live log item
  unique : ∀ e e' item item', .did e ∈ log → .did e' ∈ log → e.item = some item →
    e'.item = some item' → item.task = item'.task → item = item'
  started_lt : ∀ e item, .did e ∈ log → e.item = some item → item.task < s.spawned
  ended_lt : ∀ task, Ended log task → task < s.spawned

section
variable {s s' : State} {log log' : List Event} {out : List Effect}

@[simp] theorem did_mem_append {e : Effect} :
    .did e ∈ log ++ out.map Event.did ↔ .did e ∈ log ∨ e ∈ out := by
  simp

theorem ended_append {task : ℕ} : Ended (log ++ out.map Event.did) task ↔
    Ended log task ∨ ∃ e ∈ out, e.ends task = true := by
  simp only [Ended, did_mem_append, or_and_right, exists_or]

theorem registers_start : Registers [] .new where
  live item := by
    constructor
    · cases item <;> intro h <;> cases h
    · rintro ⟨⟨e, he, -⟩, -⟩
      cases he
  unique e e' item item' he := by cases he
  started_lt e item he := by cases he
  ended_lt task := by
    rintro ⟨e, he, -⟩
    cases he

section
variable (h : Registers log s)
include h

theorem Registers.task_inj {item item' : Item} (hi : s.Has item) (hi' : s.Has item')
    (htask : item.task = item'.task) : item = item' := by
  obtain ⟨⟨e, he, hitem⟩, -⟩ := (h.live item).mp hi
  obtain ⟨⟨e', he', hitem'⟩, -⟩ := (h.live item').mp hi'
  exact h.unique e e' item item' he he' hitem hitem' htask

theorem Registers.congr (hlog : ∀ e, .did e ∈ log' ↔ .did e ∈ log)
    (hhas : ∀ item, s'.Has item ↔ s.Has item) (hspawned : s'.spawned = s.spawned) :
    Registers log' s' := by
  have hended : ∀ task, Ended log' task ↔ Ended log task := fun task => by simp only [Ended, hlog]
  refine ⟨fun item => ?_, ?_, ?_, ?_⟩
  · rw [hhas, h.live]
    simp only [Live, hlog, hended]
  · simpa only [hlog] using h.unique
  · simpa only [hlog, hspawned] using h.started_lt
  · simpa only [hended, hspawned] using h.ended_lt

/-- The register over work that ends. -/
theorem Registers.remove (removed : Item → Prop) (hitem : ∀ e ∈ out, e.item = none)
    (hspawned : s'.spawned = s.spawned) (hhas : ∀ item, s'.Has item ↔ s.Has item ∧ ¬removed item)
    (hends : ∀ task, (∃ e ∈ out, e.ends task = true) ↔
      ∃ item, s.Has item ∧ removed item ∧ item.task = task) :
    Registers (log ++ out.map Event.did) s' := by
  have hstarted : ∀ e item, .did e ∈ log ++ out.map Event.did → e.item = some item →
      .did e ∈ log := by
    intro e item he hi
    rcases did_mem_append.mp he with he | he
    · exact he
    · rw [hitem e he] at hi
      cases hi
  have hlt : ∀ e item, .did e ∈ log ++ out.map Event.did → e.item = some item →
      item.task < s'.spawned := fun e item he hi =>
    hspawned ▸ h.started_lt e item (hstarted e item he hi) hi
  refine ⟨fun item => ?_, ?_, hlt, ?_⟩
  · rw [hhas, Live, ended_append, hends, not_or]
    constructor
    · rintro ⟨hi, hkept⟩
      obtain ⟨⟨e, he, hi'⟩, hended⟩ := (h.live item).mp hi
      refine ⟨⟨e, did_mem_append.mpr (.inl he), hi'⟩, hended, ?_⟩
      rintro ⟨other, hother, hremoved, htask⟩
      exact hkept (h.task_inj hother hi htask ▸ hremoved)
    · rintro ⟨⟨e, he, hi⟩, hended, hkept⟩
      have hlive := (h.live item).mpr ⟨⟨e, hstarted e item he hi, hi⟩, hended⟩
      exact ⟨hlive, fun hremoved => hkept ⟨item, hlive, hremoved, rfl⟩⟩
  · intro e e' item item' he he' hi hi'
    exact h.unique e e' item item' (hstarted e item he hi) (hstarted e' item' he' hi') hi hi'
  · intro task htask
    rw [hspawned]
    rcases ended_append.mp htask with htask | htask
    · exact h.ended_lt task htask
    · obtain ⟨item, hi, -, rfl⟩ := (hends task).mp htask
      obtain ⟨⟨e, he, hi⟩, -⟩ := (h.live item).mp hi
      exact h.started_lt e item he hi

/-- The register over work that starts. -/
theorem Registers.add {e : Effect} {item : Item} (hitem : e.item = some item)
    (htask : item.task = s.spawned) (hends : ∀ task, e.ends task = false)
    (hspawned : s'.spawned = s.spawned + 1)
    (hhas : ∀ other, s'.Has other ↔ s.Has other ∨ other = item) :
    Registers (log ++ [.did e]) s' := by
  have hmem : ∀ e', .did e' ∈ log ++ [Event.did e] ↔ .did e' ∈ log ∨ e' = e := by simp
  have hended : ∀ task, Ended (log ++ [.did e]) task ↔ Ended log task := by
    intro task
    simp [Ended, hmem, hends]
  have hnew : ∀ e' item', .did e' ∈ log → e'.item = some item' → item'.task ≠ s.spawned :=
    fun e' item' he' hi' => (h.started_lt e' item' he' hi').ne
  refine ⟨fun other => ?_, ?_, ?_, ?_⟩
  · rw [hhas, h.live, Live, Live, hended]
    constructor
    · rintro (⟨⟨e', he', hi'⟩, hend⟩ | rfl)
      · exact ⟨⟨e', (hmem e').mpr (.inl he'), hi'⟩, hend⟩
      · exact ⟨⟨e, (hmem e).mpr (.inr rfl), hitem⟩, fun hend => (h.ended_lt _ hend).ne htask⟩
    · rintro ⟨⟨e', he', hi'⟩, hend⟩
      rcases (hmem e').mp he' with he' | rfl
      · exact .inl ⟨⟨e', he', hi'⟩, hend⟩
      · exact .inr (mem_unique hi' hitem)
  · intro e1 e2 i1 i2 h1 h2 hi1 hi2 heq
    rcases (hmem e1).mp h1 with hold1 | rfl <;> rcases (hmem e2).mp h2 with hold2 | rfl
    · exact h.unique e1 e2 i1 i2 hold1 hold2 hi1 hi2 heq
    · obtain rfl := mem_unique hitem hi2
      exact absurd (heq.trans htask) (hnew e1 i1 hold1 hi1)
    · obtain rfl := mem_unique hitem hi1
      exact absurd (heq.symm.trans htask) (hnew e2 i2 hold2 hi2)
    · exact mem_unique hi1 hi2
  · intro e' item' he' hi'
    rw [hspawned]
    rcases (hmem e').mp he' with he' | rfl
    · exact Nat.lt_succ_of_lt (h.started_lt e' item' he' hi')
    · obtain rfl := mem_unique hitem hi'
      omega
  · intro task htask
    rw [hspawned]
    exact Nat.lt_succ_of_lt (h.ended_lt task ((hended task).mp htask))

theorem Registers.removeItem {item : Item} (hi : s.Has item) (hitem : ∀ e ∈ out, e.item = none)
    (hspawned : s'.spawned = s.spawned) (hhas : ∀ other, s'.Has other ↔ s.Has other ∧ other ≠ item)
    (hends : ∀ task, (∃ e ∈ out, e.ends task = true) ↔ item.task = task) :
    Registers (log ++ out.map Event.did) s' :=
  h.remove (· = item) hitem hspawned hhas fun task => by simp [hends, hi]

theorem Registers.removeHandshake {key : NodePublic × DiscoPublic} {work : HandshakeWork}
    (hfound : s.handshakeWork.lookup key = some work) (hitem : ∀ e ∈ out, e.item = none)
    (hspawned : s'.spawned = s.spawned) (hsame : s'.allocWork = s.allocWork)
    (hwork : s'.handshakeWork = s.handshakeWork.erase key)
    (hends : ∀ task, (∃ e ∈ out, e.ends task = true) ↔ work.task = task) :
    Registers (log ++ out.map Event.did) s' := by
  refine h.removeItem (show s.Has (.handshake key work) from hfound) hitem hspawned ?_ hends
  rintro (⟨key', work'⟩ | ⟨key', work'⟩)
  · simp [State.Has, hsame]
  · simp only [State.Has, hwork, lookup_erase_eq_some]
    grind

theorem Registers.quiet (hspawned : s'.spawned = s.spawned) (halloc : s'.allocWork = s.allocWork)
    (hwork : s'.handshakeWork = s.handshakeWork)
    (hq : ∀ e ∈ out, e.item = none ∧ ∀ task, e.ends task = false) :
    Registers (log ++ out.map Event.did) s' := by
  refine h.remove (fun _ => False) (fun e he => (hq e he).1) hspawned ?_ fun task => ?_
  · rintro (_ | _) <;> simp [State.Has, halloc, hwork]
  · simp only [false_and, and_false, exists_false, iff_false, not_exists, not_and]
    exact fun e he => by simp [(hq e he).2 task]

/-- Step: a change keeps the register equal to what the log leaves running. -/
theorem Registers.change (hc : Change s out s') : Registers (log ++ out.map Event.did) s' := by
  cases hc with
  | quiet hq =>
    exact h.quiet rfl rfl rfl fun e he =>
      ⟨item_of_isQuiet (hq e he), ends_of_isQuiet (hq e he)⟩
  | count => exact h.quiet rfl rfl rfl (by simp)
  | allocStop drop =>
    refine h.remove (fun | .alloc key _ => drop key = true | _ => False) ?_ rfl ?_ fun task => ?_
    · intro e he
      obtain ⟨x, -, rfl⟩ := mem_map.mp he
      rfl
    · rintro (_ | _) <;> simp [State.Has]
    · constructor
      · rintro ⟨e, he, hend⟩
        obtain ⟨x, hx, rfl⟩ := mem_map.mp he
        obtain ⟨hfound, hdrop⟩ := mem_filter.mp hx
        exact ⟨.alloc x.1 x.2, mem_pairs.mp hfound, hdrop, beq_iff_eq.mp hend⟩
      · rintro ⟨⟨key, work⟩ | _, hfound, hdrop, htask⟩
        · exact ⟨.allocCancelled work.task, mem_map.mpr ⟨(key, work),
            mem_filter.mpr ⟨mem_pairs.mpr hfound, hdrop⟩, rfl⟩, beq_iff_eq.mpr htask⟩
        · cases hdrop
  | @allocDone key work found =>
    refine h.removeItem (show s.Has (.alloc key work) from found) (by simp [item]) rfl ?_
      (by simp [ends, Item.task])
    rintro (⟨key', work'⟩ | ⟨key', work'⟩)
    · simp only [State.Has, lookup_erase_eq_some]
      grind
    · simp [State.Has]
  | allocStart args gen absent =>
    refine h.add rfl rfl (fun _ => rfl) rfl ?_
    rintro (⟨key', work'⟩ | ⟨key', work'⟩)
    · simp only [State.Has, lookup_insert_eq_some]
      grind
    · simp [State.Has]
  | cancel found =>
    exact h.removeHandshake found (by simp [item]) rfl rfl rfl (by simp [ends])
  | start args gen absent vacant =>
    refine h.add rfl rfl (fun _ => rfl) rfl ?_
    rintro (⟨key', work'⟩ | ⟨key', work'⟩)
    · simp [State.Has]
    · simp only [State.Has, lookup_insert_eq_some]
      grind
  | challenge apv isChallenge absent =>
    exact h.quiet rfl rfl rfl (by simp [item, ends])

theorem Registers.changes (hc : Changes s out s') : Registers (log ++ out.map Event.did) s' := by
  induction hc generalizing log with
  | nil => simpa using h
  | cons change _ ih =>
    rw [map_append, ← append_assoc]
    exact ih (h.change change)

/-- Stopping a peer's work ends all of it. -/
theorem Registers.stopWork (peer : NodePublic) :
    Registers (log ++ (s.stopWork peer).2.map Event.did) (s.stopWork peer).1 := by
  -- the allocations first, then the handshakes
  have hallocs := h.change (Change.allocStop fun key => key.1 == peer)
  unfold State.stopWork
  rw [map_append, ← append_assoc]
  refine hallocs.remove (fun | .handshake key _ => key.1 = peer | _ => False) ?_ rfl ?_ fun task => ?_
  · intro e he
    obtain ⟨x, -, rfl⟩ := mem_map.mp he
    rfl
  · rintro (_ | _) <;> simp [State.Has]
  · constructor
    · rintro ⟨e, he, hend⟩
      obtain ⟨x, hx, rfl⟩ := mem_map.mp he
      obtain ⟨hfound, hpeer⟩ := mem_filter.mp hx
      exact ⟨.handshake x.1 x.2, mem_pairs.mp hfound, beq_iff_eq.mp hpeer, beq_iff_eq.mp hend⟩
    · rintro ⟨_ | ⟨key, work⟩, hfound, hpeer, htask⟩
      · cases hpeer
      · exact ⟨.handshakeCancelled work.task peer work.vni, mem_map.mpr ⟨(key, work),
          mem_filter.mpr ⟨mem_pairs.mpr hfound, beq_iff_eq.mpr hpeer⟩, rfl⟩,
          beq_iff_eq.mpr htask⟩

theorem Registers.completes {ctx : Context} {result : HandshakeWorkResult}
    (hc : Completes s ctx result out s') : Registers (log ++ out.map Event.did) s' := by
  cases hc with
  | ignored _ => simpa using h
  | retired found _ | installed found _ _ =>
    exact h.removeHandshake found (by simp [item]) rfl rfl rfl (by simp [ends])

theorem Registers.dispatch (hkeyed : Keyed s) (ctx : Context) (spawns : ℕ → Bool)
    (event : RelayEvent) : Registers (log ++ (s.dispatch ctx spawns event).2.map Event.did)
      (s.dispatch ctx spawns event).1 := by
  obtain ⟨peer, rfl⟩ | ⟨result, rfl⟩ | hc := dispatch_cases hkeyed ctx spawns event
  · exact h.stopWork peer
  · exact h.completes (handleHandshakeWorkDone_completes s ctx result)
  · have hservers : Registers log { s with serversByNodeKey := s.serversAfter ctx event } :=
      h.congr (fun _ => Iff.rfl) (fun item => by cases item <;> rfl) rfl
    exact hservers.changes hc

end

end

end Rustscale.RelayManager
