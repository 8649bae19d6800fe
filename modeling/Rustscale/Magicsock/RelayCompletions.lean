import Rustscale.Magicsock.RelayRuns

/-! Completions that come late. -/
namespace Rustscale.RelayManager
open Disco HashTable Machine

/-- The item has what the manager compares with a completion. -/
def Item.Matches : Item → RelayEvent → Prop
  | .alloc key work, .allocWorkDone result =>
    key = (result.peerKey, result.server) ∧ work.Matches result
  | .handshake key work, .handshakeWorkDone result =>
    key = (result.peerKey, result.serverDisco) ∧ work.Matches result
  | _, _ => False

section
variable {s : State} {ctx : Context} {spawns : ℕ → Bool}

theorem dispatch_of_not_matches {event : RelayEvent}
    (hcompletion : (∃ result, event = .allocWorkDone result) ∨
      ∃ result, event = .handshakeWorkDone result)
    (h : ∀ item, s.Has item → ¬item.Matches event) : (s.dispatch ctx spawns event).1 = s := by
  rcases hcompletion with ⟨result, rfl⟩ | ⟨result, rfl⟩
  · exact congrArg Prod.fst (handleAllocWorkDone_of_not_matches ctx spawns
      fun work hwork hsame => h (.alloc _ work) hwork ⟨rfl, hsame⟩)
  · have hc := handleHandshakeWorkDone_completes s ctx result
    rw [State.dispatch]
    generalize (s.handleHandshakeWorkDone ctx result).1 = s' at hc ⊢
    generalize (s.handleHandshakeWorkDone ctx result).2 = out at hc
    cases hc with
    | ignored => rfl
    | retired found same | installed found same =>
      exact absurd ⟨rfl, same⟩ (h (.handshake _ _) found)

/-- A result that names registered work ends it. -/
theorem ends_of_matches {event : RelayEvent} {item : Item} (hitem : s.Has item)
    (hmatches : item.Matches event) :
    ∃ e ∈ (s.dispatch ctx spawns event).2, e.ends item.task = true := by
  cases item with
  | alloc key work =>
    cases event with
    | allocWorkDone result =>
      obtain ⟨rfl, hsame⟩ := hmatches
      refine ⟨.allocDone work.task, ?_, by simp [Effect.ends, Item.task]⟩
      have hfound : s.allocWork.lookup (result.peerKey, result.server) = some work := hitem
      have hgen : work.authorizationGeneration = result.authorizationGeneration := hsame
      simp only [State.dispatch, State.handleAllocWorkDone, hfound]
      rw [if_neg (not_not.mpr hgen)]
      split_ifs
      · simp
      · split <;> simp
    | _ => cases hmatches
  | handshake key work =>
    cases event with
    | handshakeWorkDone result =>
      obtain ⟨rfl, hsame⟩ := hmatches
      exact ⟨.handshakeDone work.task result.peerKey,
        (handleHandshakeWorkDone_completes s ctx result).done_mem hitem hsame,
        by simp [Effect.ends, Item.task]⟩
    | _ => cases hmatches

end

/-- In every run, completions change the tables only while the item of their task is registered,
exactly if no item of another task has what the manager compares. -/
theorem completion_changes_iff {ctx : Context} {env : List Event → List Event → Prop}
    {log : List Event} {s : System} (run : (machine ctx).Run env log s) {q : Queued}
    {queue : List Queued} (head : s.queue = q :: queue) {task : ℕ} (sender : q.sender = some task) :
    (∀ spawns, (s.state.dispatch s.ctx spawns q.event).1 ≠ s.state → ¬Ended log task) ↔
      ∀ item, Live log item → item.Matches q.event → item.task = task := by
  have hsound := sound_of_run run
  have hlive := hsound.registers.live
  have hexplained := hsound.queue q (by simp [head])
  rw [Explained, sender] at hexplained
  constructor
  · intro honly item hitem hmatches
    have hhas := (hlive item).mpr hitem
    -- the completion ends the item, and so the tables change
    have hchanges : (s.state.dispatch s.ctx (fun _ => true) q.event).1 ≠ s.state := by
      intro hsame
      have hafter := hsound.registers.dispatch hsound.keyed s.ctx (fun _ => true) q.event
      rw [hsame] at hafter
      refine ((hafter.live item).mp hhas).2 (ended_append.mpr (.inr ?_))
      exact ends_of_matches hhas hmatches
    have hnot := honly _ hchanges
    -- the item of the task is registered under the key of the completion
    rcases hexplained with ⟨args, se, hstart, hevent⟩ | ⟨args, pongFrom, hstart, hevent, -⟩
    · have hown : s.state.Has (.alloc (args.peerKey, args.server) (args.work task)) :=
        (hlive _).mpr ⟨⟨_, hstart, rfl⟩, hnot⟩
      rw [hevent] at hmatches
      cases item with
      | alloc key work =>
        obtain ⟨rfl, -⟩ := hmatches
        rw [Option.mem_unique hhas hown]
        rfl
      | handshake key work => cases hmatches
    · have hown : s.state.Has (.handshake (args.peerKey, args.serverEndpoint.serverDisco)
          (args.work task)) := (hlive _).mpr ⟨⟨_, hstart, rfl⟩, hnot⟩
      rw [hevent] at hmatches
      cases item with
      | alloc key work => cases hmatches
      | handshake key work =>
        obtain ⟨rfl, -⟩ := hmatches
        rw [Option.mem_unique hhas hown]
        rfl
  · intro hunique spawns hchanges hended
    refine hchanges (dispatch_of_not_matches ?_ fun item hitem hmatches => ?_)
    · rcases hexplained with ⟨args, se, -, hevent⟩ | ⟨args, pongFrom, -, hevent, -⟩
      · exact .inl ⟨_, hevent⟩
      · exact .inr ⟨_, hevent⟩
    · have hlive' := (hlive item).mp hitem
      exact hlive'.2 (hunique item hlive' hmatches ▸ hended)

/-- The completion of an allocation that is running. -/
theorem completion_changes_iff_running : ∃ log s q queue,
    (machine openNode).Run (fun _ _ => True) log s ∧ s.queue = q :: queue ∧ q.sender = some 0 ∧
    ((∀ spawns, (s.state.dispatch s.ctx spawns q.event).1 ≠ s.state → ¬Ended log 0) ↔
      ∀ item, Live log item → item.Matches q.event → item.task = 0) := by
  obtain ⟨log, s, run, hqueue⟩ := exists_run (machine openNode) (fun _ _ => True)
    (handle (.serversUpdate [relayAt 20]) ++ handle (.startDiscovery 10 11 1) ++
      [.turn 0 (.allocStart none false)])
    (fun _ s => s.queue = [⟨.allocWorkDone ⟨10, 11, 1, relayAt 20, none⟩, some 0⟩])
    (by decide +kernel) (kept_of_forall (fun _ _ => trivial) _ _ _)
  exact ⟨log, s, _, [], run, hqueue, rfl, completion_changes_iff run hqueue rfl⟩

/-- The completion of a cancelled allocation retires the one started after it. -/
theorem completion_retires_next : ∃ log s, (machine openNode).Run (fun _ _ => True) log s ∧
    [.did (.allocCancelled 0), .did (.allocStarted 1 ⟨10, 11, 1, relayAt 20, (1, 11), 2⟩),
      .took (.allocWorkDone ⟨10, 11, 1, relayAt 20, none⟩) (some 0),
      .did (.allocDone 1)].Sublist log :=
  exists_run (machine openNode) (fun _ _ => True)
    (handle (.serversUpdate [relayAt 20]) ++ handle (.startDiscovery 10 11 1) ++
      [.turn 0 (.allocStart none true), .post (.cancelWork 10), .post (.startDiscovery 10 11 1),
        .turn 0 .timeout, .dispatch fun _ => true, .dispatch fun _ => true,
        .dispatch fun _ => true])
    (fun log _ => [.did (.allocCancelled 0),
      .did (.allocStarted 1 ⟨10, 11, 1, relayAt 20, (1, 11), 2⟩),
      .took (.allocWorkDone ⟨10, 11, 1, relayAt 20, none⟩) (some 0),
      .did (.allocDone 1)].Sublist log)
    (by decide +kernel) (kept_of_forall (fun _ _ => trivial) _ _ _)

end Rustscale.RelayManager
