import Rustscale.Router.Stateful

/-! What transactions leave behind in each slot of the kernel: one that fails owes the way back. -/
namespace Rustscale.Router
open Tsaddr Undo List Item RouterOperation

variable {fails : Faults} {k : Kernel} {spec : CommandSpec} {t : Slot} {x : Item}

/-- No failure is one that the router ignores. -/
def Faults.Fatal (fails : Faults) : Prop :=
  ∀ n spec, ∀ failure ∈ fails.command n spec, (RouterError.command spec failure).nonFatal = false

def Faults.Spares (fails : Faults) (spec : CommandSpec) : Prop := ∀ n, fails.command n spec = none

/-- What running a command can come to. -/
inductive Ran (fails : Faults) (k : Kernel) (spec : CommandSpec) : Outcome × Kernel → Prop
  | done (h : answer (k.table spec.item.slot) spec = .done) :
      Ran fails k spec (none, ⟨perform slot k.table spec, k.issued + 1⟩)
  | absent (error : RouterError) (herror : error.nonFatal = true)
      (h : answer (k.table spec.item.slot) spec = .absent) :
      Ran fails k spec (some error, ⟨k.table, k.issued + 1⟩)
  | idle (hlink : spec.item = .linkUp) (h : answer (k.table spec.item.slot) spec = .absent) :
      Ran fails k spec (none, ⟨k.table, k.issued + 1⟩)
  | failed (error : RouterError) (herror : error.nonFatal = false)
      (h : ¬fails.Spares spec ∨ answer (k.table spec.item.slot) spec = .occupied) :
      Ran fails k spec (some error, ⟨k.table, k.issued + 1⟩)

theorem Kernel.ran (hfatal : fails.Fatal) (k : Kernel) (spec : CommandSpec) :
    Ran fails k spec (k.run fails spec) := by
  unfold Kernel.run
  split
  · next failure hf =>
    refine .failed _ (hfatal _ _ _ hf) (.inl fun hspares => ?_)
    cases (hspares k.issued).symm.trans hf
  · split
    · next h => exact .done h
    · next h => exact .failed _ rfl (.inr h)
    · next h =>
      split
      · next hlink => exact .idle hlink h
      · next hlink =>
        refine .absent _ ?_ h
        obtain ⟨puts, item⟩ := spec
        cases puts with
        | true => cases hc : k.table item.slot <;> simp [hc] at h
        | false => simpa [RouterError.nonFatal] using hlink

section
variable (hfatal : fails.Fatal) (cs : List CommandSpec) (k : Kernel)

include hfatal in
/-- What the commands of one slot come to, from what each of them does. -/
theorem runAll_slot {P : Option Item → List CommandSpec → Option Item → List CommandSpec → Prop}
    (nil : ∀ now, P now [] now [])
    (gone : ∀ {now c cs later kept}, answer now c ≠ .occupied → P (after now c) cs later kept →
      P now (c :: cs) later kept)
    (kept : ∀ {now c cs later kept}, ¬fails.Spares c ∨ answer now c = .occupied →
      P now cs later kept → P now (c :: cs) later (c :: kept)) (t : Slot) :
    P (k.table t) (on slot t cs) ((runAll fails cs k).1.table t)
      (on slot t (runAll fails cs k).2.1) := by
  induction cs generalizing k with
  | nil => exact nil _
  | cons spec cs ih =>
    unfold runAll
    have hran := k.ran hfatal spec
    -- a command that finds nothing to remove leaves the slot as it is
    have hsame : answer (k.table spec.item.slot) spec = .absent →
        P (k.table t) (on slot t (spec :: cs)) ((runAll fails cs ⟨k.table, k.issued + 1⟩).1.table t)
          (on slot t (runAll fails cs ⟨k.table, k.issued + 1⟩).2.1) := by
      intro h
      by_cases ht : spec.item.slot = t
      · subst ht
        rw [on_cons_self rfl]
        refine gone (by rw [h]; simp) ?_
        rw [after_of_ne_done (by rw [h]; simp)]
        exact ih ⟨k.table, k.issued + 1⟩
      · rw [on_cons_of_ne ht]
        exact ih ⟨k.table, k.issued + 1⟩
    generalize k.run fails spec = result at hran
    cases hran with
    | done h =>
      have hrest := ih ⟨perform slot k.table spec, k.issued + 1⟩
      by_cases ht : spec.item.slot = t
      · subst ht
        rw [on_cons_self rfl]
        simp only [perform_self rfl] at hrest
        exact gone (by rw [h]; simp) hrest
      · rw [on_cons_of_ne ht]
        simpa only [perform_of_ne ht] using hrest
    | absent error herror h =>
      simp only [herror, if_true]
      exact hsame h
    | idle _ h => exact hsame h
    | failed error herror h =>
      have hrest := ih ⟨k.table, k.issued + 1⟩
      simp only [herror, Bool.false_eq_true, if_false]
      by_cases ht : spec.item.slot = t
      · subst ht
        rw [on_cons_self rfl, on_cons_self rfl]
        exact kept h hrest
      · rwa [on_cons_of_ne ht, on_cons_of_ne ht]

include hfatal in
theorem runAll_attempted (t : Slot) :
    Attempted (k.table t) (on slot t cs) ((runAll fails cs k).1.table t)
      (on slot t (runAll fails cs k).2.1) :=
  runAll_slot hfatal cs k .nil .gone (fun _ => .kept) t

theorem runAll_errors (fails : Faults) : (runAll fails cs k).2.2.length = (runAll fails cs k).2.1.length := by
  induction cs generalizing k with
  | nil => rfl
  | cons spec cs ih =>
    unfold runAll
    split
    · exact ih _
    · split
      · exact ih _
      · exact congrArg (· + 1) (ih _)

include hfatal in
/-- The first command goes on to the next ones, or is the one that fails. -/
theorem runForward_cons (c : CommandSpec) (hlink : c.item ≠ .linkUp)
    (rest : List (CommandSpec × CommandSpec)) (rollback : List CommandSpec) :
    (∃ noted, runForward fails ((c, c.inverse) :: rest) k rollback =
        runForward fails rest ⟨perform slot k.table c, k.issued + 1⟩ (noted ++ rollback) ∧
      (answer (k.table c.item.slot) c = .done ∧ noted = [c.inverse] ∨
        answer (k.table c.item.slot) c = .absent ∧ noted = [])) ∨
    ∃ error, runForward fails ((c, c.inverse) :: rest) k rollback =
        (some error, ⟨k.table, k.issued + 1⟩, rollback) ∧
      (¬fails.Spares c ∨ answer (k.table c.item.slot) c = .occupied) := by
  have hran := k.ran hfatal c
  simp only [runForward]
  generalize k.run fails c = result at hran
  cases hran with
  | done h => exact .inl ⟨[c.inverse], rfl, .inl ⟨h, rfl⟩⟩
  | absent error herror h =>
    refine .inl ⟨[], ?_, .inr ⟨h, rfl⟩⟩
    rw [perform_of_ne_done (by rw [h]; simp)]
    simp only [herror, if_true, nil_append]
  | idle hlink' => exact absurd hlink' hlink
  | failed error herror h =>
    refine .inr ⟨error, ?_, h⟩
    simp only [herror, Bool.false_eq_true, if_false]

include hfatal in
/-- The forward run performs a first part of the commands and notes how to undo it. -/
theorem runForward_performed (hlink : ∀ c ∈ cs, c.item ≠ .linkUp) (rollback : List CommandSpec) :
    let r := runForward fails (cs.map fun c => (c, c.inverse)) k rollback
    ∃ tried rest noted, cs = tried ++ rest ∧ (r.1 = none → rest = []) ∧
      r.2.2 = noted.reverse.map Undo.Command.inverse ++ rollback ∧
      ∀ t, Performed (k.table t) (on slot t tried) (r.2.1.table t) (on slot t noted) := by
  induction cs generalizing k rollback with
  | nil => exact ⟨[], [], [], rfl, fun _ => rfl, rfl, fun t => .nil _⟩
  | cons c cs ih =>
    obtain ⟨hc, hlink⟩ := forall_mem_cons.mp hlink
    rw [map_cons]
    rcases runForward_cons hfatal k c hc (cs.map fun c => (c, c.inverse)) rollback with
      ⟨back, hrun, hback⟩ | ⟨error, hrun, -⟩ <;> rw [hrun]
    · obtain ⟨tried, rest, noted, rfl, hrest, hrollback, hperf⟩ :=
        ih ⟨perform slot k.table c, k.issued + 1⟩ hlink (back ++ rollback)
      rcases hback with ⟨h, rfl⟩ | ⟨h, rfl⟩
      · refine ⟨c :: tried, rest, c :: noted, rfl, hrest, ?_, fun t => ?_⟩
        · rw [hrollback, reverse_cons, map_append, append_assoc]
          rfl
        have hp := hperf t
        by_cases ht : c.item.slot = t
        · subst ht
          rw [on_cons_self rfl, on_cons_self rfl]
          simp only [perform_self rfl] at hp
          exact .done h hp
        · rw [on_cons_of_ne ht, on_cons_of_ne ht]
          simpa only [perform_of_ne ht] using hp
      · refine ⟨c :: tried, rest, noted, rfl, hrest, hrollback, fun t => ?_⟩
        have hp := hperf t
        rw [perform_of_ne_done (by rw [h]; simp)] at hp ⊢
        by_cases ht : c.item.slot = t
        · subst ht
          rw [on_cons_self rfl]
          exact .absent h hp
        · rwa [on_cons_of_ne ht]
    · exact ⟨[], c :: cs, [], rfl, by simp, rfl, fun t => .nil _⟩

end

/-- The operations that a transaction may consist of. -/
def RouterOperation.invertible : RouterOperation → Bool
  | .up => false
  | .down => false
  | _ => true

theorem zip_commands {op : RouterOperation} (h : op.invertible = true) :
    (commands op).zip (commands op.inverse) = (commands op).map fun c => (c, c.inverse) := by
  cases op <;> first | rfl | cases h

theorem commands_item {op : RouterOperation} (h : op.invertible = true) :
    ∀ c ∈ commands op, c.item ≠ .linkUp := by
  cases op <;> simp_all [commands, families, invertible]

namespace StatefulRouter

/-- A call either performs every operation or rolls back, owing what it could not undo. -/
theorem apply_spec (r : StatefulRouter) (hfatal : fails.Fatal) {ops : List RouterOperation}
    (hops : ∀ op ∈ ops, op.invertible = true) (hforward : Forward (ops.flatMap commands)) :
    ∃ k kept, (r.apply fails ops).2 =
        { r with kernel := k, pendingCleanup := r.pendingCleanup ++ kept } ∧
      (((r.apply fails ops).1 = none ∧ kept = [] ∧ ∀ t, ∃ noted,
          Performed (r.kernel.table t) (on slot t (ops.flatMap commands)) (k.table t) noted) ∨
        (r.apply fails ops).1.isSome ∧
          ∀ t, Owed (k.table t) (on slot t kept) (r.kernel.table t)) ∧
      ∀ t, on slot t (ops.flatMap commands) = [] →
        k.table t = r.kernel.table t ∧ on slot t kept = [] := by
  have hlink : ∀ c ∈ ops.flatMap commands, c.item ≠ .linkUp := by
    intro c hc
    obtain ⟨op, hop, hc⟩ := mem_flatMap.mp hc
    exact commands_item (hops op hop) c hc
  obtain ⟨tried, rest, noted, hcs, hrest, hback, hperf⟩ :=
    runForward_performed hfatal (ops.flatMap commands) r.kernel hlink []
  have hzip := flatMap_congr fun op hop => zip_commands (hops op hop)
  simp only [apply, hzip, ← map_flatMap]
  generalize runForward fails _ r.kernel [] = result at hrest hback hperf ⊢
  -- no command that was tried has its item in a slot that is not named
  have hfree : ∀ t, on slot t (ops.flatMap commands) = [] →
      result.2.1.table t = r.kernel.table t ∧ on slot t noted = [] := by
    intro t ht
    rw [hcs, on_append, append_eq_nil_iff] at ht
    have hp := hperf t
    rw [ht.1] at hp
    generalize on slot t noted = noted' at hp ⊢
    generalize result.2.1.table t = cell at hp ⊢
    cases hp
    exact ⟨rfl, rfl⟩
  obtain ⟨_ | error, k, rollback⟩ := result
  · refine ⟨k, [], by simp, .inl ⟨rfl, rfl, fun t => ⟨on slot t noted, ?_⟩⟩, fun t ht =>
      ⟨(hfree t ht).1, rfl⟩⟩
    rw [hcs, hrest rfl, append_nil]
    exact hperf t
  · obtain rfl : rollback = noted.reverse.map Undo.Command.inverse := by simpa using hback
    refine ⟨_, _, rfl, .inr ⟨rfl, fun t => ?_⟩, fun t ht => ?_⟩
    · have htried : Forward tried := (forward_append.mp (hcs ▸ hforward)).1
      have howed := (hperf t).owed (htried.on t)
      rw [← on_reverse_inverse] at howed
      exact howed.attempted (runAll_attempted hfatal _ k t)
    · have hran := runAll_attempted hfatal (noted.reverse.map Undo.Command.inverse) k t
      rw [on_reverse_inverse, (hfree t ht).2, (hfree t ht).1] at hran
      exact hran.of_nil

end StatefulRouter

def exitRoutes : List IpPrefix := [allIpv4, allIpv6]

def RouterConfig.items (config : RouterConfig) : List Item :=
  config.localAddrs.map .addr ++ config.routes.map .route ++ config.localRoutes.map .throwRoute ++
    if config.exitNode then exitRoutes.map .route else []

/-- What the way from one configuration to another puts. -/
def Gains (old new : RouterConfig) : Item → Prop
  | .addr ip => ip ∈ new.localAddrs ∧ ip ∉ old.localAddrs
  | .route pfx => pfx ∈ new.routes ∧ pfx ∉ old.routes ∨
      old.exitNode = false ∧ new.exitNode = true ∧ pfx ∈ exitRoutes
  | .throwRoute pfx => pfx ∈ new.localRoutes ∧ pfx ∉ old.localRoutes
  | _ => False

variable {old new : RouterConfig} {previous : Option RouterConfig}

/-- The commands of a difference, in the order in which they are issued. -/
theorem operations_commands (d : RouterDiff) : d.operations.flatMap commands =
    (if d.removeExitRoutes then exitRoutes.map fun p => take (route p) else []) ++
      (d.addLocalRoutes.map (fun p => put (throwRoute p)) ++ d.addRoutes.map (fun p => put (route p)) ++
        d.removeLocalRoutes.map (fun p => take (throwRoute p)) ++
        d.removeRoutes.map (fun p => take (route p)) ++ d.removeAddrs.map (fun a => take (addr a)) ++
        d.addAddrs.map (fun a => put (addr a))) ++
      (if d.addExitRoutes then exitRoutes.map fun p => put (route p) else []) := by
  have hremove : ∀ b : Bool, (if b then [removeExitRoutes] else []).flatMap commands =
      if b then exitRoutes.map fun p => take (route p) else [] := by decide
  have hadd : ∀ b : Bool, (if b then [addExitRoutes] else []).flatMap commands =
      if b then exitRoutes.map fun p => put (route p) else [] := by decide
  simp only [RouterDiff.operations, flatMap_append, hremove, hadd, flatMap_map, commands,
    ← map_eq_flatMap, append_assoc]

theorem put_mem_operations :
    put x ∈ (diff previous new).operations.flatMap commands ↔ Gains (previous.getD {}) new x := by
  rw [operations_commands]
  cases x <;> simp [diff, Gains, and_assoc]

theorem take_mem_operations :
    take x ∈ (diff previous new).operations.flatMap commands ↔ Gains new (previous.getD {}) x := by
  rw [operations_commands]
  cases x <;> simp [diff, Gains]
  tauto

theorem on_operations_nil (haddr : ∀ ip, t ≠ .addr ip) (hnet : ∀ p, t ≠ .net p) :
    on slot t ((diff previous new).operations.flatMap commands) = [] := by
  refine filter_eq_nil_iff.mpr fun c hc => ?_
  obtain ⟨puts, x⟩ := c
  have hgains : ∃ old new, Gains old new x := by
    cases puts with
    | true => exact ⟨_, _, put_mem_operations.mp hc⟩
    | false => exact ⟨_, _, take_mem_operations.mp hc⟩
  obtain ⟨old, new, hgains⟩ := hgains
  cases x with
  | addr ip => simp [slot, (haddr ip).symm]
  | route p | throwRoute p => simp [slot, (hnet p).symm]
  | _ => cases hgains

theorem operations_invertible (d : RouterDiff) : ∀ op ∈ d.operations, op.invertible = true := by
  intro op hop
  simp only [RouterDiff.operations, mem_append, mem_map] at hop
  rcases hop with ((((((hop | ⟨p, -, rfl⟩) | ⟨p, -, rfl⟩) | ⟨p, -, rfl⟩) | ⟨p, -, rfl⟩) |
    ⟨p, -, rfl⟩) | ⟨p, -, rfl⟩) | hop
  all_goals first
    | rfl
    | split at hop
      · obtain rfl := mem_singleton.mp hop
        rfl
      · cases hop

/-- Exit routes are taken first and put last, and in between nothing is both put and taken. -/
theorem forward_operations (previous : Option RouterConfig) (new : RouterConfig) :
    Forward ((diff previous new).operations.flatMap commands) := by
  rw [operations_commands, forward_append, forward_append]
  refine ⟨⟨forward_of_disjoint ?_, forward_of_disjoint ?_, ?_⟩, forward_of_disjoint ?_, ?_⟩
  · simp
  · intro x
    cases x <;> simp +contextual [diff]
  · simp
  · simp
  · simp

/-- No default route is named beside the exit routes. -/
def RouterConfig.Separate (config : RouterConfig) : Prop :=
  config.exitNode = true → ∀ pfx ∈ exitRoutes, pfx ∉ config.routes

theorem mem_items {config : RouterConfig} : x ∈ config.items ↔
    match x with
    | .addr ip => ip ∈ config.localAddrs
    | .route pfx => pfx ∈ config.routes ∨ config.exitNode = true ∧ pfx ∈ exitRoutes
    | .throwRoute pfx => pfx ∈ config.localRoutes
    | _ => False := by
  cases x <;> cases hexit : config.exitNode <;> simp [RouterConfig.items, hexit]

theorem gains_or_kept (hold : old.Separate) :
    Gains old new x ∨ x ∈ old.items ∧ ¬Gains new old x ↔ x ∈ new.items := by
  rw [mem_items, mem_items]
  cases x with
  | addr ip | throwRoute pfx =>
    simp only [Gains]
    tauto
  | route pfx =>
    have hdisj := fun h he => hold h pfx he
    simp only [Gains]
    cases ho : old.exitNode <;> cases hn : new.exitNode <;> simp [ho] at hdisj ⊢ <;> tauto
  | _ => simp [Gains]

end Rustscale.Router
