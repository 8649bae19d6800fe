import Rustscale.Router.DirectBlock

/-! What is installed, with the pending commands executed, against what is recorded. -/
namespace Rustscale.Router
open Tsaddr Undo List StatefulRouter Item

variable {fails : Faults} {r r' : StatefulRouter} {l : Ledger} {x : Item}

namespace StatefulRouter

/-- What the recorded configuration installs, and what comes with the interface. -/
def configItems (r : StatefulRouter) : List Item :=
  (if r.isUp then upItems else []) ++ (r.config.getD {}).items

def expected (r : StatefulRouter) : List Item :=
  r.configItems ++ if r.directBlocked then families.map .directBlock else []

/-- The tables once the pending commands are executed. -/
def settledTable (r : StatefulRouter) : Slot → Option Item :=
  r.pendingCleanup.foldl (perform slot) r.kernel.table

/-- What is installed, with the pending commands executed, is what is recorded. -/
def Accounted (r : StatefulRouter) : Prop := ∀ x, r.settledTable x.slot = some x ↔ x ∈ r.expected

/-- The table with the pending commands done is that of the recorded configuration. -/
structure Kept (r : StatefulRouter) : Prop where
  slots : ∀ t, (∀ family, t ≠ .directBlock family) → ∃ owner,
    Owed (r.kernel.table t) (on slot t r.pendingCleanup) owner ∧
      ∀ x : Item, x.slot = t → (owner = some x ↔ x ∈ r.configItems)
  separate : (r.config.getD {}).Separate

theorem Kept.of_sameRest (h : r.Kept) (hsame : SameRest r r') : r'.Kept := by
  have hitems : r'.configItems = r.configItems := by rw [configItems, configItems, hsame.isUp, hsame.config]
  refine ⟨fun t ht => ?_, by rw [hsame.config]; exact h.separate⟩
  rw [hsame.table t ht, hsame.pending t ht, hitems]
  exact h.slots t ht

theorem Kept.retry (h : r.Kept) (hfatal : fails.Fatal) : (r.retryPendingCleanup fails).2.Kept := by
  refine ⟨fun t ht => ?_, h.separate⟩
  obtain ⟨owner, howed, howner⟩ := h.slots t ht
  exact ⟨owner, howed.attempted (runAll_attempted hfatal r.pendingCleanup r.kernel t), howner⟩

theorem retry_none (h : (r.retryPendingCleanup fails).1 = none) :
    (r.retryPendingCleanup fails).2.pendingCleanup = [] := by
  have hlength := runAll_errors r.pendingCleanup r.kernel fails
  have herrors : (runAll fails r.pendingCleanup r.kernel).2.2 = [] := head?_eq_none_iff.mp h
  rw [herrors] at hlength
  exact length_eq_zero_iff.mp hlength.symm

theorem Kept.table (h : r.Kept) (hpending : r.pendingCleanup = [])
    (hx : ∀ family, x.slot ≠ .directBlock family) :
    r.kernel.table x.slot = some x ↔ x ∈ r.configItems := by
  obtain ⟨owner, howed, howner⟩ := h.slots x.slot hx
  rw [hpending] at howed
  have hcell : r.kernel.table x.slot = owner := howed.execCell
  rw [hcell]
  exact howner x rfl

end StatefulRouter

variable {previous : Option RouterConfig} {new : RouterConfig}

theorem not_gains_of_mem_upItems {old new : RouterConfig} (h : x ∈ upItems) : ¬Gains old new x := by
  cases x <;> simp_all [upItems, families, Gains]

namespace StatefulRouter

/-- After the commands of a switch, a slot holds what the new configuration asks for. -/
theorem Kept.switched (h : r.Kept) (hpending : r.pendingCleanup = []) {cell' : Option Item}
    {noted : List CommandSpec} (hx : ∀ family, x.slot ≠ .directBlock family)
    (hperf : Performed (r.kernel.table x.slot)
      (on slot x.slot ((diff r.config new).operations.flatMap commands)) cell' noted) :
    cell' = some x ↔ x ∈ { r with config := some new }.configItems := by
  rw [hperf.eq_some_iff ((forward_operations _ _).on _), mem_on, mem_on, h.table hpending hx]
  simp only [and_true]
  rw [put_mem_operations, take_mem_operations, configItems, configItems, mem_append, mem_append]
  have hkept : Gains (r.config.getD {}) new x ∨
      x ∈ (r.config.getD {}).items ∧ ¬Gains new (r.config.getD {}) x ↔ x ∈ new.items :=
    gains_or_kept h.separate
  have hup : x ∈ (if r.isUp then upItems else []) → ∀ old new, ¬Gains old new x := by
    intro hmem old new
    split at hmem
    · exact not_gains_of_mem_upItems hmem
    · cases hmem
  simp only [Option.getD_some]
  rw [← hkept]
  constructor
  · rintro (hgains | ⟨hmem | hmem, hnot⟩)
    · exact .inr (.inl hgains)
    · exact .inl hmem
    · exact .inr (.inr ⟨hmem, hnot⟩)
  · rintro (hmem | hgains | hmem)
    · exact .inr ⟨.inl hmem, hup hmem _ _⟩
    · exact .inl hgains
    · exact .inr ⟨.inr hmem.1, hmem.2⟩

end StatefulRouter

theorem operations_of_exit (hold : (previous.getD {}).exitNode = false) (hnew : new.exitNode = true) :
    ∃ cs, (diff previous new).operations.flatMap commands = cs ++ commands .addExitRoutes ∧
      ∀ pfx ∈ new.routes, pfx ∉ (previous.getD {}).routes → put (.route pfx) ∈ cs := by
  have hadd : (diff previous new).addExitRoutes = true := by simp [diff, hold, hnew]
  rw [RouterDiff.operations, flatMap_append, hadd, if_pos rfl, flatMap_singleton]
  refine ⟨_, rfl, fun pfx hmem hnot => ?_⟩
  refine mem_flatMap.mpr ⟨.addRoute pfx, ?_, mem_singleton_self _⟩
  simp [diff, hmem, hnot]

namespace StatefulRouter

/-- A default route beside the exit routes is put twice, which fails. -/
theorem Kept.separate_of_performed (h : r.Kept) (hpending : r.pendingCleanup = [])
    (hperf : ∀ t, ∃ cell' noted, Performed (r.kernel.table t)
      (on slot t ((diff r.config new).operations.flatMap commands)) cell' noted) :
    new.Separate := by
  intro hexit pfx hpfx hmem
  have hx : ∀ family, (route pfx).slot ≠ .directBlock family := by simp [slot]
  have htable := h.table hpending hx
  have hforward : Forward (on slot (route pfx).slot
      ((diff r.config new).operations.flatMap commands)) := (forward_operations r.config new).on _
  obtain ⟨cell', noted, hp⟩ := hperf (route pfx).slot
  have htake : take (route pfx) ∉ (diff r.config new).operations.flatMap commands := by
    rw [take_mem_operations]
    simp [Gains, hmem, hexit]
  by_cases hthere : pfx ∈ (r.config.getD {}).routes ∨ (r.config.getD {}).exitNode = true
  · -- the route is there, and put once more
    have hitem : route pfx ∈ r.configItems := by
      refine mem_append_right _ (mem_items.mpr ?_)
      exact hthere.imp id fun hold => ⟨hold, hpfx⟩
    rw [htable.mpr hitem] at hp
    refine hp.put_notMem hforward (fun hmem => htake (mem_on.mp hmem).1) (mem_on.mpr ⟨?_, rfl⟩)
    rw [put_mem_operations]
    cases hold : (r.config.getD {}).exitNode with
    | true => exact .inl ⟨hmem, h.separate hold pfx hpfx⟩
    | false => exact .inr ⟨hold, hexit, hpfx⟩
  · obtain ⟨hroutes, hold⟩ := not_or.mp hthere
    obtain ⟨cs, hcs, hput⟩ := operations_of_exit (by simpa using hold) hexit
    rw [hcs, on_append] at hp hforward
    obtain ⟨hforward1, hforward2, -⟩ := forward_append.mp hforward
    obtain ⟨mid, _, _, hp1, hp2⟩ := hp.of_append
    have hmid := (hp1.eq_some_iff hforward1 (route pfx)).mpr
      (.inl (mem_on.mpr ⟨hput pfx hmem hroutes, rfl⟩))
    rw [hmid] at hp2
    refine hp2.put_notMem hforward2 ?_ (mem_on.mpr ⟨?_, rfl⟩)
    · simp [commands, mem_on]
    · simpa [commands, exitRoutes] using hpfx

theorem View.of_free (h : r.View l) {k : Kernel} {kept : List CommandSpec}
    (hfree : ∀ family, k.table (.directBlock family) = r.kernel.table (.directBlock family) ∧
      on slot (.directBlock family) kept = []) (config : Option RouterConfig) :
    View { r with kernel := k, pendingCleanup := r.pendingCleanup ++ kept, config } l := by
  refine ⟨(hfree .v4).1.trans h.v4, (hfree .v6).1.trans h.v6, h.recorded, ?_, ?_⟩
  · simpa only [on_append, (hfree .v4).2, append_nil] using h.pending4
  · simpa only [on_append, (hfree .v6).2, append_nil] using h.pending6

/-- A switch ends in the new configuration or back in the old one. -/
theorem Kept.apply (h : r.Kept) (hfatal : fails.Fatal) (hview : r.View l) (hpending : r.pendingCleanup = [])
    {outcome : Outcome} (hrun : r.apply fails (diff r.config new).operations = (outcome, r')) :
    (outcome = none → { r' with config := some new }.Kept ∧
        { r' with config := some new }.View l ∧ r'.pendingCleanup = []) ∧
      (outcome.isSome → r'.Kept ∧ r'.View l ∧ r'.config = r.config) := by
  obtain ⟨k, kept, hr, hcases, hfree⟩ := r.apply_spec hfatal
    (operations_invertible (diff r.config new)) (forward_operations r.config new)
  rw [hrun] at hr hcases
  dsimp only at hcases
  obtain rfl : r' = _ := hr
  have hblock := fun family => hfree (.directBlock family) (on_operations_nil (by simp) (by simp))
  refine ⟨fun hnone => ?_, fun hsome => ?_⟩
  · obtain ⟨-, rfl, hperf⟩ : _ ∧ _ ∧ _ := hcases.resolve_right (by simp [hnone])
    refine ⟨⟨fun t ht => ⟨k.table t, ?_, ?_⟩, ?_⟩, hview.of_free hblock _, by simp [hpending]⟩
    · rw [hpending]
      exact .nothing _
    · rintro x rfl
      obtain ⟨noted, hp⟩ := hperf x.slot
      exact h.switched hpending ht hp
    · exact h.separate_of_performed hpending fun t => ⟨_, hperf t⟩
  · obtain ⟨-, howed⟩ : _ ∧ _ := hcases.resolve_left fun hdone => by simp [hdone.1] at hsome
    refine ⟨⟨fun t ht => ⟨r.kernel.table t, ?_, ?_⟩, h.separate⟩, hview.of_free hblock _, rfl⟩
    · rw [hpending]
      exact howed t
    · rintro x rfl
      exact h.table hpending ht

/-- What `set` says of its outcome. -/
structure SetResult (config : RouterConfig) (r r' : StatefulRouter) (outcome : Outcome) : Prop where
  failed : outcome.isSome → r'.config = r.config
  done : outcome = none →
    ∃ n, config.normalized = .ok n ∧ r'.config = some n ∧ r'.pendingCleanup = []
  isUp : r'.isUp = r.isUp
  directBlocked : r'.directBlocked = r.directBlocked

theorem apply_same (r : StatefulRouter) (fails : Faults) (ops : List RouterOperation) :
    (r.apply fails ops).2.isUp = r.isUp ∧ (r.apply fails ops).2.directBlocked = r.directBlocked := by
  rw [apply]
  dsimp only
  split <;> exact ⟨rfl, rfl⟩

/-- Step: setting a configuration keeps kernel and record in agreement. -/
theorem Kept.set (h : r.Kept) (hview : r.View l) (hv : l.Valid) (hfatal : fails.Fatal)
    (config : RouterConfig) :
    ∃ l', (r.set fails config).2.View l' ∧ l.Retried l' ∧ (r.set fails config).2.Kept ∧
      SetResult config r (r.set fails config).2 (r.set fails config).1 := by
  obtain ⟨l', hview', hretried⟩ := hview.retry hv hfatal
  have hkept := h.retry hfatal
  have hpending : (r.retryPendingCleanup fails).1 = none → _ := retry_none
  have hconfig : (r.retryPendingCleanup fails).2.config = r.config := rfl
  have hup : (r.retryPendingCleanup fails).2.isUp = r.isUp := rfl
  have hblocked : (r.retryPendingCleanup fails).2.directBlocked = r.directBlocked := rfl
  rw [StatefulRouter.set]
  generalize r.retryPendingCleanup fails = result at hview' hkept hpending hconfig hup hblocked ⊢
  obtain ⟨_ | error, r1⟩ := result
  · dsimp only at hconfig hpending hkept hview' hup hblocked ⊢
    cases hn : config.normalized with
    | error pfx =>
      exact ⟨l', hview', hretried, hkept, ⟨fun _ => hconfig, by simp, hup, hblocked⟩⟩
    | ok n =>
      obtain ⟨hup2, hblocked2⟩ := r1.apply_same fails (diff r1.config n).operations
      have hup2 := hup2.trans hup
      have hblocked2 := hblocked2.trans hblocked
      dsimp only
      generalize hrun : r1.apply fails (diff r1.config n).operations = result at hup2 hblocked2 ⊢
      obtain ⟨outcome, r2⟩ := result
      obtain ⟨hdone, hfailed⟩ := hkept.apply hfatal hview' (hpending rfl) hrun
      cases outcome
      · obtain ⟨hkept2, hview2, hpending2⟩ := hdone rfl
        exact ⟨l', hview2, hretried, hkept2,
          ⟨by simp, fun _ => ⟨n, hn, rfl, hpending2⟩, hup2, hblocked2⟩⟩
      · obtain ⟨hkept2, hview2, hconfig2⟩ := hfailed rfl
        exact ⟨l', hview2, hretried, hkept2,
          ⟨fun _ => hconfig2.trans hconfig, by simp, hup2, hblocked2⟩⟩
  · exact ⟨l', hview', hretried, hkept, ⟨fun _ => hconfig, by simp, hup, hblocked⟩⟩

theorem mem_expected_block (family : Family) :
    .directBlock family ∈ r.expected ↔ r.directBlocked = true := by
  have hconfig : directBlock family ∉ r.configItems := by
    rw [configItems, mem_append, mem_items]
    split <;> simp [upItems, families]
  rw [expected, mem_append, or_iff_right hconfig]
  cases family <;> simp [families]

theorem mem_expected_rest (hx : ∀ family, x.slot ≠ .directBlock family) :
    x ∈ r.expected ↔ x ∈ r.configItems := by
  have hne : ∀ family, x ≠ .directBlock family := fun family h => hx family (by rw [h]; rfl)
  rw [expected, mem_append, or_iff_left]
  split <;> simp [families, hne]

/-- What is in the kernel is configured, blocked or owed. -/
theorem Kept.accounted (h : r.Kept) (hview : r.View l) (hb : l.Balanced) : r.Accounted := by
  have hcell : ∀ t, r.settledTable t =
      execCell (r.kernel.table t) (on slot t r.pendingCleanup) := foldl_perform _ _
  have h4 : r.settledTable (.directBlock .v4) = some block4 ↔ l.v4 = true ∧ l.owes = false := by
    rw [hcell, hview.v4, hview.pending4, Ledger.pending, hb.puts]
    cases l.v4 <;> cases l.owes <;> simp [cell, execCell]
  have h6 : r.settledTable (.directBlock .v6) = some block6 ↔ l.v6 = true := by
    rw [hcell, hview.v6, hview.pending6]
    cases l.v6 <;> simp [cell, execCell]
  intro x
  by_cases hx : ∀ family, x.slot ≠ .directBlock family
  · obtain ⟨owner, howed, howner⟩ := h.slots x.slot hx
    rw [mem_expected_rest hx, hcell, howed.execCell]
    exact howner x rfl
  · obtain ⟨family, rfl⟩ : ∃ family, x = .directBlock family := by cases x <;> simp [slot] at hx ⊢
    rw [mem_expected_block, hview.recorded]
    cases family with
    | v4 => exact h4.trans hb.v4
    | v6 => exact h6.trans (by rw [hb.v6])

/-- What the failures of a call may be: none that the router ignores, and none that keeps a
recorded block from being put back. -/
def Settles (r : StatefulRouter) (fails : Faults) (c : Call) : Prop :=
  fails.Fatal ∧ (r.directBlocked = true →
    match c with
    | .set _ => True
    | .blockDirect => fails.Spares (put block4)
    | .unblockDirect => fails.Reversible)

theorem Kept.call (h : r.Kept) (hview : r.View l) (hv : l.Valid) (hfatal : fails.Fatal) (c : Call) :
    (r.call fails c).2.Kept ∧ ∃ l', (r.call fails c).2.View l' ∧ l'.Valid ∧
      (l.Balanced → r.Settles fails c → l'.Balanced) := by
  cases c with
  | set config =>
    obtain ⟨l', hview', hretried, hkept, -⟩ := h.set hview hv hfatal config
    exact ⟨hkept, l', hview', hretried.valid hv, fun hb _ => hretried.balanced hv hb⟩
  | blockDirect =>
    obtain ⟨l', hview', hv', hrest, hbal⟩ := hview.blockDirect hfatal hv
    refine ⟨h.of_sameRest hrest, l', hview', hv', fun hb hsettles => hbal (.balanced hb fun hrec => ?_)⟩
    exact hsettles.2 (hview.recorded.trans hrec)
  | unblockDirect =>
    obtain ⟨l', hview', hv', hrest, hbal⟩ := hview.unblockDirect hfatal hv
    refine ⟨h.of_sameRest hrest, l', hview', hv', fun hb hsettles => hbal hb fun hrec => ?_⟩
    exact hsettles.2 (hview.recorded.trans hrec)

theorem table_new (isUp : Bool) (x : Item) :
    (StatefulRouter.new isUp).kernel.table x.slot = some x ↔
      x ∈ (StatefulRouter.new isUp).configItems := by
  cases isUp with
  | false => simp [new, configItems, RouterConfig.items]
  | true =>
    cases x with
    | policyRule family index =>
      revert index
      cases family <;> decide
    | linkUp => decide
    | _ => simp [new, configItems, RouterConfig.items, upItems, families, perform, slot]

theorem new_kept (isUp : Bool) : (StatefulRouter.new isUp).Kept := by
  refine ⟨fun t _ => ⟨(new isUp).kernel.table t, .nothing _, ?_⟩, ?_⟩
  · rintro x rfl
    exact table_new isUp x
  · simp [RouterConfig.Separate, new]

theorem new_view (isUp : Bool) :
    ∃ l, (StatefulRouter.new isUp).View l ∧ l.Valid ∧ l.Balanced := by
  refine ⟨⟨false, false, false, 0, false⟩, ⟨?_, ?_, rfl, rfl, rfl⟩, ⟨by simp, by simp⟩, rfl, by simp, rfl⟩
  all_goals cases isUp <;> decide

/-- Something holds of every call of a run, in the state that the call finds. -/
def Throughout (P : StatefulRouter → Faults → Call → Prop) :
    StatefulRouter → List (Faults × Call) → Prop
  | _, [] => True
  | r, (fails, c) :: run => P r fails c ∧ Throughout P (r.call fails c).2 run

/-- A call leaves everything accounted for; `set` takes over its configuration, or nothing. -/
def Atomic (r : StatefulRouter) (fails : Faults) (c : Call) : Prop :=
  (r.call fails c).2.Accounted ∧
    match c with
    | .set config =>
      ((r.call fails c).1.isSome → (r.call fails c).2.config = r.config) ∧
        ((r.call fails c).1 = none → ∃ n, config.normalized = .ok n ∧
          ∀ x, (r.call fails c).2.kernel.table x.slot = some x ↔
            x ∈ { r with config := some n }.expected)
    | _ => True

theorem Kept.atomic (h : r.Kept) (hview : r.View l) (hv : l.Valid) (hfatal : fails.Fatal) {c : Call}
    (hacc : (r.call fails c).2.Accounted) : r.Atomic fails c := by
  refine ⟨hacc, ?_⟩
  cases c with
  | set config =>
    obtain ⟨l', -, -, -, hset⟩ := h.set hview hv hfatal config
    refine ⟨hset.failed, fun hnone => ?_⟩
    obtain ⟨n, hn, hconfig, hpending⟩ := hset.done hnone
    refine ⟨n, hn, fun x => ?_⟩
    have hx := hacc x
    rw [StatefulRouter.call, settledTable, hpending, foldl_nil] at hx
    rw [StatefulRouter.call]
    simpa only [expected, configItems, hconfig, hset.isUp, hset.directBlocked] using hx
  | _ => trivial

theorem calls_kept (isUp : Bool) {run : List (Faults × Call)} (hfatal : ∀ step ∈ run, step.1.Fatal) :
    ((StatefulRouter.new isUp).calls run).Kept ∧
      ∃ l, ((StatefulRouter.new isUp).calls run).View l ∧ l.Valid := by
  obtain ⟨l, hview, hv, -⟩ := new_view isUp
  have hkept := new_kept isUp
  generalize StatefulRouter.new isUp = r at hkept hview ⊢
  induction run generalizing r l with
  | nil => exact ⟨hkept, l, hview, hv⟩
  | cons step run ih =>
    obtain ⟨hstep, hrest⟩ := forall_mem_cons.mp hfatal
    obtain ⟨hkept', l', hview', hv', -⟩ := hkept.call hview hv hstep step.2
    exact ih hrest l' hv' _ hkept' hview'

/-- All calls of a run are atomic if all of them settle. -/
theorem calls_atomic (isUp : Bool) (run : List (Faults × Call))
    (hsettles : Throughout Settles (.new isUp) run) : Throughout Atomic (.new isUp) run := by
  obtain ⟨l, hview, hv, hb⟩ := new_view isUp
  have hkept := new_kept isUp
  generalize StatefulRouter.new isUp = r at hkept hview hsettles ⊢
  induction run generalizing r l with
  | nil => trivial
  | cons step run ih =>
    obtain ⟨fails, c⟩ := step
    obtain ⟨hstep, hrest⟩ := hsettles
    obtain ⟨hkept', l', hview', hv', hbal⟩ := hkept.call hview hv hstep.1 c
    have hb' := hbal hb hstep
    exact ⟨hkept.atomic hview hv hstep.1 (hkept'.accounted hview' hb'),
      ih l' hv' hb' _ hkept' hview' hrest⟩

end StatefulRouter

/-- The commands that are picked fail, with an error that is not ignored. -/
def Faults.pick (P : ℕ → CommandSpec → Bool) (check : ℕ → Bool) : Faults :=
  ⟨fun n c => if P n c then some .other else none, check⟩

theorem Faults.pick_fatal (P : ℕ → CommandSpec → Bool) (check : ℕ → Bool) : (pick P check).Fatal := by
  intro n spec failure hfailure
  obtain ⟨-, rfl⟩ : P n spec = true ∧ .other = failure := by simpa [pick] using hfailure
  rfl

/-- Commands fail only as the kernel lets them. -/
def quiet : Faults := .pick (fun _ _ => false) fun _ => false

namespace StatefulRouter

/-- A half-installed block, healed by a `set`; a block, an unblock that cannot be verified and is
taken back, one that fails half-way, and a `set` that fails. -/
theorem calls_atomic_faulty :
    let addrs : RouterConfig := { localAddrs := [.v4 0x64400001#32] }
    let run : List (Faults × Call) :=
      [(.pick (fun _ c => c = put block6 ∨ c = take block4) fun _ => false, .blockDirect),
        (quiet, .set addrs), (quiet, .blockDirect),
        (.pick (fun _ _ => false) fun n => n = 12, .unblockDirect),
        (.pick (fun _ c => c = take block6) fun _ => false, .unblockDirect),
        (.pick (fun _ c => c = take (.addr (.v4 0x64400001#32))) fun _ => false, .set {})]
    Throughout Settles (.new true) run ∧ Throughout Atomic (.new true) run := by
  intro addrs run
  have hsettles : Throughout Settles (.new true) run := by
    refine ⟨⟨Faults.pick_fatal _ _, fun h => absurd h (by decide +kernel)⟩,
      ⟨Faults.pick_fatal _ _, fun _ => trivial⟩,
      ⟨Faults.pick_fatal _ _, fun h => absurd h (by decide +kernel)⟩,
      ⟨Faults.pick_fatal _ _, fun _ => ⟨fun _ => rfl, .inr ⟨fun _ => rfl, fun _ => rfl⟩⟩⟩,
      ⟨Faults.pick_fatal _ _, fun _ => ⟨fun _ => rfl, .inl fun _ => rfl⟩⟩,
      ⟨Faults.pick_fatal _ _, fun _ => trivial⟩, trivial⟩
  exact ⟨hsettles, calls_atomic true run hsettles⟩

/-- A block is removed half-way and comes back half-way, is removed after all, and the IPv4 rule
still pending is put by the next `set`. -/
theorem orphaned_rule :
    let half : Faults := .pick (fun n _ => n = 5 || n = 6 || n = 8) fun _ => false
    let r1 := (StatefulRouter.new true).calls [(quiet, .blockDirect), (half, .unblockDirect)]
    let r := (r1.unblockDirect quiet).2
    (r.set quiet {}).1.isNone = true ∧ (r.set quiet {}).2.directBlocked = false ∧
      (r.set quiet {}).2.kernel.table (.directBlock .v4) = some block4 ∧
      ¬r.Atomic quiet (.set {}) ∧ ¬r1.Atomic quiet .unblockDirect := by
  refine ⟨by decide +kernel, by decide +kernel, by decide +kernel, fun h => ?_, fun h => ?_⟩
  all_goals exact absurd ((h.1 block4).mp (by decide +kernel)) (by decide +kernel)

end StatefulRouter

end Rustscale.Router
