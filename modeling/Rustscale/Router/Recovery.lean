import Rustscale.Router.Atomicity

/-! Whether the block can be installed, and everything removed, once commands fail only as the
kernel lets them. -/
namespace Rustscale.Router
open Tsaddr Undo List Item RouterOperation

variable {r : StatefulRouter} {l : Ledger} {k : Kernel} {x : Item}

theorem quiet_fatal : quiet.Fatal := Faults.pick_fatal _ _

theorem quiet_spares (spec : CommandSpec) : quiet.Spares spec := fun _ => rfl

theorem Kernel.run_quiet_put (k : Kernel) (x : Item) (h : k.table x.slot = none) :
    k.run quiet (put x) = (none, ⟨perform slot k.table (put x), k.issued + 1⟩) := by
  simp [Kernel.run, quiet, Faults.pick, h]

theorem runAll_quiet (cs : List CommandSpec) (k : Kernel) (t : Slot) :
    sweep (k.table t) (on slot t cs) =
      ((runAll quiet cs k).1.table t, on slot t (runAll quiet cs k).2.1) := by
  refine runAll_slot (P := fun now cs later kept => sweep now cs = (later, kept)) quiet_fatal cs k
    (fun _ => rfl) (fun h hrest => ?_) (fun h hrest => ?_) t
  · rw [sweep, if_neg h, hrest]
  · rw [sweep, if_pos (h.resolve_left (not_not_intro (quiet_spares _))), hrest]

theorem runAll_quiet_nil {cs : List CommandSpec}
    (h : ∀ t, (sweep (k.table t) (on slot t cs)).2 = []) :
    (runAll quiet cs k).2.1 = [] ∧ (runAll quiet cs k).2.2 = [] := by
  have hkept : (runAll quiet cs k).2.1 = [] := by
    refine eq_nil_iff_forall_not_mem.mpr fun c hc => ?_
    have hslot := h c.item.slot
    rw [runAll_quiet] at hslot
    exact eq_nil_iff_forall_not_mem.mp hslot c (mem_on.mpr ⟨hc, rfl⟩)
  have hlength := runAll_errors cs k quiet
  rw [hkept] at hlength
  exact ⟨hkept, length_eq_zero_iff.mp hlength⟩

namespace StatefulRouter

theorem View.apply_quiet_enable (h : r.View l) (h4 : l.v4 = false) (h6 : l.v6 = false) :
    ∃ r', r.apply quiet [.enableDirectBlock] = (none, r') := by
  have hfree4 : r.kernel.table block4.slot = none := by rw [slot, h.v4, h4]; rfl
  have hfree6 : perform slot r.kernel.table (put block4) block6.slot = none := by
    rw [perform_of_ne (by simp [slot]), slot, h.v6, h6]; rfl
  have h1 := r.kernel.run_quiet_put block4 hfree4
  have h2 := Kernel.run_quiet_put
    ⟨perform slot r.kernel.table (put block4), r.kernel.issued + 1⟩ block6 hfree6
  simp [apply, commands, families, runForward, inverse, h1, h2]

theorem View.verify_quiet (h : r.View l) {expected : Bool} (h4 : l.v4 = expected)
    (h6 : l.v6 = expected) :
    ∃ r', r.verifyDirectBlock quiet expected = (none, r') ∧ r'.View l ∧ SameRest r r' := by
  obtain ⟨hview, hsame, -, hnone⟩ := h.verify quiet expected
  exact ⟨_, Prod.ext (hnone (fun _ => rfl) h4 h6) rfl, hview, hsame⟩

theorem View.disable_quiet (h : r.View l) (howes : l.owes = false) :
    ∃ r', r.apply quiet [.disableDirectBlock] = (none, r') ∧
      r'.View { l with v4 := false, v6 := false } ∧ SameRest r r' := by
  rcases hrun : r.apply quiet [.disableDirectBlock] with ⟨outcome, r1⟩
  obtain ⟨l1, hview, hdisabled, hrest⟩ := h.disable howes quiet_fatal hrun
  cases outcome with
  | none =>
    cases hdisabled with
    | done => exact ⟨r1, rfl, hview, hrest⟩
  | some error =>
    cases hdisabled with
    | failed hfail => exact absurd ⟨quiet_spares _, quiet_spares _⟩ hfail
    | half _ hput => exact absurd (quiet_spares _) hput

def blockedLedger : Ledger := ⟨true, true, true, 0, false⟩

section
variable (h : r.View l) (hv : l.Valid)
include h hv

theorem View.installBlock_quiet (h4 : l.v4 = false) (h6 : l.v6 = false) :
    ∃ r', r.installBlock quiet = (none, r') ∧ r'.View blockedLedger ∧ SameRest r r' := by
  obtain ⟨r1, hrun⟩ := h.apply_quiet_enable h4 h6
  obtain ⟨l1, hview, henabled, hrest⟩ := h.enable hv quiet_fatal hrun
  have howes := hv.owes_of_v4 h4
  rw [StatefulRouter.installBlock, hrun]
  cases henabled with
  | done =>
    obtain ⟨r2, hrun, hview2, hsame⟩ := (hview.record true).verify_quiet rfl rfl
    have hforget := hview2.forget.1
    rw [howes] at hforget
    exact ⟨_, by simp only [hrun], hforget,
      ((hrest.trans (.record r1 true)).trans hsame).trans hview2.forget.2⟩

/-- With no command failing, the block ends up in place and recorded. -/
theorem View.blockDirect_quiet (hl : l.recorded = true ∨ l.v4 = false) :
    ∃ r', r.blockDirect quiet = (none, r') ∧ r'.View blockedLedger ∧ SameRest r r' := by
  have hrecorded := h.recorded
  cases hrec : l.recorded with
  | false =>
    rw [hrec] at hrecorded hl
    simp only [StatefulRouter.blockDirect, hrecorded, Bool.false_eq_true, if_false]
    exact h.installBlock_quiet hv (hl.resolve_left (by simp)) (hv.v6 hrec)
  | true =>
    rw [hrec] at hrecorded
    have howes := hv.owes_of_recorded hrec
    obtain ⟨hview, hsame, hboth, -⟩ := h.verify quiet true
    simp only [StatefulRouter.blockDirect, hrecorded, if_true]
    generalize r.verifyDirectBlock quiet true = result at hview hsame hboth ⊢
    obtain ⟨_ | error, r1⟩ := result
    · obtain ⟨h4, h6⟩ := hboth rfl
      have hforget := hview.forget.1
      rw [h4, h6, hrec, howes] at hforget
      exact ⟨_, rfl, hforget, hsame.trans hview.forget.2⟩
    · obtain ⟨r2, hrun, hview2, hrest⟩ := hview.disable_quiet howes
      simp only [hrun]
      obtain ⟨r3, hrun, hview3, hrest3⟩ := (hview2.record false).installBlock_quiet
        (.of_owes howes fun _ => rfl) rfl rfl
      exact ⟨r3, hrun, hview3, ((hsame.trans hrest).trans (.record r2 false)).trans hrest3⟩

/-- A rule that is there without a record is a duplicate, and nothing removes it. -/
theorem View.blockDirect_fails (hrec : l.recorded = false) (h4 : l.v4 = true) :
    (r.blockDirect quiet).1 ≠ none := by
  have hrecorded := h.recorded
  rw [hrec] at hrecorded
  simp only [StatefulRouter.blockDirect, hrecorded, Bool.false_eq_true, if_false,
    StatefulRouter.installBlock]
  rcases hrun : r.apply quiet [.enableDirectBlock] with ⟨_ | error, r1⟩
  · obtain ⟨l1, -, henabled, -⟩ := h.enable hv quiet_fatal hrun
    cases henabled with
    | done h4' _ => exact absurd h4 (by simp [h4'])
  · simp

end

theorem View.unblockDirect_quiet (h : r.View blockedLedger) :
    ∃ r', r.unblockDirect quiet = (none, r') ∧
      (∀ family, r'.kernel.table (.directBlock family) = none) ∧ SameRest r r' := by
  have hrecorded : r.directBlocked = true := h.recorded
  obtain ⟨r1, hrun, hview, hrest⟩ := h.disable_quiet rfl
  simp only [StatefulRouter.unblockDirect, hrecorded, Bool.not_true, Bool.false_eq_true, if_false,
    StatefulRouter.removeBlock, hrun]
  obtain ⟨r2, hrun, hview2, hsame⟩ := hview.verify_quiet rfl rfl
  refine ⟨_, by simp only [hrun], fun family => ?_, (hrest.trans hsame).trans (.record r2 false)⟩
  cases family with
  | v4 => exact hview2.v4
  | v6 => exact hview2.v6

theorem mem_teardown (hx : x ∈ r.configItems) :
    take x ∈ (diff r.config {}).teardownOperations.flatMap commands := by
  rw [configItems, mem_append, mem_items] at hx
  rw [RouterDiff.teardownOperations, flatMap_append, mem_append]
  rcases hx with hup | hconfig
  · right
    split at hup
    · have hdown : ∀ x ∈ upItems, take x ∈ commands .down := by decide
      simpa using hdown x hup
    · cases hup
  · left
    cases x with
    | route pfx =>
      cases hexit : (r.config.getD {}).exitNode <;> simp [diff, commands, exitRoutes, hexit] at hconfig ⊢
      · exact hconfig
      · tauto
    | addr ip | throwRoute pfx => simp_all [diff, commands]
    | _ => cases hconfig

theorem teardown_takes (config : Option RouterConfig) :
    ∀ c ∈ (diff config {}).teardownOperations.flatMap commands,
      c.puts = false ∧ ∀ family, c.item.slot ≠ .directBlock family := by
  intro c hc
  obtain ⟨op, hop, hc⟩ := mem_flatMap.mp hc
  simp only [RouterDiff.teardownOperations, mem_append, mem_map] at hop
  rcases hop with (((hop | ⟨p, -, rfl⟩) | ⟨p, -, rfl⟩) | ⟨p, -, rfl⟩) | hop
  · split at hop
    · obtain rfl := mem_singleton.mp hop
      rcases mem_pair.mp hc with rfl | rfl <;> simp [slot]
    · cases hop
  · obtain rfl := mem_singleton.mp hc
    simp [slot]
  · obtain rfl := mem_singleton.mp hc
    simp [slot]
  · obtain rfl := mem_singleton.mp hc
    simp [slot]
  · obtain rfl := mem_singleton.mp hop
    have hdown : ∀ c ∈ commands .down, c.puts = false ∧ ∀ family, c.item.slot ≠ .directBlock family := by
      simp [commands, policyRules, families, slot]
    exact hdown c hc

section
variable (h : r.Kept) (hview : r.View blockedLedger)
include h hview

theorem Kept.retry_quiet :
    ∃ r', r.retryPendingCleanup quiet = (none, r') ∧ r'.View blockedLedger := by
  have hsweep : ∀ t, (sweep (r.kernel.table t) (on slot t r.pendingCleanup)).2 = [] := by
    intro t
    by_cases ht : ∀ family, t ≠ .directBlock family
    · obtain ⟨owner, howed, -⟩ := h.slots t ht
      rw [howed.sweep]
    · obtain ⟨family, rfl⟩ : ∃ family, t = .directBlock family := by simpa using ht
      cases family with
      | v4 =>
        rw [hview.pending4]
        rfl
      | v6 =>
        rw [hview.pending6]
        rfl
  refine ⟨_, Prod.ext (congrArg head? (runAll_quiet_nil hsweep).2) rfl, ?_⟩
  obtain ⟨l', hview', hretried⟩ := hview.retry ⟨by simp [blockedLedger], by simp [blockedLedger]⟩ quiet_fatal
  cases hretried with
  | same => exact hview'
  | put h4 => cases h4
  | take howes => cases howes

/-- With no command failing and nothing owed, only the block survives a teardown. -/
theorem Kept.teardown_quiet (hpending : r.pendingCleanup = []) :
    ∃ r', r.applyTeardown quiet (diff r.config {}).teardownOperations = (none, r') ∧
      r'.View blockedLedger ∧
      ∀ x : Item, (∀ family, x.slot ≠ .directBlock family) → r'.kernel.table x.slot ≠ some x := by
  have hcs := teardown_takes r.config
  have hitems := fun x => mem_teardown (r := r) (x := x)
  rw [applyTeardown]
  generalize (diff r.config {}).teardownOperations.flatMap commands = cs at hcs hitems ⊢
  have htakes : ∀ t, ∀ c ∈ on slot t cs, c.puts = false := fun t c hc =>
    (hcs c (mem_on.mp hc).1).1
  have hblock : ∀ family, (runAll quiet cs r.kernel).1.table (.directBlock family) =
      r.kernel.table (.directBlock family) := by
    intro family
    have hnil : on slot (.directBlock family) cs = [] :=
      filter_eq_nil_iff.mpr fun c hc => by simpa using (hcs c hc).2 family
    have hrun := runAll_attempted quiet_fatal cs r.kernel (.directBlock family)
    rw [hnil] at hrun
    exact hrun.of_nil.1
  refine ⟨_, Prod.ext ?_ rfl, ⟨?_, ?_, hview.recorded, hview.pending4, hview.pending6⟩,
    fun x hx hthere => ?_⟩
  · exact congrArg head? (runAll_quiet_nil fun t => (sweep_takes (htakes t) _).1).2
  · exact (hblock .v4).trans hview.v4
  · exact (hblock .v6).trans hview.v6
  · have hsweep := congrArg Prod.fst (runAll_quiet cs r.kernel x.slot)
    obtain ⟨hbefore, htake⟩ :=
      ((sweep_takes (htakes x.slot) _).2 x).mp (hsweep.trans hthere)
    exact htake (mem_on.mpr ⟨hitems x ((h.table hpending hx).mp hbefore), rfl⟩)

/-- With no command failing, closing removes every item the router owns. -/
theorem Kept.close_quiet :
    (r.close quiet).1 = none ∧ ∀ x, (r.close quiet).2.kernel.table x.slot ≠ some x := by
  have hrecorded : r.directBlocked = true := hview.recorded
  obtain ⟨r1, hrun1, hview1, hrest1⟩ := hview.blockDirect_quiet
    ⟨by simp [blockedLedger], by simp [blockedLedger]⟩ (.inl rfl)
  have hkept1 := h.of_sameRest hrest1
  obtain ⟨r2, hrun2, hview2⟩ := hkept1.retry_quiet hview1
  have hkept2 := hkept1.retry quiet_fatal
  have hpending := retry_none (congrArg Prod.fst hrun2)
  rw [hrun2] at hkept2 hpending
  obtain ⟨r3, hrun3, hview3, hgone⟩ := hkept2.teardown_quiet hview2 hpending
  have hview4 : View { r3 with config := none, isUp := false } blockedLedger :=
    ⟨hview3.v4, hview3.v6, hview3.recorded, hview3.pending4, hview3.pending6⟩
  obtain ⟨r4, hrun4, hfree, hrest⟩ := hview4.unblockDirect_quiet
  have hclose : r.close quiet = (none, r4) := by
    simp [close, hrecorded, hrun1, hrun2, hrun3, hrun4]
  rw [hclose]
  refine ⟨rfl, fun x => ?_⟩
  by_cases hx : ∀ family, x.slot ≠ .directBlock family
  · exact fun hthere => hgone x hx ((hrest.table x.slot hx).symm.trans hthere)
  · obtain ⟨family, hfamily⟩ : ∃ family, x.slot = .directBlock family := by simpa using hx
    rw [hfamily]
    exact fun hthere => absurd ((hfree family).symm.trans hthere) (by simp)

end

/-- With commands that fail only as the kernel lets them, the block is installed, and closing leaves
nothing behind. -/
def Recovers (r : StatefulRouter) : Prop :=
  (r.blockDirect quiet).1 = none ∧
    (∀ family, (r.blockDirect quiet).2.kernel.table (.directBlock family) = some (.directBlock family)) ∧
    ((r.blockDirect quiet).2.close quiet).1 = none ∧
    ∀ x, ((r.blockDirect quiet).2.close quiet).2.kernel.table x.slot ≠ some x

/-- After failures that the router does not ignore, it recovers unless a rule for IPv4 is there that
is not recorded. -/
theorem calls_recovers_iff (isUp : Bool) (run : List (Faults × Call))
    (hfatal : ∀ step ∈ run, step.1.Fatal) :
    ((new isUp).calls run).Recovers ↔ ((new isUp).calls run).directBlocked = true ∨
      ((new isUp).calls run).kernel.table (.directBlock .v4) = none := by
  obtain ⟨hkept, l, hview, hv⟩ := calls_kept isUp hfatal
  generalize (new isUp).calls run = r at hkept hview ⊢
  have hfree : r.kernel.table (.directBlock .v4) = none ↔ l.v4 = false := by
    rw [hview.v4]
    cases l.v4 <;> simp [cell]
  rw [hview.recorded, hfree]
  constructor
  · intro h
    by_contra hl
    obtain ⟨hrec, h4⟩ := not_or.mp hl
    exact hview.blockDirect_fails hv (by simpa using hrec) (by simpa using h4) h.1
  · intro hl
    obtain ⟨r', hrun, hblocked, hrest⟩ := hview.blockDirect_quiet hv hl
    obtain ⟨hclose, hempty⟩ := (hkept.of_sameRest hrest).close_quiet hblocked
    rw [StatefulRouter.Recovers, hrun]
    refine ⟨rfl, fun family => ?_, hclose, hempty⟩
    cases family with
    | v4 => exact hblocked.v4
    | v6 => exact hblocked.v6

/-- A half-installed block, as below, that a `set` has healed. -/
theorem calls_recovers_iff_healed :
    ((new true).calls [(.pick (fun n _ => n = 1 || n = 2) fun _ => false, .blockDirect),
      (quiet, .set { localAddrs := [.v4 0x64400001#32] })]).Recovers := by
  refine (calls_recovers_iff true _ ?_).mpr (.inr (by decide +kernel))
  simp [quiet, Faults.pick_fatal]

/-- The IPv4 rule is installed, the IPv6 rule fails, and so does the removal of the first. -/
theorem halfBlock_not_recovers :
    ¬((new true).calls
      [(.pick (fun n _ => n = 1 || n = 2) fun _ => false, .blockDirect)]).Recovers := by
  intro h
  exact absurd (congrArg Option.isNone h.1) (by decide +kernel)

end StatefulRouter

end Rustscale.Router
