import Rustscale.Router.Ledger

/-! What installing and removing the emergency block does to its ledger. -/
namespace Rustscale.Router
open Tsaddr Undo List Ledger

variable {fails : Faults} {r : StatefulRouter} {l : Ledger}

theorem StatefulRouter.View.record (h : r.View l) (blocked : Bool) :
    { r with directBlocked := blocked }.View { l with recorded := blocked } :=
  ⟨h.v4, h.v6, rfl, h.pending4, h.pending6⟩

theorem SameRest.record (r : StatefulRouter) (blocked : Bool) :
    SameRest r { r with directBlocked := blocked } := ⟨fun _ _ => rfl, fun _ _ => rfl, rfl, rfl⟩

/-- Without failing checks the verification succeeds exactly if the rules are as expected. -/
theorem StatefulRouter.verifyFamilies_spec (fails : Faults) (expected : Bool) (fs : List Family)
    (k : Kernel) :
    let result := verifyFamilies fails expected fs k
    result.2.table = k.table ∧
      (result.1 = none → ∀ family ∈ fs, (k.table (.directBlock family)).isSome = expected) ∧
      ((∀ n, fails.check n = false) →
        (∀ family ∈ fs, (k.table (.directBlock family)).isSome = expected) → result.1 = none) := by
  induction fs generalizing k with
  | nil => simp [verifyFamilies]
  | cons family fs ih =>
    obtain ⟨htable, hnone, hcheck⟩ := ih ⟨k.table, k.issued + 1⟩
    simp only [verifyFamilies, forall_mem_cons]
    split
    · next hfails => exact ⟨rfl, by simp, fun h => absurd hfails (by simp [h])⟩
    · split
      · next hfamily => exact ⟨htable, fun h => ⟨hfamily, hnone h⟩, fun h hrest => hcheck h hrest.2⟩
      · next hfamily => exact ⟨rfl, by simp, fun _ hrest => absurd hrest.1 hfamily⟩

/-- Verifying changes nothing, and success is the truth. -/
theorem StatefulRouter.View.verify (h : r.View l) (fails : Faults) (expected : Bool) :
    (r.verifyDirectBlock fails expected).2.View l ∧
      SameRest r (r.verifyDirectBlock fails expected).2 ∧
      ((r.verifyDirectBlock fails expected).1 = none → l.v4 = expected ∧ l.v6 = expected) ∧
      ((∀ n, fails.check n = false) → l.v4 = expected → l.v6 = expected →
        (r.verifyDirectBlock fails expected).1 = none) := by
  obtain ⟨htable, hnone, hcheck⟩ := verifyFamilies_spec fails expected families r.kernel
  have hfamilies : (∀ family ∈ families, (r.kernel.table (.directBlock family)).isSome = expected) ↔
      l.v4 = expected ∧ l.v6 = expected := by
    simp [families, h.v4, h.v6, cell, apply_ite]
  rw [hfamilies] at hnone hcheck
  refine ⟨⟨?_, ?_, h.recorded, h.pending4, h.pending6⟩, ⟨fun t _ => ?_, fun _ _ => rfl, rfl, rfl⟩,
    hnone, fun h h4 h6 => hcheck h ⟨h4, h6⟩⟩
  · exact (congrFun htable _).trans h.v4
  · exact (congrFun htable _).trans h.v6
  · exact congrFun htable t

/-- The commands owed that enabling the block supersedes are forgotten. -/
theorem StatefulRouter.View.forget (h : r.View l) :
    (r.forgetSupersededCleanup (commands .enableDirectBlock)).View { l with puts := 0 } ∧
      SameRest r (r.forgetSupersededCleanup (commands .enableDirectBlock)) := by
  have hcomm : ∀ t, on Item.slot t (r.forgetSupersededCleanup (commands .enableDirectBlock)).pendingCleanup
      = (on Item.slot t r.pendingCleanup).filter (· ∉ commands .enableDirectBlock) := fun t => by
    rw [forgetSupersededCleanup, on, on, filter_filter, filter_filter]
    exact filter_congr fun c _ => Bool.and_comm ..
  refine ⟨⟨h.v4, h.v6, h.recorded, ?_, ?_⟩, ⟨fun _ _ => rfl, fun t ht => ?_, rfl, rfl⟩⟩
  · rw [hcomm, h.pending4, pending, filter_append]
    cases l.owes <;> simp [commands, families, pending]
  · rw [hcomm, h.pending6]
    rfl
  · rw [hcomm, filter_eq_self]
    intro c hc
    have hslot := (mem_on.mp hc).2
    have hne : ∀ family, c ≠ put (.directBlock family) := by
      rintro family rfl
      exact ht family hslot.symm
    simp [commands, families, hne]

/-- What an attempt to install the block leads to. -/
inductive Ledger.Installed (l : Ledger) : Ledger → Prop
  | done (h4 : l.v4 = false) {puts : ℕ} (hputs : puts ≤ l.puts) :
      Installed l { l with v4 := true, v6 := true, recorded := true, puts }
  | failed : Installed l l
  | half (h4 : l.v4 = false) : Installed l { l with v4 := true, owes := true }

section
variable {l' : Ledger} (h : l.Installed l') (hv : l.Valid) (hrec : l.recorded = false)
include h hv hrec

theorem Ledger.Installed.valid : l'.Valid := by
  cases h with
  | done h4 _ => exact .of_owes (hv.owes_of_v4 h4) (by simp)
  | failed => exact hv
  | half h4 => exact ⟨fun _ => ⟨rfl, hrec⟩, hv.v6⟩

theorem Ledger.Installed.balanced (hb : l.Balanced) : l'.Balanced := by
  cases h with
  | done h4 hputs => exact ⟨by simpa [hb.puts] using hputs, by simp [hv.owes_of_v4 h4], rfl⟩
  | failed => exact hb
  | half => exact ⟨hb.puts, by simp [hrec], hb.v6⟩

end

/-- What a call of `block_direct` may find: a block as it is recorded, which can be put back, or a
recorded block that is gone, and nothing in the way of removing it again. -/
inductive Ledger.Ready (fails : Faults) (l : Ledger) : Prop
  | balanced (h : l.Balanced) (hput : l.recorded = true → fails.Spares (put block4))
  | gone (h4 : l.v4 = false) (h6 : l.v6 = false) (hputs : l.puts = 0)
      (htakes : fails.Spares (take block4) ∧ fails.Spares (take block6))

theorem Ledger.Ready.puts (h : l.Ready fails) : l.puts = 0 := by
  cases h with
  | balanced h => exact h.puts
  | gone _ _ hputs => exact hputs

theorem Ledger.Ready.of_unrecorded (h : l.Ready fails) (hrec : l.recorded = false) :
    l.Balanced := by
  cases h with
  | balanced h => exact h
  | gone h4 h6 hputs => exact ⟨hputs, by simp [h4, hrec], h6.trans hrec.symm⟩

/-- A removal can be taken back: the IPv4 rule can be put, and no removal fails beside a check. -/
def Faults.Reversible (fails : Faults) : Prop :=
  fails.Spares (put block4) ∧ ((∀ n, fails.check n = false) ∨
    fails.Spares (take block4) ∧ fails.Spares (take block6))

namespace StatefulRouter

section
variable (hfatal : fails.Fatal) (h : r.View l) (hv : l.Valid)
include hfatal h hv

theorem View.installBlock : ∃ l', (r.installBlock fails).2.View l' ∧ l.Installed l' ∧
    SameRest r (r.installBlock fails).2 := by
  rw [StatefulRouter.installBlock]
  rcases hrun : r.apply fails [.enableDirectBlock] with ⟨outcome, r1⟩
  obtain ⟨l1, hview, henabled, hrest⟩ := h.enable hv hfatal hrun
  cases outcome
  · cases henabled with
    | done h4 h6 =>
      obtain ⟨hverify, hsame, -⟩ := (hview.record true).verify fails true
      have hrest := hrest.trans ((SameRest.record r1 true).trans hsame)
      dsimp only
      generalize verifyDirectBlock fails true { r1 with directBlocked := true } = result
        at hverify hrest ⊢
      obtain ⟨_ | error, r2⟩ := result
      · exact ⟨_, hverify.forget.1, .done h4 (Nat.zero_le _), hrest.trans hverify.forget.2⟩
      · exact ⟨_, hverify, .done h4 le_rfl, hrest⟩
  · cases henabled with
    | failed => exact ⟨l, hview, .failed, hrest⟩
    | half h4 _ => exact ⟨_, hview, .half h4, hrest⟩

/-- Step: blocking, in the ledger. -/
theorem View.blockDirect : ∃ l', (r.blockDirect fails).2.View l' ∧ l'.Valid ∧
    SameRest r (r.blockDirect fails).2 ∧ (l.Ready fails → l'.Balanced) := by
  have hrecorded := h.recorded
  cases hrec : l.recorded with
  | false =>
    rw [hrec] at hrecorded
    obtain ⟨l', hview, hinst, hrest⟩ := h.installBlock hfatal hv
    simp only [StatefulRouter.blockDirect, hrecorded, Bool.false_eq_true, if_false]
    exact ⟨l', hview, hinst.valid hv hrec, hrest, fun hready =>
      hinst.balanced hv hrec (hready.of_unrecorded hrec)⟩
  | true =>
    rw [hrec] at hrecorded
    have howes := hv.owes_of_recorded hrec
    obtain ⟨hverify, hsame, hboth, -⟩ := h.verify fails true
    simp only [StatefulRouter.blockDirect, hrecorded, if_true]
    generalize r.verifyDirectBlock fails true = result at hverify hsame hboth ⊢
    obtain ⟨_ | error, r1⟩ := result
    · obtain ⟨h4, h6⟩ := hboth rfl
      exact ⟨_, hverify.forget.1, .of_owes howes (by simp [hrec]), hsame.trans hverify.forget.2,
        fun _ => ⟨rfl, by simp [h4, howes, hrec], h6.trans hrec.symm⟩⟩
    · dsimp only
      rcases hrun : r1.apply fails [.disableDirectBlock] with ⟨outcome, r2⟩
      obtain ⟨l1, hview, hdisabled, hrest⟩ := hverify.disable howes hfatal hrun
      have hrest := hsame.trans hrest
      cases outcome
      · cases hdisabled with
        | done =>
          have hvalid : Ledger.Valid ⟨false, false, false, l.puts, l.owes⟩ :=
            .of_owes howes fun _ => rfl
          obtain ⟨l', hview', hinst, hrest'⟩ := (hview.record false).installBlock hfatal hvalid
          exact ⟨l', hview', hinst.valid hvalid rfl, (hrest.trans (.record r2 false)).trans hrest',
            fun hready => hinst.balanced hvalid rfl ⟨hready.puts, by simp, rfl⟩⟩
      · cases hdisabled with
        | failed hfail =>
          refine ⟨l, hview, hv, hrest, fun hready => ?_⟩
          cases hready with
          | balanced h => exact h
          | gone _ _ _ htakes => exact absurd htakes hfail
        | half h4 hput =>
          refine ⟨_, hview, .of_owes howes (by simp [hrec]), hrest, fun hready => ?_⟩
          cases hready with
          | balanced _ hput' => exact absurd (hput' hrec) hput
          | gone h4' => exact absurd h4 (by simp [h4'])

/-- Step: removing the block, in the ledger. -/
theorem View.removeBlock (hrec : l.recorded = true) :
    ∃ l', (r.removeBlock fails).2.View l' ∧ l'.Valid ∧ SameRest r (r.removeBlock fails).2 ∧
      l'.recorded = true ∧
      ((r.removeBlock fails).1 = none → l'.v4 = false ∧ l'.v6 = false ∧ l'.puts = l.puts) ∧
      (l.Balanced → fails.Reversible → (r.removeBlock fails).1.isSome → l'.Ready fails) := by
  have howes := hv.owes_of_recorded hrec
  rw [StatefulRouter.removeBlock]
  rcases hrun : r.apply fails [.disableDirectBlock] with ⟨outcome, r1⟩
  obtain ⟨l1, hview, hdisabled, hrest⟩ := h.disable howes hfatal hrun
  cases outcome
  · cases hdisabled with
    | done =>
      obtain ⟨hverify, hsame, -, hcheck⟩ := hview.verify fails false
      refine ⟨_, hverify, .of_owes howes (by simp [hrec]), hrest.trans hsame, hrec,
        fun _ => ⟨rfl, rfl, rfl⟩, fun hb hback hsome => ?_⟩
      -- only a check that fails can be in the way of the verification
      refine .gone rfl rfl hb.puts (hback.2.resolve_left fun hnone => ?_)
      rw [hcheck hnone rfl rfl] at hsome
      cases hsome
  · cases hdisabled with
    | failed => exact ⟨l, hview, hv, hrest, hrec, by simp, fun hb hback _ =>
      .balanced hb fun _ => hback.1⟩
    | half _ hput =>
      exact ⟨_, hview, .of_owes howes (by simp [hrec]), hrest, hrec, by simp,
        fun _ hback => absurd hback.1 hput⟩

/-- Step: unblocking, in the ledger. -/
theorem View.unblockDirect : ∃ l', (r.unblockDirect fails).2.View l' ∧ l'.Valid ∧
    SameRest r (r.unblockDirect fails).2 ∧
    (l.Balanced → (l.recorded = true → fails.Reversible) → l'.Balanced) := by
  have hrecorded := h.recorded
  cases hrec : l.recorded with
  | false =>
    rw [hrec] at hrecorded
    simp only [StatefulRouter.unblockDirect, hrecorded, Bool.not_false, if_true]
    exact ⟨l, h, hv, .refl r, fun hb _ => hb⟩
  | true =>
    rw [hrec] at hrecorded
    obtain ⟨l1, hview, hvalid, hrest, hrec1, hgone, hready⟩ := h.removeBlock hfatal hv hrec
    simp only [StatefulRouter.unblockDirect, hrecorded, Bool.not_true, Bool.false_eq_true, if_false]
    generalize r.removeBlock fails = result at hview hrest hgone hready ⊢
    obtain ⟨_ | error, r1⟩ := result
    · obtain ⟨h4, h6, hputs⟩ := hgone rfl
      exact ⟨_, hview.record false, .of_owes (hvalid.owes_of_recorded hrec1) fun _ => h6,
        hrest.trans (.record r1 false), fun hb _ => ⟨hputs.trans hb.puts, by simp [h4], h6⟩⟩
    · obtain ⟨l', hview', hvalid', hrest', hbal⟩ := hview.blockDirect hfatal hvalid
      dsimp only
      generalize r1.blockDirect fails = result at hview' hrest' ⊢
      obtain ⟨_ | reblock, r2⟩ := result
      all_goals exact ⟨l', hview', hvalid', hrest.trans hrest', fun hb hback =>
        hbal (hready hb (hback trivial) rfl)⟩

end

end StatefulRouter

end Rustscale.Router
