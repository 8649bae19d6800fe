import Rustscale.Router.Transactions

/-! The emergency block and its pending commands. Only the IPv4 rule, which comes first, can be left
half-way. -/
namespace Rustscale.Router
open Tsaddr Undo List Item

variable {fails : Faults} {r : StatefulRouter} {k : Kernel}

abbrev block4 : Item := .directBlock .v4

abbrev block6 : Item := .directBlock .v6

/-- The installed rules, whether the block is recorded, and what is pending: puts of the IPv4 rule,
then its removal. -/
structure Ledger where
  v4 : Bool
  v6 : Bool
  recorded : Bool
  puts : ℕ
  owes : Bool

namespace Ledger

/-- Ledgers that can arise: only an unrecorded half block is owed. -/
structure Valid (l : Ledger) : Prop where
  owes : l.owes = true → l.v4 = true ∧ l.recorded = false
  v6 : l.recorded = false → l.v6 = false

variable {l : Ledger}

theorem Valid.owes_of_v4 (h : l.Valid) (h4 : l.v4 = false) : l.owes = false := by
  by_contra howes
  exact absurd (h.owes (by simpa using howes)).1 (by simp [h4])

theorem Valid.owes_of_recorded (h : l.Valid) (hrec : l.recorded = true) : l.owes = false := by
  by_contra howes
  exact absurd (h.owes (by simpa using howes)).2 (by simp [hrec])

theorem Valid.of_owes (howes : l.owes = false) (h6 : l.recorded = false → l.v6 = false) : l.Valid :=
  ⟨fun h => absurd h (by simp [howes]), h6⟩

/-- What is installed, once what is owed is removed, is what is recorded. -/
structure Balanced (l : Ledger) : Prop where
  puts : l.puts = 0
  v4 : l.v4 = true ∧ l.owes = false ↔ l.recorded = true
  v6 : l.v6 = l.recorded

def pending (l : Ledger) : List CommandSpec :=
  replicate l.puts (put block4) ++ if l.owes then [take block4] else []

/-- The block is put: both rules, none, or one that is owed back. -/
inductive Enabled : Ledger → Bool → Ledger → Prop
  | done {l : Ledger} (h4 : l.v4 = false) (h6 : l.v6 = false) :
      Enabled l true { l with v4 := true, v6 := true }
  | failed (l : Ledger) : Enabled l false l
  | half {l : Ledger} (h4 : l.v4 = false) (howes : l.owes = false) :
      Enabled l false { l with v4 := true, owes := true }

/-- The block is taken: both rules, none, or one whose return is pending. -/
inductive Disabled (fails : Faults) : Ledger → Bool → Ledger → Prop
  | done (l : Ledger) : Disabled fails l true { l with v4 := false, v6 := false }
  | failed (l : Ledger) (h : ¬(fails.Spares (take block4) ∧ fails.Spares (take block6))) :
      Disabled fails l false l
  | half {l : Ledger} (h4 : l.v4 = true) (hput : ¬fails.Spares (put block4)) :
      Disabled fails l false { l with v4 := false, puts := l.puts + 1 }

/-- What is left after pending commands were tried again. -/
inductive Retried : Ledger → Ledger → Prop
  | same (l : Ledger) : Retried l l
  | put {l : Ledger} {n : ℕ} (h4 : l.v4 = false) (howes : l.owes = false) (hputs : l.puts = n + 1) :
      Retried l { l with v4 := true, puts := n }
  | take {l : Ledger} (howes : l.owes = true) : Retried l { l with v4 := false, owes := false }

end Ledger

def cell (x : Item) (there : Bool) : Option Item := if there then some x else none

section
variable (x : Item) (there : Bool)

@[simp] theorem answer_put_cell :
    answer (cell x there) (put x) = if there then .occupied else .done := by
  cases there <;> rfl

@[simp] theorem answer_take_cell :
    answer (cell x there) (take x) = if there then .done else .absent := by
  cases there <;> simp [cell]

@[simp] theorem after_put_cell : after (cell x there) (put x) = cell x true := by cases there <;> rfl

@[simp] theorem after_take_cell : after (cell x there) (take x) = cell x false := by
  cases there <;> simp [cell]

end

/-- The ledger of a router: its block, and what is pending for it. -/
structure StatefulRouter.View (r : StatefulRouter) (l : Ledger) : Prop where
  v4 : r.kernel.table (.directBlock .v4) = cell block4 l.v4
  v6 : r.kernel.table (.directBlock .v6) = cell block6 l.v6
  recorded : r.directBlocked = l.recorded
  pending4 : on slot (.directBlock .v4) r.pendingCleanup = l.pending
  pending6 : on slot (.directBlock .v6) r.pendingCleanup = []

/-- Two routers agree on all but the block. -/
structure SameRest (r r' : StatefulRouter) : Prop where
  table : ∀ t, (∀ family, t ≠ .directBlock family) → r'.kernel.table t = r.kernel.table t
  pending : ∀ t, (∀ family, t ≠ .directBlock family) →
    on slot t r'.pendingCleanup = on slot t r.pendingCleanup
  config : r'.config = r.config
  isUp : r'.isUp = r.isUp

theorem SameRest.refl (r : StatefulRouter) : SameRest r r := ⟨fun _ _ => rfl, fun _ _ => rfl, rfl, rfl⟩

theorem SameRest.trans {r r' r'' : StatefulRouter} (h : SameRest r r') (h' : SameRest r' r'') :
    SameRest r r'' where
  table t ht := (h'.table t ht).trans (h.table t ht)
  pending t ht := (h'.pending t ht).trans (h.pending t ht)
  config := h'.config.trans h.config
  isUp := h'.isUp.trans h.isUp

/-- Both commands settle, or nothing changes, or the first is done and cannot be undone. -/
inductive Paired (fails : Faults) (k : Kernel) (c1 c2 : CommandSpec) :
    Outcome → Kernel → List CommandSpec → Prop
  | done {k' : Kernel} (h1 : answer (k.table c1.item.slot) c1 ≠ .occupied)
      (h2 : answer (perform slot k.table c1 c2.item.slot) c2 ≠ .occupied)
      (hk : k'.table = perform slot (perform slot k.table c1) c2) : Paired fails k c1 c2 none k' []
  | failed {k' : Kernel} (error : RouterError) (hk : k'.table = k.table)
      (h : fails.Spares c1 → fails.Spares c2 → c1.puts = true ∨ c2.puts = true) :
      Paired fails k c1 c2 (some error) k' []
  | half {k' : Kernel} (error : RouterError) (h1 : answer (k.table c1.item.slot) c1 = .done)
      (hk : k'.table = perform slot k.table c1) (hback : ¬fails.Spares c1.inverse) :
      Paired fails k c1 c2 (some error) k' [c1.inverse]

variable {outcome : Outcome} {r' : StatefulRouter}

section
variable (hfatal : fails.Fatal)
include hfatal

theorem runAll_single (k : Kernel) (c : CommandSpec) :
    answer (k.table c.item.slot) c ≠ .occupied ∧ (runAll fails [c] k).2.1 = [] ∧
        (runAll fails [c] k).1.table = perform slot k.table c ∨
      (¬fails.Spares c ∨ answer (k.table c.item.slot) c = .occupied) ∧
        (runAll fails [c] k).2.1 = [c] ∧ (runAll fails [c] k).1.table = k.table := by
  have hran := k.ran hfatal c
  simp only [runAll]
  generalize k.run fails c = result at hran ⊢
  cases hran with
  | done h => exact .inl ⟨by rw [h]; simp, rfl, rfl⟩
  | absent error herror h =>
    simp only [herror, if_true]
    exact .inl ⟨by rw [h]; simp, trivial, (perform_of_ne_done (by rw [h]; simp)).symm⟩
  | idle _ h => exact .inl ⟨by rw [h]; simp, rfl, (perform_of_ne_done (by rw [h]; simp)).symm⟩
  | failed error herror h =>
    simp only [herror, Bool.false_eq_true, if_false]
    exact .inr ⟨h, trivial, trivial⟩

/-- A call of one operation of two commands, command by command. -/
theorem StatefulRouter.apply_pair {op : RouterOperation} (hrun : r.apply fails [op] = (outcome, r'))
    (c1 c2 : CommandSpec) (hop : op.invertible = true) (hcs : commands op = [c1, c2]) :
    ∃ k kept, r' = { r with kernel := k, pendingCleanup := r.pendingCleanup ++ kept } ∧
      Paired fails r.kernel c1 c2 outcome k kept := by
  have hpairs : ([op].flatMap fun op => (commands op).zip (commands op.inverse)) =
      [(c1, c1.inverse), (c2, c2.inverse)] := by
    rw [flatMap_singleton, zip_commands hop, hcs]
    rfl
  have hlink := commands_item hop
  rw [hcs] at hlink
  obtain ⟨hlink1, hlink2⟩ : c1.item ≠ .linkUp ∧ c2.item ≠ .linkUp := by simpa using hlink
  simp only [apply, hpairs] at hrun
  rcases runForward_cons hfatal r.kernel c1 hlink1 [(c2, c2.inverse)] [] with
    ⟨back, hrun1, hback⟩ | ⟨error, hrun1, h1⟩ <;> rw [hrun1] at hrun
  · have hfree : answer (r.kernel.table c1.item.slot) c1 ≠ .occupied := by
      rcases hback with ⟨h, -⟩ | ⟨h, -⟩ <;> rw [h] <;> simp
    rcases runForward_cons hfatal ⟨perform slot r.kernel.table c1, r.kernel.issued + 1⟩ c2 hlink2 []
      (back ++ []) with ⟨_, hrun2, hback2⟩ | ⟨error, hrun2, h2⟩ <;> rw [hrun2] at hrun
    · cases hrun
      refine ⟨_, [], by rw [append_nil], .done hfree ?_ rfl⟩
      rcases hback2 with ⟨h, -⟩ | ⟨h, -⟩ <;> rw [h] <;> simp
    · have hputs : fails.Spares c1 → fails.Spares c2 → c1.puts = true ∨ c2.puts = true :=
        fun _ hspares => .inr (puts_of_occupied (h2.resolve_left (not_not_intro hspares)))
      cases hrun
      refine ⟨_, _, rfl, ?_⟩
      rcases hback with ⟨h, rfl⟩ | ⟨h, rfl⟩
      · rcases runAll_single hfatal ⟨perform slot r.kernel.table c1, r.kernel.issued + 1 + 1⟩
          c1.inverse with ⟨-, hkept, htable⟩ | ⟨hfail, hkept, htable⟩
        · rw [append_nil, hkept]
          exact .failed _ (htable.trans (perform_inverse h)) hputs
        · rw [append_nil, hkept]
          refine .half _ h htable (hfail.resolve_right ?_)
          simp [perform_self, Undo.Command.inverse_item, answer_inverse h]
      · exact .failed _ (perform_of_ne_done (by rw [h]; simp)) hputs
  · cases hrun
    refine ⟨_, [], rfl, .failed _ rfl fun hspares _ => ?_⟩
    exact .inl (puts_of_occupied (h1.resolve_left (not_not_intro hspares)))

end

section
variable {l : Ledger}

variable {k : Kernel} {puts : Bool} {family : Family} {t : Slot}

theorem SameRest.of_block {pending : List CommandSpec} {blocked : Bool}
    (htable : ∀ t, (∀ family, t ≠ .directBlock family) → k.table t = r.kernel.table t)
    (hpending : ∀ t, (∀ family, t ≠ .directBlock family) →
      on slot t pending = on slot t r.pendingCleanup) :
    SameRest r { r with kernel := k, pendingCleanup := pending, directBlocked := blocked } :=
  ⟨htable, hpending, rfl, rfl⟩

theorem perform_block {table : Slot → Option Item} (ht : ∀ family, t ≠ .directBlock family) :
    perform slot table ⟨puts, .directBlock family⟩ t = table t :=
  perform_of_ne (Ne.symm (ht family))

section
variable (table : Slot → Option Item) (puts : Bool)

theorem perform_block_self (family : Family) :
    perform slot table ⟨puts, .directBlock family⟩ (.directBlock family) =
      after (table (.directBlock family)) ⟨puts, .directBlock family⟩ := perform_self rfl

theorem perform_block_ne {family' : Family}
    (h : family ≠ family') : perform slot table ⟨puts, .directBlock family⟩
      (.directBlock family') = table (.directBlock family') :=
  perform_of_ne fun heq => h (Slot.directBlock.inj heq)

end

theorem on_block (ht : ∀ family, t ≠ .directBlock family) :
    on slot t [(⟨puts, .directBlock family⟩ : CommandSpec)] = [] :=
  on_cons_of_ne (Ne.symm (ht family))

theorem perform_pair (h : r.View l) (hk : k.table =
      perform slot (perform slot r.kernel.table ⟨puts, block4⟩) ⟨puts, block6⟩) :
    k.table (.directBlock .v4) = cell block4 puts ∧ k.table (.directBlock .v6) = cell block6 puts ∧
      ∀ t, (∀ family, t ≠ .directBlock family) → k.table t = r.kernel.table t := by
  have h6 : perform slot r.kernel.table ⟨puts, block4⟩ (.directBlock .v6) = cell block6 l.v6 :=
    (perform_block_ne _ _ (by decide)).trans h.v6
  rw [hk]
  refine ⟨?_, ?_, fun t ht => by rw [perform_block ht, perform_block ht]⟩
  · rw [perform_block_ne _ _ (by decide), perform_block_self, h.v4]
    cases puts <;> simp
  · rw [perform_block_self, h6]
    cases puts <;> simp

theorem perform_first (h : r.View l) (hk : k.table = perform slot r.kernel.table ⟨puts, block4⟩) :
    k.table (.directBlock .v4) = cell block4 puts ∧ k.table (.directBlock .v6) = cell block6 l.v6 ∧
      ∀ t, (∀ family, t ≠ .directBlock family) → k.table t = r.kernel.table t := by
  rw [hk]
  refine ⟨?_, (perform_block_ne _ _ (by decide)).trans h.v6, fun t ht => perform_block ht⟩
  rw [perform_block_self, h.v4]
  cases puts <;> simp

theorem StatefulRouter.View.settled {v4 v6 : Bool} (h : r.View l)
    (h4 : k.table (.directBlock .v4) = cell block4 v4)
    (h6 : k.table (.directBlock .v6) = cell block6 v6) :
    { r with kernel := k, pendingCleanup := r.pendingCleanup ++ [] }.View { l with v4, v6 } := by
  rw [append_nil]
  exact ⟨h4, h6, h.recorded, h.pending4, h.pending6⟩

/-- The ledger's account of a call that enables the direct block. -/
theorem StatefulRouter.View.enable (h : r.View l) (hv : l.Valid) (hfatal : fails.Fatal)
    (hrun : r.apply fails [.enableDirectBlock] = (outcome, r')) :
    ∃ l', r'.View l' ∧ l.Enabled outcome.isNone l' ∧ SameRest r r' := by
  obtain ⟨k, kept, rfl, hpair⟩ := apply_pair hfatal hrun (put block4) (put block6) rfl rfl
  cases hpair with
  | done h1 h2 hk =>
    have hl4 : l.v4 = false := by simpa [slot, h.v4] using h1
    have hl6 : l.v6 = false := by
      simpa [slot, perform_block_ne _ _ (show Family.v4 ≠ .v6 by decide), h.v6] using h2
    obtain ⟨h4, h6, hrest⟩ := perform_pair h hk
    exact ⟨_, h.settled h4 h6, .done hl4 hl6, .of_block hrest (by simp)⟩
  | failed error hk =>
    exact ⟨l, h.settled (by rw [hk, h.v4]) (by rw [hk, h.v6]), .failed l,
      .of_block (by simp [hk]) (by simp)⟩
  | half error h1 hk =>
    have hl4 : l.v4 = false := by simpa [slot, h.v4] using h1
    have howes := hv.owes_of_v4 hl4
    obtain ⟨h4, h6, hrest⟩ := perform_first h hk
    refine ⟨{ l with v4 := true, owes := true }, ⟨h4, h6, h.recorded, ?_, ?_⟩, .half hl4 howes,
      .of_block hrest ?_⟩
    · rw [on_append, h.pending4]
      simp [Ledger.pending, howes, on, slot]
    · rw [on_append, h.pending6]
      rfl
    · intro t ht
      rw [on_append, inverse_put, on_block ht, append_nil]

/-- The ledger's account of a call that disables the direct block. -/
theorem StatefulRouter.View.disable (h : r.View l) (howes : l.owes = false) (hfatal : fails.Fatal)
    (hrun : r.apply fails [.disableDirectBlock] = (outcome, r')) :
    ∃ l', r'.View l' ∧ l.Disabled fails outcome.isNone l' ∧ SameRest r r' := by
  obtain ⟨k, kept, rfl, hpair⟩ := apply_pair hfatal hrun (take block4) (take block6) rfl rfl
  cases hpair with
  | done _ _ hk =>
    obtain ⟨h4, h6, hrest⟩ := perform_pair h hk
    exact ⟨_, h.settled h4 h6, .done l, .of_block hrest (by simp)⟩
  | failed error hk hfail =>
    exact ⟨l, h.settled (by rw [hk, h.v4]) (by rw [hk, h.v6]),
      .failed l fun hspares => by simpa using hfail hspares.1 hspares.2,
      .of_block (by simp [hk]) (by simp)⟩
  | half error h1 hk hback =>
    have hl4 : l.v4 = true := by simpa [slot, h.v4] using h1
    obtain ⟨h4, h6, hrest⟩ := perform_first h hk
    refine ⟨{ l with v4 := false, puts := l.puts + 1 }, ⟨h4, h6, h.recorded, ?_, ?_⟩, .half hl4 hback,
      .of_block hrest ?_⟩
    · rw [on_append, h.pending4]
      simp [Ledger.pending, howes, on, slot, replicate_succ']
    · rw [on_append, h.pending6]
      rfl
    · intro t ht
      rw [on_append, inverse_take, on_block ht, append_nil]

theorem Ledger.Retried.of_attempted (hv : l.Valid) {cell' : Option Item} {kept : List CommandSpec}
    (h : Attempted (cell block4 l.v4) l.pending cell' kept) :
    ∃ l', l.Retried l' ∧ cell' = cell block4 l'.v4 ∧ kept = l'.pending ∧ l'.v6 = l.v6 ∧
      l'.recorded = l.recorded := by
  rw [Ledger.pending] at h
  cases hl4 : l.v4 with
  | true =>
    rw [hl4] at h
    obtain ⟨rest, rfl, hrest⟩ := Attempted.of_occupied h
    cases howes : l.owes with
    | false =>
      rw [howes] at hrest
      obtain ⟨rfl, rfl⟩ := hrest.of_nil
      exact ⟨l, .same l, by rw [hl4]; rfl, by simp [Ledger.pending, howes], rfl, rfl⟩
    | true =>
      rw [howes, if_pos rfl] at hrest
      cases hrest with
      | gone _ hnil =>
        rw [after_take_self] at hnil
        obtain ⟨rfl, rfl⟩ := hnil.of_nil
        exact ⟨_, .take howes, rfl, by simp [Ledger.pending], rfl, rfl⟩
      | kept hnil =>
        obtain ⟨rfl, rfl⟩ := hnil.of_nil
        exact ⟨l, .same l, by rw [hl4]; rfl, by simp [Ledger.pending, howes], rfl, rfl⟩
  | false =>
    have howes := hv.owes_of_v4 hl4
    rw [hl4, howes, if_neg (by simp), append_nil] at h
    rcases Attempted.of_free h with ⟨rfl, rfl⟩ | ⟨n, hputs, rfl, rfl⟩
    · exact ⟨l, .same l, by rw [hl4]; rfl, by simp [Ledger.pending, howes], rfl, rfl⟩
    · exact ⟨_, .put hl4 howes hputs, rfl, by simp [Ledger.pending, howes], rfl, rfl⟩

namespace Ledger.Retried
variable {l' : Ledger}

theorem valid (h : l.Retried l') (hv : l.Valid) : l'.Valid := by
  cases h with
  | same => exact hv
  | put _ howes _ => exact .of_owes howes hv.v6
  | take _ => exact .of_owes rfl hv.v6

theorem balanced (h : l.Retried l') (hv : l.Valid) (hb : l.Balanced) : l'.Balanced := by
  cases h with
  | same => exact hb
  | put _ _ hputs => exact absurd (hb.puts.symm.trans hputs) (by simp)
  | take howes =>
    obtain ⟨-, hrec⟩ := hv.owes howes
    exact ⟨hb.puts, by simp [hrec], hb.v6⟩

end Ledger.Retried

theorem StatefulRouter.View.retry (h : r.View l) (hv : l.Valid) (hfatal : fails.Fatal) :
    ∃ l', (r.retryPendingCleanup fails).2.View l' ∧ l.Retried l' := by
  have h4 := runAll_attempted hfatal r.pendingCleanup r.kernel (.directBlock .v4)
  have h6 := runAll_attempted hfatal r.pendingCleanup r.kernel (.directBlock .v6)
  rw [h.v4, h.pending4] at h4
  rw [h.v6, h.pending6] at h6
  obtain ⟨hv6, hp6⟩ := h6.of_nil
  obtain ⟨l', hretried, hcell, hkept, h6', hrec⟩ := Ledger.Retried.of_attempted hv h4
  exact ⟨l', ⟨hcell, hv6.trans (by rw [h6']), h.recorded.trans hrec.symm, hkept, hp6⟩, hretried⟩

end

end Rustscale.Router
