import Mathlib.Tactic

/-! The IPN backend: its inputs, the state that follows from them, and the startup generations whose
commit alone makes it run. -/
namespace Rustscale.Ipn
open List

/-- The states of a node that its user sees. -/
inductive State where
  | noState
  | inUseOtherUser
  | needsLogin
  | needsMachineAuth
  | stopped
  | starting
  | running
  deriving DecidableEq

/-- What the state is computed from. -/
structure BackendInputs where
  wantRunning : Bool := false
  hasNodeKey : Bool := false
  netmapPresent : Bool := false
  authCantContinue : Bool := false
  keyExpired : Bool := false
  machineAuthorized : Bool := false
  numLive : ℤ := 0
  liveDerps : ℤ := 0
  startupReady : Bool := false
  deriving DecidableEq

structure StateMachineInputs extends BackendInputs where
  loggedOut : Bool
  blocked : Bool

def nextState (i : StateMachineInputs) (current : State) : State :=
  if !i.wantRunning && !i.loggedOut && !i.blocked && i.hasNodeKey then .stopped
  else if !i.netmapPresent then
    if i.authCantContinue || i.loggedOut then .needsLogin
    else if !i.wantRunning then .stopped
    else if current == .running && !i.startupReady then .starting
    else if i.blocked && current == .running then .needsLogin
    else match current with
      | .stopped => .starting
      | _ => current
  else if i.loggedOut then .needsLogin
  else if !i.wantRunning then .stopped
  else if i.keyExpired then .needsLogin
  else if !i.machineAuthorized then .needsMachineAuth
  else if current == .needsMachineAuth then .starting
  else if current == .starting then
    if i.startupReady && !i.blocked then .running else .starting
  else if current == .running then
    if i.blocked || !i.startupReady then .needsLogin else .running
  else .starting

/-- The backend behind its lock. -/
structure BackendInner where
  state : State := .noState
  inputs : BackendInputs := {}
  blocked : Bool := false
  loggedOut : Bool := false
  startupGeneration : ℕ := 0
  deriving DecidableEq

/-- The entry points. The setters of single inputs are updates. -/
inductive Call where
  | updateInputs (update : BackendInputs → BackendInputs)
  | beginStartupGeneration
  | commitStartupGeneration (generation : ℕ)
  | cancelStartupGeneration (generation : ℕ)
  | setEngineStatus (numLive liveDerps : ℤ)
  | setBlocked (blocked : Bool)
  | setLoggedOut (loggedOut : Bool)

namespace BackendInner

variable (b : BackendInner)

def stateMachineInputs : StateMachineInputs :=
  { b.inputs with loggedOut := b.loggedOut, blocked := b.blocked }

/-- The end of every entry point. -/
def evaluate : BackendInner :=
  { b with state := nextState b.stateMachineInputs b.state }

def nextGeneration (generation : ℕ) : ℕ := max ((generation + 1) % 2 ^ 64) 1

/-- Each call is one critical section, so the calls of all threads are a sequence. -/
def call : Call → BackendInner
  | .updateInputs update => evaluate { b with inputs := update b.inputs }
  | .beginStartupGeneration =>
    evaluate { b with
      startupGeneration := nextGeneration b.startupGeneration
      inputs := { b.inputs with
        wantRunning := true, netmapPresent := false, numLive := 0, liveDerps := 0,
        startupReady := false }
      blocked := true }
  | .commitStartupGeneration generation =>
    if b.startupGeneration ≠ generation then b
    else evaluate { b with inputs := { b.inputs with startupReady := true }, blocked := false }
  | .cancelStartupGeneration generation =>
    if b.startupGeneration ≠ generation then b
    else evaluate { b with inputs := { b.inputs with startupReady := false }, blocked := true }
  | .setEngineStatus numLive liveDerps =>
    evaluate { b with inputs := { b.inputs with
      numLive, liveDerps
      startupReady := b.inputs.startupReady ||
        b.startupGeneration == 0 && (decide (0 < numLive) || decide (0 < liveDerps)) } }
  | .setBlocked blocked => evaluate { b with blocked }
  | .setLoggedOut loggedOut => evaluate { b with loggedOut }

def run (calls : List Call) : BackendInner := calls.foldl call b

end BackendInner

theorem nextState_running {i : StateMachineInputs} {current : State}
    (h : nextState i current = .running) :
    i.startupReady = true ∧ i.wantRunning = true ∧ i.blocked = false ∧ i.loggedOut = false := by
  revert h
  fun_cases nextState i current <;> intro h <;> simp_all

/-- An update of the inputs does not make the backend ready. -/
def Call.LeavesReady : Call → Prop
  | .updateInputs update => ∀ i, (update i).startupReady = true → i.startupReady = true
  | _ => True

/-- The generation was committed after it began, and not cancelled or replaced since. -/
def Committed (generation : ℕ) (calls : List Call) : Prop :=
  .beginStartupGeneration ∉ calls ∧
    ∃ front back, calls = front ++ .commitStartupGeneration generation :: back ∧
      .cancelStartupGeneration generation ∉ back

/-- The backend after calls that follow the start of a generation. -/
structure Since (b : BackendInner) (generation : ℕ) (calls : List Call) : Prop where
  latest : b.startupGeneration = generation
  positive : 0 < generation
  fresh : .beginStartupGeneration ∉ calls
  ready : b.inputs.startupReady = true → Committed generation calls
  running : b.state = .running → b.inputs.startupReady = true ∧ b.inputs.wantRunning = true ∧
    b.blocked = false ∧ b.loggedOut = false

section
variable {b : BackendInner} {generation : ℕ} {calls : List Call}

theorem Since.evaluate (hlatest : b.startupGeneration = generation) (hpos : 0 < generation)
    (hfresh : .beginStartupGeneration ∉ calls)
    (hready : b.inputs.startupReady = true → Committed generation calls) :
    Since b.evaluate generation calls :=
  ⟨hlatest, hpos, hfresh, hready, fun h => nextState_running h⟩

theorem Since.begin (b : BackendInner) :
    Since (b.call .beginStartupGeneration) (b.call .beginStartupGeneration).startupGeneration [] :=
  .evaluate rfl (Nat.lt_of_lt_of_le one_pos (le_max_right _ _)) (by simp) (by simp)

/-- Step: since its generation began, the backend is ready only once committed. -/
theorem Since.call (h : Since b generation calls) {c : Call} (hc : c.LeavesReady)
    (hbegin : c ≠ .beginStartupGeneration) : Since (b.call c) generation (calls ++ [c]) := by
  have hfresh : .beginStartupGeneration ∉ calls ++ [c] := by simpa [h.fresh] using hbegin.symm
  have hkeep : c ≠ .cancelStartupGeneration generation → b.inputs.startupReady = true →
      Committed generation (calls ++ [c]) := by
    intro hcancel hr
    obtain ⟨-, front, back, heq, hnot⟩ := h.ready hr
    exact ⟨hfresh, front, back ++ [c], by simp [heq], by simpa [hnot] using hcancel.symm⟩
  cases c with
  | updateInputs update =>
    exact .evaluate h.latest h.positive hfresh fun hr => hkeep (by simp) (hc _ hr)
  | beginStartupGeneration => exact absurd rfl hbegin
  | commitStartupGeneration g =>
    rw [BackendInner.call]
    split_ifs with hg
    · exact ⟨h.latest, h.positive, hfresh, hkeep (by simp), h.running⟩
    · obtain rfl : g = generation := (not_not.mp hg).symm.trans h.latest
      exact .evaluate h.latest h.positive hfresh fun _ => ⟨hfresh, calls, [], rfl, by simp⟩
  | cancelStartupGeneration g =>
    rw [BackendInner.call]
    split_ifs with hg
    · have hother : g ≠ generation := fun he => hg (h.latest.trans he.symm)
      exact ⟨h.latest, h.positive, hfresh, hkeep (by simpa using hother), h.running⟩
    · exact .evaluate h.latest h.positive hfresh (by simp)
  | setEngineStatus numLive liveDerps =>
    -- Telemetry counts before the first generation only.
    refine .evaluate h.latest h.positive hfresh fun hr => hkeep (by simp) ?_
    simpa [h.latest, h.positive.ne'] using hr
  | setBlocked | setLoggedOut => exact .evaluate h.latest h.positive hfresh (hkeep (by simp))

end

def Call.isBegin : Call → Bool
  | .beginStartupGeneration => true
  | _ => false

variable (b : BackendInner) (calls : List Call)

theorem since_of_run (h : ∀ c ∈ calls, c.LeavesReady) :
    ∃ front back, .beginStartupGeneration :: calls = front ++ .beginStartupGeneration :: back ∧
      Since (b.run (.beginStartupGeneration :: calls))
        (b.run (front ++ [.beginStartupGeneration])).startupGeneration back := by
  induction calls using List.reverseRecOn with
  | nil => exact ⟨[], [], rfl, .begin b⟩
  | append_singleton calls c ih =>
    obtain ⟨front, back, heq, hsince⟩ := ih fun c hc => h c (mem_append_left _ hc)
    rw [← cons_append, BackendInner.run, foldl_append]
    by_cases hbegin : c = .beginStartupGeneration
    · refine ⟨.beginStartupGeneration :: calls, [], by rw [hbegin], ?_⟩
      rw [hbegin, BackendInner.run, foldl_append]
      exact .begin _
    · exact ⟨front, back ++ [c], by simp [heq], hsince.call (h c (by simp)) hbegin⟩

theorem startupGeneration_call {c : Call} (hc : c.isBegin = false) :
    (b.call c).startupGeneration = b.startupGeneration := by
  cases c with
  | beginStartupGeneration => cases hc
  | commitStartupGeneration | cancelStartupGeneration =>
    rw [BackendInner.call]
    split_ifs <;> rfl
  | _ => rfl

/-- Generations count the starts and wrap around past zero. -/
theorem startupGeneration_run {b : BackendInner} (hpos : 0 < b.startupGeneration)
    (hlt : b.startupGeneration < 2 ^ 64) :
    (b.run calls).startupGeneration =
      (b.startupGeneration - 1 + calls.countP Call.isBegin) % (2 ^ 64 - 1) + 1 := by
  induction calls generalizing b with
  | nil =>
    show b.startupGeneration = _
    rw [countP_nil]
    omega
  | cons c calls ih =>
    have hnext : BackendInner.nextGeneration b.startupGeneration =
        b.startupGeneration % (2 ^ 64 - 1) + 1 := by
      unfold BackendInner.nextGeneration
      omega
    rw [BackendInner.run, foldl_cons, ← BackendInner.run]
    cases hc : c.isBegin with
    | false =>
      have hsame := startupGeneration_call b hc
      rw [ih (by rwa [hsame]) (by rwa [hsame]), hsame, countP_cons_of_neg (by simp [hc])]
    | true =>
      have hgen : (b.call c).startupGeneration = b.startupGeneration % (2 ^ 64 - 1) + 1 := by
        cases c <;> first | exact hnext | cases hc
      rw [ih (by omega) (by omega), hgen, countP_cons_of_pos hc]
      omega

theorem startupGeneration_begin :
    0 < (b.call .beginStartupGeneration).startupGeneration ∧
      (b.call .beginStartupGeneration).startupGeneration < 2 ^ 64 := by
  show 0 < BackendInner.nextGeneration _ ∧ BackendInner.nextGeneration _ < 2 ^ 64
  unfold BackendInner.nextGeneration
  omega

/-- Running needs a commit of the latest generation, and a replaced one changes nothing, unless so
many began since that its number is in use again. -/
theorem running_committed (h : ∀ c ∈ calls, c.LeavesReady) :
    let s := b.run (.beginStartupGeneration :: calls)
    (s.state = .running →
      (∃ front back, .beginStartupGeneration :: calls = front ++ .beginStartupGeneration :: back ∧
        Committed (b.run (front ++ [.beginStartupGeneration])).startupGeneration back) ∧
      s.inputs.wantRunning = true ∧ s.blocked = false ∧ s.loggedOut = false) ∧
    ∀ front back, .beginStartupGeneration :: calls = front ++ .beginStartupGeneration :: back →
      0 < back.countP Call.isBegin → back.countP Call.isBegin < 2 ^ 64 - 1 →
      let older := (b.run (front ++ [.beginStartupGeneration])).startupGeneration
      s.call (.commitStartupGeneration older) = s ∧ s.call (.cancelStartupGeneration older) = s := by
  refine ⟨fun hrunning => ?_, fun front back heq hpos hlt => ?_⟩
  · obtain ⟨front, back, heq, hsince⟩ := since_of_run b calls h
    obtain ⟨hready, hflags⟩ := hsince.running hrunning
    exact ⟨⟨front, back, heq, hsince.ready hready⟩, hflags⟩
  · have holder : ∀ g, g = (b.run (front ++ [.beginStartupGeneration])).startupGeneration →
        (b.run (.beginStartupGeneration :: calls)).startupGeneration ≠ g := by
      rintro g rfl
      have hrun : b.run (.beginStartupGeneration :: calls) =
          (b.run (front ++ [.beginStartupGeneration])).run back := by
        rw [heq, BackendInner.run, BackendInner.run, BackendInner.run, ← foldl_append]
        simp
      have hbounds : 0 < (b.run (front ++ [.beginStartupGeneration])).startupGeneration ∧
          (b.run (front ++ [.beginStartupGeneration])).startupGeneration < 2 ^ 64 := by
        rw [BackendInner.run, foldl_append]
        exact startupGeneration_begin _
      rw [hrun, startupGeneration_run back hbounds.1 hbounds.2]
      omega
    exact ⟨if_pos (holder _ rfl), if_pos (holder _ rfl)⟩

/-- The first startup generation is committed, and the backend runs. -/
theorem running_committed_first :
    let calls := [.updateInputs fun i => { i with netmapPresent := true, machineAuthorized := true },
      .commitStartupGeneration 1]
    (({} : BackendInner).run (.beginStartupGeneration :: calls)).state = .running ∧
      ∃ front back, .beginStartupGeneration :: calls = front ++ .beginStartupGeneration :: back ∧
        Committed (({} : BackendInner).run (front ++ [.beginStartupGeneration])).startupGeneration
          back := by
  have hrunning : (({} : BackendInner).run [.beginStartupGeneration,
      .updateInputs fun i => { i with netmapPresent := true, machineAuthorized := true },
      .commitStartupGeneration 1]).state = .running := by decide
  exact ⟨hrunning, ((running_committed {} _ (by simp [Call.LeavesReady])).1 hrunning).1⟩

theorem run_begins (n : ℕ) :
    let s := ({} : BackendInner).run (.beginStartupGeneration :: .replicate n .beginStartupGeneration)
    s.blocked = true ∧ s.startupGeneration = n % (2 ^ 64 - 1) + 1 := by
  induction n with
  | zero => decide
  | succ n ih =>
    dsimp only [BackendInner.run] at ih ⊢
    rw [replicate_succ', ← cons_append, foldl_append]
    refine ⟨rfl, ?_⟩
    show BackendInner.nextGeneration _ = _
    rw [ih.2, BackendInner.nextGeneration]
    omega

theorem commit_of_run_begins {n : ℕ} (hn : n % (2 ^ 64 - 1) = 0) :
    let s := ({} : BackendInner).run (.beginStartupGeneration :: .replicate n .beginStartupGeneration)
    s.call (.commitStartupGeneration 1) ≠ s := by
  intro s heq
  obtain ⟨hblocked, hgen⟩ := run_begins n
  have hopen : (s.call (.commitStartupGeneration 1)).blocked = false := by
    rw [BackendInner.call, if_neg (not_not.mpr (by rw [hgen, hn]))]
    rfl
  rw [heq] at hopen
  exact absurd (hblocked.symm.trans hopen) (by decide)

/-- The number of the first generation comes back. -/
theorem startupGeneration_reused :
    let first := (({} : BackendInner).run [.beginStartupGeneration]).startupGeneration
    let s := ({} : BackendInner).run
      (.beginStartupGeneration :: .replicate (2 ^ 64 - 1) .beginStartupGeneration)
    s.call (.commitStartupGeneration first) ≠ s :=
  commit_of_run_begins (Nat.mod_self _)

end Rustscale.Ipn
