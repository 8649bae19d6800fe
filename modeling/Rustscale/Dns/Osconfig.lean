import Mathlib.Data.List.DropRight
import Rustscale.IpAddr

/-! The systemd-resolved configurator: who owns the DNS settings of the TUN link when any
`resolvectl` command may fail, with or without its effect. -/
namespace Rustscale.Osconfig

open Prod

/-- A plan for the host: name servers, search domains and domains to match. -/
structure OsConfig where
  nameservers : List IpAddr
  searchDomains : List (List Char)
  matchDomains : List (List Char)
  deriving DecidableEq

/-- The settings of a link that are best effort. -/
inductive Mode where
  | llmnr
  | mdns
  | dnssec
  | dnsovertls
  deriving DecidableEq

/-- The commands the configurator runs; a mode is only ever set to `no`. -/
inductive Command where
  | dns (servers : List IpAddr)
  | domain (domains : List (List Char))
  | defaultRoute (yes : Bool)
  | mode (verb : Mode)
  | flushCaches
  | revert

/-- What the link carries of the configurator's making. -/
structure Link where
  servers : List IpAddr := []
  domains : List (List Char) := []
  defaultRoute : Option Bool := none
  off : List Mode := []
  deriving DecidableEq

/-- The settings a plan is about: the modes are best effort. -/
def Link.settings (l : Link) : List IpAddr × List (List Char) × Option Bool :=
  (l.servers, l.domains, l.defaultRoute)

/-- What the commands do to the link when they take effect. What the verb for domains does without
any is left open. -/
structure Resolvectl where
  after : Command → Link → Link
  dns : ∀ servers l, servers ≠ [] → after (.dns servers) l = { l with servers }
  domain : ∀ domains l, domains ≠ [] → after (.domain domains) l = { l with domains }
  defaultRoute : ∀ yes l, after (.defaultRoute yes) l = { l with defaultRoute := some yes }
  mode : ∀ verb l, (after (.mode verb) l).settings = l.settings
  flushCaches : ∀ l, after .flushCaches l = l
  revert : ∀ l, after .revert l = {}

/-- A command that fails may have had its effect. -/
structure Fault where
  message : String
  effective : Bool

/-- The host that the commands act on, with the number of commands run so far. -/
structure Runner where
  link : Link := {}
  calls : ℕ := 0
  deriving DecidableEq

/-- What the configurator remembers of the link. -/
structure Configurator where
  interface : String
  owned : Bool := false
  applied : Option OsConfig := none
  runner : Runner := {}

def trimDots (domain : List Char) : List Char := domain.rdropWhile (· == '.')

def asciiLower (domain : List Char) : List Char := domain.map Char.toLower

/-- Search domains come first; a routing domain that repeats one is left out. -/
def domainArgs (cfg : OsConfig) : List (List Char) :=
  let search := cfg.searchDomains.foldl (fun (acc : List (List Char) × List (List Char)) d =>
    let d := trimDots d
    if d ≠ [] ∧ asciiLower d ∉ acc.2 then (acc.1 ++ [d], asciiLower d :: acc.2) else acc) ([], [])
  (cfg.matchDomains.foldl (fun acc d =>
    let d := trimDots d
    if d = [] then (acc.1 ++ [['~', '.']], acc.2)
    else if asciiLower d ∉ acc.2 then (acc.1 ++ ['~' :: d], asciiLower d :: acc.2)
    else acc) search).1

/-- A routing-only root domain is the explicit global plan. -/
def isGlobal (cfg : OsConfig) : Bool := cfg.matchDomains.any fun d => (trimDots d).isEmpty

def unknownMethod (error : String) : Bool :=
  decide ("UnknownMethod".toList <:+: error.toList)

section Program
variable (R : Resolvectl) (faults : ℕ → Option Fault)

def run (c : Command) (r : Runner) : Except String Unit × Runner :=
  match faults r.calls with
  | none => (.ok (), ⟨R.after c r.link, r.calls + 1⟩)
  | some f =>
    (.error f.message, ⟨if f.effective then R.after c r.link else r.link, r.calls + 1⟩)

def bestEffort (r : Runner) : Runner :=
  [.mode .llmnr, .mode .mdns, .mode .dnssec, .mode .dnsovertls, .flushCaches].foldl
    (fun r c => (run R faults c r).2) r

def program (cfg : OsConfig) (r : Runner) : Except String Unit × Runner :=
  match run R faults (.dns cfg.nameservers) r with
  | (.error e, r) => (.error e, r)
  | (.ok (), r) =>
    match run R faults (.domain (domainArgs cfg)) r with
    | (.error e, r) => (.error e, r)
    | (.ok (), r) =>
      match run R faults (.defaultRoute (isGlobal cfg)) r with
      | (.ok (), r) => (.ok (), bestEffort R faults r)
      | (.error e, r) =>
        -- only the answer of a systemd that lacks the method is tolerated
        if unknownMethod e then (.ok (), bestEffort R faults r) else (.error e, r)

def restore (previous : Option OsConfig) (r : Runner) : Except String Unit × Runner :=
  match previous with
  | some cfg => program R faults cfg r
  | none => run R faults .revert r

def restoreAfterFailure (original : String) (previous : Option OsConfig) (s : Configurator) :
    Except String Unit × Configurator :=
  match restore R faults previous s.runner with
  | (.ok (), r) =>
    (.error original, { s with applied := previous, owned := previous.isSome, runner := r })
  | (.error restoreError, r) =>
    let failed := original ++ "; restoring previous DNS configuration failed: " ++ restoreError
    match run R faults .revert r with
    | (.ok (), r) =>
      (.error (failed ++ "; reverted link"),
        { s with applied := none, owned := false, runner := r })
    | (.error e, r) =>
      (.error (failed ++ "; RevertLink for " ++ s.interface ++ " also failed: " ++ e),
        { s with owned := true, runner := r })

def close (s : Configurator) : Except String Unit × Configurator :=
  if s.owned then
    match run R faults .revert s.runner with
    | (.ok (), r) => (.ok (), { s with owned := false, applied := none, runner := r })
    | (.error e, r) => (.error e, { s with runner := r })
  else (.ok (), s)

def setDns (cfg : OsConfig) (s : Configurator) : Except String Unit × Configurator :=
  if cfg.nameservers = [] then close R faults s
  else
    match program R faults cfg s.runner with
    | (.ok (), r) => (.ok (), { s with owned := true, applied := some cfg, runner := r })
    | (.error e, r) =>
      restoreAfterFailure R faults e s.applied { s with owned := true, runner := r }

/-- The calls of a client. -/
inductive Call where
  | setDns (cfg : OsConfig)
  | close

def call : Call → Configurator → Except String Unit × Configurator
  | .setDns cfg => setDns R faults cfg
  | .close => close R faults

/-- The state after the calls, whatever each of them returned. -/
def calls (cs : List Call) (s : Configurator) : Configurator :=
  cs.foldl (fun s c => (call R faults c s).2) s

end Program

section
variable {R : Resolvectl} {faults : ℕ → Option Fault} {r r' : Runner} {s s' : Configurator}
  {c : Command} {cfg : OsConfig} {e : String}

theorem run_ok (h : run R faults c r = (.ok (), r')) : r' = ⟨R.after c r.link, r.calls + 1⟩ := by
  unfold run at h
  split at h
  · exact (mk.inj h).2.symm
  · cases (mk.inj h).1

theorem run_error (h : run R faults c r = (.error e, r')) :
    ∃ f, faults r.calls = some f ∧ f.message = e ∧
      r'.link = if f.effective then R.after c r.link else r.link := by
  unfold run at h
  split at h
  · cases (mk.inj h).1
  · next f hf =>
    obtain ⟨he, rfl⟩ := mk.inj h
    exact ⟨f, hf, Except.error.inj he, rfl⟩

theorem bestEffort_settings (r : Runner) :
    (bestEffort R faults r).link.settings = r.link.settings := by
  have hstep : ∀ cs : List Command, (∀ c ∈ cs, ∀ l, (R.after c l).settings = l.settings) → ∀ r,
      (cs.foldl (fun r c => (run R faults c r).2) r).link.settings = r.link.settings := by
    intro cs
    induction cs with
    | nil => exact fun _ _ => rfl
    | cons c cs ih =>
      intro hcs r
      obtain ⟨hc, hcs⟩ := List.forall_mem_cons.mp hcs
      refine (ih hcs _).trans ?_
      dsimp only [run]
      split
      · exact hc _
      · next f _ =>
        cases f.effective
        · rfl
        · exact hc _
  apply hstep
  simp [R.mode, R.flushCaches]

/-- The third command of the plan finds no such method, and has no effect. -/
def NoDefaultRoute (faults : ℕ → Option Fault) (r : Runner) : Prop :=
  ∃ f, faults (r.calls + 2) = some f ∧ unknownMethod f.message = true ∧ f.effective = false

/-- What a plan that was programmed without an error leaves on the link. -/
def Carries (faults : ℕ → Option Fault) (cfg : OsConfig) (before : Runner) (l : Link) : Prop :=
  l.servers = cfg.nameservers ∧ l.domains = domainArgs cfg ∧
    (l.defaultRoute = some (isGlobal cfg) ∨ NoDefaultRoute faults before)

/-- After a successful run the link has the servers, the domains and, if supported, the route. -/
theorem program_ok (hs : cfg.nameservers ≠ []) (hd : domainArgs cfg ≠ [])
    (h : program R faults cfg r = (.ok (), r')) : Carries faults cfg r r'.link := by
  unfold program at h
  split at h
  · cases (mk.inj h).1
  next r1 h1 =>
  obtain rfl := run_ok h1
  split at h
  · cases (mk.inj h).1
  next r2 h2 =>
  obtain rfl := run_ok h2
  rw [R.dns _ _ hs, R.domain _ _ hd] at h
  have hkeeps : ∀ r3, (bestEffort R faults r3).link.settings = r3.link.settings :=
    bestEffort_settings
  simp only [Link.settings, mk.injEq] at hkeeps
  split at h
  · next r3 h3 =>
    obtain rfl := run_ok h3
    obtain ⟨-, rfl⟩ := mk.inj h
    simp [Carries, hkeeps, R.defaultRoute]
  · next e r3 h3 =>
    obtain ⟨f, hf, rfl, hl⟩ := run_error h3
    split at h
    · next hmissing =>
      obtain ⟨-, rfl⟩ := mk.inj h
      cases heff : f.effective with
      | false =>
        have hnone : NoDefaultRoute faults r := ⟨f, hf, hmissing, heff⟩
        simp [Carries, hkeeps, hl, heff, hnone]
      | true => simp [Carries, hkeeps, hl, heff, R.defaultRoute]
    · cases (mk.inj h).1

/-- A configurator that does not own the link has left nothing on it. -/
def Truthful (s : Configurator) : Prop := s.owned = false → s.runner.link = {}

theorem close_ok (hs : Truthful s) (h : (close R faults s).1 = .ok ()) :
    (close R faults s).2.runner.link = {} := by
  unfold close at h ⊢
  split_ifs at h ⊢ with ho
  · split at h
    · next r hr =>
      obtain rfl := run_ok hr
      exact R.revert _
    · cases h
  · exact hs (by simpa using ho)

theorem close_truthful (hs : Truthful s) : Truthful (close R faults s).2 := by
  intro hfree
  apply close_ok hs
  unfold close at hfree ⊢
  split_ifs at hfree ⊢ with ho
  · split at hfree
    · rfl
    · exact absurd hfree (by simp [ho])
  · rfl

theorem restoreAfterFailure_spec (previous : Option OsConfig) (s : Configurator) :
    (restoreAfterFailure R faults e previous s).1 ≠ .ok () ∧
      Truthful (restoreAfterFailure R faults e previous s).2 := by
  unfold restoreAfterFailure
  split
  · next r hr =>
    refine ⟨nofun, fun hfree => ?_⟩
    cases previous with
    | some cfg => cases hfree
    | none =>
      obtain rfl := run_ok hr
      exact R.revert _
  · dsimp only
    split
    · next r hr =>
      obtain rfl := run_ok hr
      exact ⟨nofun, fun _ => R.revert _⟩
    · exact ⟨nofun, nofun⟩

theorem setDns_truthful (cfg : OsConfig) (hs : Truthful s) :
    Truthful (setDns R faults cfg s).2 := by
  unfold setDns
  split_ifs
  · exact close_truthful hs
  · split
    · nofun
    · exact (restoreAfterFailure_spec _ _).2

theorem setDns_ok (hs : Truthful s) (h : (setDns R faults cfg s).1 = .ok ()) :
    if cfg.nameservers = [] then (setDns R faults cfg s).2.runner.link = {}
    else domainArgs cfg ≠ [] → Carries faults cfg s.runner (setDns R faults cfg s).2.runner.link := by
  unfold setDns at h ⊢
  split_ifs at h ⊢ with hn
  · exact close_ok hs h
  · intro hd
    split at h
    · next r hr => exact program_ok hn hd hr
    · exact absurd h (restoreAfterFailure_spec _ _).1

theorem calls_truthful (cs : List Call) : ∀ s, Truthful s → Truthful (calls R faults cs s) := by
  induction cs with
  | nil => exact fun _ hs => hs
  | cons c cs ih =>
    intro s hs
    apply ih
    cases c with
    | setDns cfg => exact setDns_truthful cfg hs
    | close => exact close_truthful hs

end

/-- The verbs as systemd documents them. -/
def systemd : Resolvectl where
  after
    | .dns servers, l => if servers = [] then l else { l with servers }
    | .domain domains, l => if domains = [] then l else { l with domains }
    | .defaultRoute yes, l => { l with defaultRoute := some yes }
    | .mode verb, l => { l with off := verb :: l.off }
    | .flushCaches, l => l
    | .revert, _ => {}
  dns _ _ h := if_neg h
  domain _ _ h := if_neg h
  defaultRoute _ _ := rfl
  mode _ _ := rfl
  flushCaches _ := rfl
  revert _ := rfl

def rootPlan : OsConfig := ⟨[.v4 0x64646464], [], [['.']]⟩

end Rustscale.Osconfig
