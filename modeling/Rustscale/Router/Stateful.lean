import Rustscale.Lib.Undo
import Rustscale.Router.Config

/-! The router of Linux: it runs commands on the tables of the kernel, undoes what it can when one
fails, and keeps the rest for later. -/
namespace Rustscale.Router
open Tsaddr Undo

inductive Family where
  | v4
  | v6
  deriving DecidableEq

/-- What the commands of a router put and take. -/
inductive Item where
  | addr (ip : IpAddr)
  | route (pfx : IpPrefix)
  | throwRoute (pfx : IpPrefix)
  | directBlock (family : Family)
  | policyRule (family : Family) (index : Fin 4)
  | linkUp
  deriving DecidableEq

/-- The table of the routes holds one route for each prefix. -/
inductive Slot where
  | addr (ip : IpAddr)
  | net (pfx : IpPrefix)
  | directBlock (family : Family)
  | policyRule (family : Family) (index : Fin 4)
  | link
  deriving DecidableEq

def Item.slot : Item → Slot
  | .addr ip => .addr ip
  | .route pfx => .net pfx
  | .throwRoute pfx => .net pfx
  | .directBlock family => .directBlock family
  | .policyRule family index => .policyRule family index
  | .linkUp => .link

/-- Whether the command is given `-6`. -/
def Item.isIpv6 : Item → Bool
  | .addr ip => !ip.isIpv4
  | .route pfx | .throwRoute pfx => !pfx.addr.isIpv4
  | .directBlock family | .policyRule family _ => family == .v6
  | .linkUp => false

def Item.isRule : Item → Bool
  | .directBlock _ | .policyRule _ _ => true
  | _ => false

abbrev CommandSpec := Undo.Command Item

/-- What a failed command prints. `silent` is no text, with the exit code 2 or 254. -/
inductive Failure where
  | alreadyExists
  | missing
  | familyUnsupported
  | silent
  | other
  deriving DecidableEq

/-- Why a call fails, with what the rollback could not undo. -/
inductive RouterError where
  | invalidPrefix (pfx : IpPrefix)
  | blockVerification (expected : Bool) (family : Family)
  | command (spec : CommandSpec) (failure : Failure)
  | check (family : Family)
  | transaction (primary : RouterError) (rollback : List RouterError)

/-- A kernel without IPv6 refuses any IPv6 command. What a removal does not find is no error; `ip
rule del` may say so by its exit code alone. Setting the link down is no removal. -/
def RouterError.nonFatal : RouterError → Bool
  | .command spec .familyUnsupported => spec.item.isIpv6
  | .command spec .missing => !spec.puts && spec.item != .linkUp
  | .command spec .silent => !spec.puts && spec.item.isRule
  | _ => false

/-- The commands that fail for reasons of their own, by their numbers, and the checks. -/
structure Faults where
  command : ℕ → CommandSpec → Option Failure
  check : ℕ → Bool

/-- The tables of the kernel, and the number of commands so far. -/
structure Kernel where
  table : Slot → Option Item
  issued : ℕ

abbrev Outcome := Option RouterError

/-- Run a command. It may fail for a reason of its own, and has no effect then. A link can be set
down twice. -/
def Kernel.run (fails : Faults) (k : Kernel) (spec : CommandSpec) : Outcome × Kernel :=
  match fails.command k.issued spec with
  | some failure => (some (.command spec failure), ⟨k.table, k.issued + 1⟩)
  | none =>
    match answer (k.table spec.item.slot) spec with
    | .done => (none, ⟨perform Item.slot k.table spec, k.issued + 1⟩)
    | .occupied => (some (.command spec .alreadyExists), ⟨k.table, k.issued + 1⟩)
    | .absent =>
      (if spec.item = .linkUp then none else some (.command spec .missing),
        ⟨k.table, k.issued + 1⟩)

def families : List Family := [.v4, .v6]

/-- Rules are removed in the reverse order, for each family. -/
def policyRules (add : Bool) : List CommandSpec :=
  families.flatMap fun family =>
    (if add then [0, 1, 2, 3] else [3, 2, 1, 0]).map fun i => ⟨add, .policyRule family i⟩

def commands : RouterOperation → List CommandSpec
  | .up => policyRules false ++ policyRules true ++ [put .linkUp]
  | .down => take .linkUp :: policyRules false
  | .addAddr addr => [put (.addr addr)]
  | .removeAddr addr => [take (.addr addr)]
  | .addRoute pfx => [put (.route pfx)]
  | .removeRoute pfx => [take (.route pfx)]
  | .addLocalRoute pfx => [put (.throwRoute pfx)]
  | .removeLocalRoute pfx => [take (.throwRoute pfx)]
  | .addExitRoutes => [put (.route allIpv4), put (.route allIpv6)]
  | .removeExitRoutes => [take (.route allIpv4), take (.route allIpv6)]
  | .enableDirectBlock => families.map fun family => put (.directBlock family)
  | .disableDirectBlock => families.map fun family => take (.directBlock family)

/-- The router: what it has recorded, and what is pending from failed calls. -/
structure StatefulRouter where
  kernel : Kernel
  config : Option RouterConfig
  isUp : Bool
  pendingCleanup : List CommandSpec
  directBlocked : Bool

/-- Up to the first command that fails; the inverses of those done come back, the last first. -/
def runForward (fails : Faults) : List (CommandSpec × CommandSpec) → Kernel → List CommandSpec →
    Outcome × Kernel × List CommandSpec
  | [], k, rollback => (none, k, rollback)
  | (spec, inverse) :: rest, k, rollback =>
    match k.run fails spec with
    | (none, k) => runForward fails rest k (inverse :: rollback)
    | (some error, k) =>
      if error.nonFatal then runForward fails rest k rollback else (some error, k, rollback)

/-- Run all the commands; those that fail come back, with their errors. -/
def runAll (fails : Faults) : List CommandSpec → Kernel →
    Kernel × List CommandSpec × List RouterError
  | [], k => (k, [], [])
  | spec :: rest, k =>
    match k.run fails spec with
    | (none, k) => runAll fails rest k
    | (some error, k) =>
      if error.nonFatal then runAll fails rest k
      else
        let (k, kept, errors) := runAll fails rest k
        (k, spec :: kept, error :: errors)

namespace StatefulRouter

variable (fails : Faults)

def apply (operations : List RouterOperation) (r : StatefulRouter) : Outcome × StatefulRouter :=
  let pairs := operations.flatMap fun operation =>
    (commands operation).zip (commands operation.inverse)
  match runForward fails pairs r.kernel [] with
  | (none, k, _) => (none, { r with kernel := k })
  | (some error, k, rollback) =>
    let (k, kept, errors) := runAll fails rollback k
    (some (if errors.isEmpty then error else .transaction error errors),
      { r with kernel := k, pendingCleanup := r.pendingCleanup ++ kept })

def applyTeardown (operations : List RouterOperation) (r : StatefulRouter) :
    Outcome × StatefulRouter :=
  let (k, _, errors) := runAll fails (operations.flatMap commands) r.kernel
  (errors.head?, { r with kernel := k })

/-- Ask for the rule of each family, up to the first one that is not as expected. -/
def verifyFamilies (fails : Faults) (expected : Bool) : List Family → Kernel → Outcome × Kernel
  | [], k => (none, k)
  | family :: rest, k =>
    let k' : Kernel := ⟨k.table, k.issued + 1⟩
    if fails.check k.issued then (some (.check family), k')
    else if (k.table (.directBlock family)).isSome = expected then verifyFamilies fails expected rest k'
    else (some (.blockVerification expected family), k')

def verifyDirectBlock (expected : Bool) (r : StatefulRouter) : Outcome × StatefulRouter :=
  let (outcome, k) := verifyFamilies fails expected families r.kernel
  (outcome, { r with kernel := k })

variable (r : StatefulRouter)

def retryPendingCleanup : Outcome × StatefulRouter :=
  let (k, kept, errors) := runAll fails r.pendingCleanup r.kernel
  (errors.head?, { r with kernel := k, pendingCleanup := kept })

def forgetSupersededCleanup (replacements : List CommandSpec) (r : StatefulRouter) :
    StatefulRouter :=
  { r with pendingCleanup := r.pendingCleanup.filter (· ∉ replacements) }

def set (config : RouterConfig) (r : StatefulRouter) : Outcome × StatefulRouter :=
  match r.retryPendingCleanup fails with
  | (some error, r) => (some error, r)
  | (none, r) =>
    match config.normalized with
    | .error pfx => (some (.invalidPrefix pfx), r)
    | .ok config =>
      match r.apply fails (diff r.config config).operations with
      | (some error, r) => (some error, r)
      | (none, r) => (none, { r with config := some config })

/-- The second half of `block_direct`: a block is installed, and verified. -/
def installBlock : Outcome × StatefulRouter :=
  match r.apply fails [.enableDirectBlock] with
  | (some error, r) => (some error, r)
  | (none, r) =>
    match { r with directBlocked := true }.verifyDirectBlock fails true with
    | (some error, r) => (some error, r)
    | (none, r) => (none, r.forgetSupersededCleanup (commands .enableDirectBlock))

def blockDirect : Outcome × StatefulRouter :=
  if r.directBlocked then
    match r.verifyDirectBlock fails true with
    | (none, r) => (none, r.forgetSupersededCleanup (commands .enableDirectBlock))
    | (some _, r) =>
      -- what is left of the block is removed first
      match r.apply fails [.disableDirectBlock] with
      | (some error, r) => (some error, r)
      | (none, r) => { r with directBlocked := false }.installBlock fails
  else r.installBlock fails

/-- The disable commands, and the check that they had their effect. -/
def removeBlock : Outcome × StatefulRouter :=
  match r.apply fails [.disableDirectBlock] with
  | (some error, r) => (some error, r)
  | (none, r) => r.verifyDirectBlock fails false

def unblockDirect : Outcome × StatefulRouter :=
  if !r.directBlocked then (none, r)
  else
    match r.removeBlock fails with
    | (none, r) => (none, { r with directBlocked := false })
    | (some primary, r) =>
      match r.blockDirect fails with
      | (none, r) => (some primary, r)
      | (some reblock, r) => (some (.transaction primary [reblock]), r)

/-- No state of a dead owner was adopted. -/
def close : Outcome × StatefulRouter :=
  if !r.isUp && r.config.isNone && r.pendingCleanup.isEmpty && !r.directBlocked then (none, r)
  else
    match r.blockDirect fails with
    | (some error, r) => (some error, r)
    | (none, r) =>
      let (pendingResult, r) := r.retryPendingCleanup fails
      let (teardownResult, r) := r.applyTeardown fails (diff r.config {}).teardownOperations
      match pendingResult.or teardownResult with
      | some error => (some error, if r.directBlocked then r else (r.blockDirect fails).2)
      | none => { r with config := none, isUp := false }.unblockDirect fails

end StatefulRouter

/-- The calls of a client. -/
inductive Call where
  | set (config : RouterConfig)
  | blockDirect
  | unblockDirect

namespace StatefulRouter

def call (r : StatefulRouter) (fails : Faults) : Call → Outcome × StatefulRouter
  | .set config => r.set fails config
  | .blockDirect => r.blockDirect fails
  | .unblockDirect => r.unblockDirect fails

/-- A run of calls, each with its own failures. -/
def calls (r : StatefulRouter) (run : List (Faults × Call)) : StatefulRouter :=
  run.foldl (fun r step => (r.call step.1 step.2).2) r

def upItems : List Item :=
  .linkUp :: families.flatMap fun family => [0, 1, 2, 3].map fun i => .policyRule family i

/-- A router at its start: the interface is up, with its rules, or not. -/
def new (isUp : Bool) : StatefulRouter where
  kernel := ⟨if isUp then upItems.foldl (fun t x => perform Item.slot t (put x)) fun _ => none
    else fun _ => none, 0⟩
  config := none
  isUp
  pendingCleanup := []
  directBlocked := false

end StatefulRouter

end Rustscale.Router
