import Rustscale.Tsaddr

/-! Router configurations and the operations that lead from one to another. -/
namespace Rustscale.Router
open Tsaddr

/-- Addresses, routes and bypasses that a router is to install. -/
structure RouterConfig where
  localAddrs : List IpAddr := []
  routes : List IpPrefix := []
  localRoutes : List IpPrefix := []
  exitNode : Bool := false
  deriving DecidableEq

/-- A change of the routing of the host, which may be several commands. -/
inductive RouterOperation where
  | up
  | down
  | addAddr (addr : IpAddr)
  | removeAddr (addr : IpAddr)
  | addRoute (pfx : IpPrefix)
  | removeRoute (pfx : IpPrefix)
  | addLocalRoute (pfx : IpPrefix)
  | removeLocalRoute (pfx : IpPrefix)
  | addExitRoutes
  | removeExitRoutes
  | enableDirectBlock
  | disableDirectBlock
  deriving DecidableEq

def RouterOperation.inverse : RouterOperation → RouterOperation
  | .up => .down
  | .down => .up
  | .addAddr addr => .removeAddr addr
  | .removeAddr addr => .addAddr addr
  | .addRoute pfx => .removeRoute pfx
  | .removeRoute pfx => .addRoute pfx
  | .addLocalRoute pfx => .removeLocalRoute pfx
  | .removeLocalRoute pfx => .addLocalRoute pfx
  | .addExitRoutes => .removeExitRoutes
  | .removeExitRoutes => .addExitRoutes
  | .enableDirectBlock => .disableDirectBlock
  | .disableDirectBlock => .enableDirectBlock

/-- What is to be removed and added between two configurations. -/
structure RouterDiff where
  removeAddrs : List IpAddr
  addAddrs : List IpAddr
  removeRoutes : List IpPrefix
  addRoutes : List IpPrefix
  removeLocalRoutes : List IpPrefix
  addLocalRoutes : List IpPrefix
  removeExitRoutes : Bool
  addExitRoutes : Bool
  deriving DecidableEq

namespace RouterDiff

def operations (d : RouterDiff) : List RouterOperation :=
  (if d.removeExitRoutes then [.removeExitRoutes] else []) ++
    -- bypasses come before stale ones go, and routes before bypasses go
    d.addLocalRoutes.map .addLocalRoute ++ d.addRoutes.map .addRoute ++
    d.removeLocalRoutes.map .removeLocalRoute ++ d.removeRoutes.map .removeRoute ++
    d.removeAddrs.map .removeAddr ++ d.addAddrs.map .addAddr ++
    if d.addExitRoutes then [.addExitRoutes] else []

def teardownOperations (d : RouterDiff) : List RouterOperation :=
  (if d.removeExitRoutes then [.removeExitRoutes] else []) ++ d.removeRoutes.map .removeRoute ++
    d.removeLocalRoutes.map .removeLocalRoute ++ d.removeAddrs.map .removeAddr ++ [.down]

end RouterDiff

/-- The bits of an address that a prefix of this length keeps. -/
def maskIp (ip : IpAddr) (bits : ℕ) : IpAddr :=
  match ip with
  | .v4 a => .v4 (a &&& (BitVec.allOnes 32 <<< (32 - bits)))
  | .v6 a => .v6 (a &&& (BitVec.allOnes 128 <<< (128 - bits)))

/-- The error is that of a prefix that is too long for its family. -/
def normalizePrefixes (prefixes : List IpPrefix) : Except IpPrefix (List IpPrefix) :=
  prefixes.mapM fun pfx =>
    let ip := normalizeIp pfx.addr
    if (if ip.isIpv4 then 32 else 128) < pfx.bits then .error ⟨ip, pfx.bits⟩
    else .ok ⟨maskIp ip pfx.bits, pfx.bits⟩

def RouterConfig.normalized (config : RouterConfig) : Except IpPrefix RouterConfig := do
  let localAddrs := dedup ((config.localAddrs.map normalizeIp).mergeSort ipLe)
  let routes ← normalizePrefixes config.routes
  let localRoutes ← normalizePrefixes config.localRoutes
  return {
    localAddrs
    routes := dedup (sortPrefixes routes)
    localRoutes := dedup (sortPrefixes localRoutes)
    exitNode := config.exitNode }

def vecDifference {α : Type} [DecidableEq α] (left right : List α) : List α :=
  left.foldl (fun result item =>
    if item ∉ right ∧ item ∉ result then result ++ [item] else result) []

def diff (previous : Option RouterConfig) (next : RouterConfig) : RouterDiff :=
  let previous := previous.getD {}
  { removeAddrs := vecDifference previous.localAddrs next.localAddrs
    addAddrs := vecDifference next.localAddrs previous.localAddrs
    removeRoutes := vecDifference previous.routes next.routes
    addRoutes := vecDifference next.routes previous.routes
    removeLocalRoutes := vecDifference previous.localRoutes next.localRoutes
    addLocalRoutes := vecDifference next.localRoutes previous.localRoutes
    removeExitRoutes := previous.exitNode && !next.exitNode
    addExitRoutes := !previous.exitNode && next.exitNode }

@[simp] theorem mem_vecDifference {α : Type} [DecidableEq α] {left right : List α} {x : α} :
    x ∈ vecDifference left right ↔ x ∈ left ∧ x ∉ right := by
  suffices h : ∀ result : List α, x ∈ left.foldl (fun result item =>
      if item ∉ right ∧ item ∉ result then result ++ [item] else result) result ↔
        x ∈ result ∨ x ∈ left ∧ x ∉ right by
    simpa [vecDifference] using h []
  induction left with
  | nil => simp
  | cons item left ih =>
    intro result
    rw [List.foldl_cons, ih]
    split
    · next h =>
      simp only [List.mem_append, List.mem_cons, List.not_mem_nil, or_false]
      by_cases hx : x = item
      · subst hx
        simp [h.1]
      · simp [hx]
    · next h =>
      simp only [List.mem_cons]
      by_cases hx : x = item
      · subst hx
        tauto
      · simp [hx]

theorem nodup_vecDifference {α : Type} [DecidableEq α] (left right : List α) :
    (vecDifference left right).Nodup := by
  suffices h : ∀ result : List α, result.Nodup → (left.foldl (fun result item =>
      if item ∉ right ∧ item ∉ result then result ++ [item] else result) result).Nodup from
    h [] List.nodup_nil
  induction left with
  | nil => exact fun _ => id
  | cons item left ih =>
    intro result hresult
    refine ih _ ?_
    dsimp only
    split
    · next h => simpa using hresult.concat h.2
    · exact hresult

end Rustscale.Router
