import Rustscale.Art.StrideTable
import Mathlib.Data.List.AList

/-! The routing table: two stride trees, the route map and the arena of values with its free list.
-/
namespace Rustscale.Art
open Octets

structure Table (V : Type) where
  v4 : StrideTable
  v6 : StrideTable
  routes : AList fun _ : IpPrefix => RouteId
  values : List (Option V)
  /-- The free list is a stack; its top comes first. -/
  freeValues : List RouteId

/-- Byte `index` of an address; an IPv4 address has four of them. -/
def addrByteAt (addr : IpAddr) (index : ℕ) : Option Byte :=
  if index < addr.bitLen / 8 then some (addr.octets index) else none

/-- `insert_into` from `current` on, which `bitsRemaining` bits of the prefix lie below. -/
def insertFrom (pfx : IpPrefix) (route : RouteId) (current : StrideTable)
    (byteIndex bitsRemaining : ℕ) : StrideTable × Option RouteId :=
  let finalByte := (pfx.bits - 1) / 8
  let finalBits := pfx.bits - finalByte * 8
  let finalStridePrefix := prefixAtByteBoundary pfx (finalByte * 8)
  if bitsRemaining ≤ 8 then current.insert (pfx.byteAt finalByte) finalBits route
  else
    let addr := pfx.byteAt byteIndex
    match _h : current.children addr with
    | none =>
      let (current, child, _) := current.getOrCreateChild addr
      let (child, result) :=
        { child with pfx := finalStridePrefix }.insert (pfx.byteAt finalByte) finalBits route
      (current.putChild addr (some child), result)
    | some child =>
      if !prefixStrictlyContains child.pfx pfx then
        let (intermediatePrefix, existingStride, newStride) := computePrefixSplit child.pfx pfx
        let intermediate := (StrideTable.new intermediatePrefix).setChild existingStride child
        if pfx.bits - intermediate.pfx.bits ≤ 8 then
          let (intermediate, result) :=
            intermediate.insert (pfx.byteAt finalByte) finalBits route
          (current.putChild addr (some intermediate), result)
        else
          let (intermediate, newChild, _) := intermediate.getOrCreateChild newStride
          let (newChild, result) :=
            { newChild with pfx := finalStridePrefix }.insert (pfx.byteAt finalByte) finalBits route
          (current.putChild addr (some (intermediate.putChild newStride (some newChild))), result)
      else
        let (child, result) :=
          insertFrom pfx route child (child.pfx.bits / 8) (pfx.bits - child.pfx.bits)
        (current.putChild addr (some child), result)
termination_by current
decreasing_by exact ⟨_, _h⟩

def insertInto (stride : StrideTable) (pfx : IpPrefix) (route : RouteId) :
    StrideTable × Option RouteId :=
  if pfx.bits = 0 then stride.insert 0 0 route else insertFrom pfx route stride 0 pfx.bits

/-- The descent of `delete_from`: the updated stride, the path below it and the removed id. -/
def deleteDescend (pfx : IpPrefix) (current : StrideTable) (byteIndex bitsRemaining : ℕ) :
    Except Panic (Option (StrideTable × List Byte × RouteId)) :=
  if 8 < bitsRemaining then
    let addr := pfx.byteAt byteIndex
    match _h : current.children addr with
    | none => .ok none
    | some child =>
      if pfx.bits < child.pfx.bits then .ok none
      else
        match deleteDescend pfx child (child.pfx.bits / 8) (pfx.bits - child.pfx.bits) with
        | .error e => .error e
        | .ok none => .ok none
        | .ok (some (child, path, removed)) =>
          .ok (some (current.putChild addr (some child), addr :: path, removed))
  else if !prefixStrictlyContains current.pfx pfx then .ok none
  else
    match current.delete (pfx.byteAt byteIndex) bitsRemaining with
    | .error e => .error e
    | .ok none => .ok none
    | .ok (some (current, removed)) => .ok (some (current, [], removed))
termination_by current
decreasing_by exact ⟨_, _h⟩

/-- Remove the strides along `path` that hold no route and at most one child. -/
def cleanEmptyStrides (stride : StrideTable) : List Byte → Except Panic StrideTable
  | [] => .ok stride
  | addr :: rest =>
    match stride.children addr with
    | none => .error .recordedPathExists
    | some child => do
      let child ← cleanEmptyStrides child rest
      let stride := stride.putChild addr (some child)
      if child.routeRefs ≠ 0 ∨ child.childRefs > 1 then pure stride
      else if child.childRefs = 0 then pure (stride.deleteChild addr)
      else do
        let replacement ← child.takeFirstChild
        pure (stride.setChild addr replacement)

def deleteFrom (stride : StrideTable) (pfx : IpPrefix) :
    Except Panic (StrideTable × Option RouteId) :=
  if pfx.bits = 0 then do
    match ← stride.delete 0 0 with
    | none => pure (stride, none)
    | some (stride, removed) => pure (stride, some removed)
  else do
    match ← deleteDescend pfx stride 0 pfx.bits with
    | none => pure (stride, none)
    | some (stride, path, removed) =>
      let stride ← cleanEmptyStrides stride path
      pure (stride, some removed)

/-- `matches[match_count] = Some(..)` on an array of sixteen entries. -/
def pushMatch (found : List (IpPrefix × RouteId)) (pfx : IpPrefix) :
    Option RouteId → Except Panic (List (IpPrefix × RouteId))
  | none => .ok found
  | some route =>
    if found.length < 16 then .ok (found ++ [(pfx, route)]) else .error .indexOutOfBounds

/-- The lookup loop of `get`: the strides on the path that hold a route for `addr`. -/
def collectMatches (addr : IpAddr) (stride : StrideTable) (byteIndex : ℕ)
    (found : List (IpPrefix × RouteId)) : Except Panic (List (IpPrefix × RouteId)) :=
  match addrByteAt addr byteIndex with
  | none => .error .indexOutOfBounds
  | some byte =>
    match pushMatch found stride.pfx (stride.getValAndChild byte).1 with
    | .error e => .error e
    | .ok found =>
      match _h : (stride.getValAndChild byte).2 with
      | none => .ok found
      | some child => collectMatches addr child (child.pfx.bits / 8) found
termination_by stride
decreasing_by exact ⟨_, _h⟩

namespace Table
variable {V : Type}

def new : Table V where
  v4 := .new ⟨.v4 0, 0⟩
  v6 := .new ⟨.v6 0, 0⟩
  routes := ∅
  values := []
  freeValues := []

variable (t : Table V)

def allocate (value : V) : Table V × RouteId :=
  match t.freeValues with
  | route :: rest =>
    ({ t with values := t.values.set route (some value), freeValues := rest }, route)
  | [] => ({ t with values := t.values ++ [some value] }, t.values.length)

def release (route : RouteId) : Except Panic (Table V × V) :=
  match t.values[route]? with
  | some (some value) =>
    .ok ({ t with values := t.values.set route none, freeValues := route :: t.freeValues }, value)
  | _ => .error .liveRouteEntry

def value (t : Table V) (route : RouteId) : Except Panic V :=
  match t.values[route]? with
  | some (some value) => .ok value
  | _ => .error .liveRouteEntry

def insert (t : Table V) (pfx : IpPrefix) (value : V) : Except Panic (Table V × Option V) :=
  let pfx := pfx.masked
  match t.routes.lookup pfx with
  | some route =>
    match t.values[route]? with
    | none => .error .indexOutOfBounds
    | some old => .ok ({ t with values := t.values.set route (some value) }, old)
  | none =>
    let (t, route) := t.allocate value
    let (t, replaced) :=
      if pfx.isIpv6 then
        let (v6, replaced) := insertInto t.v6 pfx route
        ({ t with v6 := v6 }, replaced)
      else
        let (v4, replaced) := insertInto t.v4 pfx route
        ({ t with v4 := v4 }, replaced)
    if replaced.isNone then .ok ({ t with routes := t.routes.insert pfx route }, none)
    else .error .metadataOutOfSync

def get (addr : IpAddr) : Except Panic (Option V) := do
  let root := if addr.isIpv6 then t.v6 else t.v4
  let found ← collectMatches addr root 0 []
  match found.reverse.find? fun m => m.1.contains addr with
  | none => pure none
  | some (_, route) => do
    let value ← t.value route
    pure (some value)

def getPrefix (pfx : IpPrefix) : Except Panic (Option V) :=
  match t.routes.lookup pfx.masked with
  | none => .ok none
  | some route => (t.value route).map some

def delete (pfx : IpPrefix) : Except Panic (Table V × Option V) :=
  let pfx := pfx.masked
  match t.routes.lookup pfx with
  | none => .ok (t, none)
  | some expected => do
    let t := { t with routes := t.routes.erase pfx }
    let (t, removed) ←
      if pfx.isIpv6 then do
        let (v6, removed) ← deleteFrom t.v6 pfx
        pure ({ t with v6 := v6 }, removed)
      else do
        let (v4, removed) ← deleteFrom t.v4 pfx
        pure ({ t with v4 := v4 }, removed)
    if removed ≠ some expected then .error .metadataOutOfSync
    else do
      let (t, value) ← t.release expected
      pure (t, some value)

def clear (_ : Table V) : Table V := new

end Table

/-- A prefix is an argument only as `IpPrefix::new` builds it. -/
inductive Op (V : Type) where
  | insert (pfx : {p : IpPrefix // p.Valid}) (value : V)
  | delete (pfx : {p : IpPrefix // p.Valid})
  | clear

/-- One operation and what it returns; `clear` returns nothing. -/
def Table.exec {V : Type} (t : Table V) : Op V → Except Panic (Table V × Option V)
  | .insert pfx value => t.insert pfx value
  | .delete pfx => t.delete pfx
  | .clear => .ok (t.clear, none)

def Table.run {V : Type} (t : Table V) : List (Op V) → Except Panic (Table V × List (Option V))
  | [] => .ok (t, [])
  | op :: ops => do
    let (t, out) ← t.exec op
    let (t, outs) ← t.run ops
    pure (t, out :: outs)

end Rustscale.Art
