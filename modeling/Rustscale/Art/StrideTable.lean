import Rustscale.Art.Prefix
import Rustscale.Lib.Allotment

/-! The 8-bit stride table: a flattened binary tree of route ids with up to 256 child strides. -/
namespace Rustscale.Art
open Octets Allotment Nat Function

abbrev RouteId := ℕ

/-- Failed `assert!`s and `expect`s, and array indices out of bounds. -/
inductive Panic where
  | metadataOutOfSync
  | liveRouteEntry
  | recordedPathExists
  | childJustCreated
  | oneChildHasChild
  | rootedPrefixHasValue
  | indexOutOfBounds
  deriving DecidableEq, Repr

def firstHostIndex : ℕ := 1 <<< 8

structure StrideTable where
  pfx : IpPrefix
  entries : ℕ → Option RouteId
  children : Byte → Option StrideTable
  routeRefs : ℕ
  childRefs : ℕ

def prefixIndex (addr : Byte) (prefixLen : ℕ) : ℕ :=
  (addr.toNat >>> (8 - prefixLen)) + 1 <<< prefixLen

def hostIndex (addr : Byte) : ℕ := addr.toNat + firstHostIndex

def parentIndex (index : ℕ) : Option ℕ := if index = 1 then none else some (index >>> 1)

def childPrefixOf (parent : IpPrefix) (stride : Byte) : IpPrefix :=
  .fromOctets (update parent.octets (parent.bits / 8) stride) parent.isIpv6 (parent.bits + 8)

namespace StrideTable

def new (pfx : IpPrefix) : StrideTable where
  pfx := pfx
  entries := fun _ => none
  children := fun _ => none
  routeRefs := 0
  childRefs := 0

variable (t : StrideTable) (addr : Byte)

def putChild (child : Option StrideTable) : StrideTable :=
  { t with children := update t.children addr child }

/-- The updated table, the child at `addr`, and whether it was created. -/
def getOrCreateChild : StrideTable × StrideTable × Bool :=
  match t.children addr with
  | some child => (t, child, false)
  | none =>
    let child := new (childPrefixOf t.pfx addr)
    ({ t.putChild addr (some child) with childRefs := t.childRefs + 1 }, child, true)

def setChild (child : StrideTable) : StrideTable :=
  let childRefs := if (t.children addr).isNone then t.childRefs + 1 else t.childRefs
  { t.putChild addr (some child) with childRefs := childRefs }

def deleteChild : StrideTable :=
  let childRefs := if (t.children addr).isSome then t.childRefs - 1 else t.childRefs
  { t.putChild addr none with childRefs := childRefs }

/-- The first child in slot order. The caller overwrites the emptied table. -/
def takeFirstChild : Except Panic StrideTable :=
  match (List.range 256).findSome? fun i => t.children (BitVec.ofNat 8 i) with
  | some child => .ok child
  | none => .error .oneChildHasChild

def hasPrefixRootedAt (index : ℕ) : Bool :=
  match t.entries index with
  | none => false
  | some value =>
    match parentIndex index with
    | none => true
    | some parent => decide (t.entries parent ≠ some value)

def insert (prefixLen : ℕ) (route : RouteId) : StrideTable × Option RouteId :=
  let index := prefixIndex addr prefixLen
  let previous := if t.hasPrefixRootedAt index then t.entries index else none
  let routeRefs := if previous.isNone then t.routeRefs + 1 else t.routeRefs
  let entries := allot firstHostIndex t.entries index (t.entries index) (some route)
  ({ t with entries := entries, routeRefs := routeRefs }, previous)

def delete (prefixLen : ℕ) : Except Panic (Option (StrideTable × RouteId)) :=
  let index := prefixIndex addr prefixLen
  if !t.hasPrefixRootedAt index then .ok none
  else match t.entries index with
    | none => .error .rootedPrefixHasValue
    | some old =>
      let parent := (parentIndex index).bind t.entries
      let entries := allot firstHostIndex t.entries index (some old) parent
      .ok (some ({ t with entries := entries, routeRefs := t.routeRefs - 1 }, old))

def getValAndChild : Option RouteId × Option StrideTable :=
  (t.entries (hostIndex addr), t.children addr)

@[simp] theorem new_pfx (p : IpPrefix) : (new p).pfx = p := rfl
section
variable (t : StrideTable) (b : Byte) (c : Option StrideTable)

@[simp] theorem putChild_pfx : (t.putChild b c).pfx = t.pfx := rfl
@[simp] theorem putChild_childRefs : (t.putChild b c).childRefs = t.childRefs := rfl
@[simp] theorem putChild_children_self : (t.putChild b c).children b = c := update_self ..

end

theorem putChild_children_of_ne {a b : Byte} (c : Option StrideTable) (h : a ≠ b) :
    (t.putChild b c).children a = t.children a := update_of_ne h ..

def IsChild (c t : StrideTable) : Prop := ∃ b, t.children b = some c

theorem isChild_wf : WellFounded IsChild := by
  refine ⟨fun t => ?_⟩
  refine @rec (fun t => Acc IsChild t) (fun o => ∀ c, o = some c → Acc IsChild c) ?_ ?_ ?_ t
  · intro _ _ children _ _ ih
    refine ⟨_, fun c hc => ?_⟩
    obtain ⟨b, hb⟩ := hc
    exact ih b c hb
  · nofun
  · intro c ih c' hc
    cases hc
    exact ih

instance : WellFoundedRelation StrideTable := ⟨IsChild, isChild_wf⟩

end StrideTable

section
variable (b : Byte)

theorem two_pow_le_prefixIndex (n : ℕ) : 2 ^ n ≤ prefixIndex b n := by
  unfold prefixIndex
  rw [shiftLeft_eq, one_mul]
  exact le_add_left _ _

theorem prefixIndex_pos (n : ℕ) : 0 < prefixIndex b n :=
  lt_of_lt_of_le (by positivity) (two_pow_le_prefixIndex b n)

/-- The node of a prefix is the ancestor of the node of each host it covers. -/
theorem prefixIndex_eq_div (n : ℕ) (hn : n ≤ 8) : prefixIndex b n = hostIndex b / 2 ^ (8 - n) := by
  have h8 : firstHostIndex = 2 ^ n * 2 ^ (8 - n) := by
    rw [← pow_add, Nat.add_sub_cancel' hn]
    rfl
  unfold prefixIndex hostIndex
  rw [h8, add_mul_div_right _ _ (by positivity), shiftRight_eq_div_pow, shiftLeft_eq, one_mul]

theorem hostIndex_lt : hostIndex b < 2 * firstHostIndex := by
  have := b.isLt
  have h8 : firstHostIndex = 256 := rfl
  unfold hostIndex
  omega

theorem prefixIndex_lt (n : ℕ) (hn : n ≤ 8) : prefixIndex b n < 2 * firstHostIndex := by
  rw [prefixIndex_eq_div b n hn]
  exact lt_of_le_of_lt (div_le_self _ _) (hostIndex_lt b)

theorem prefixIndex_lt_two_pow (n : ℕ) (hn : n ≤ 8) : prefixIndex b n < 2 ^ (n + 1) := by
  have hb : b.toNat >>> (8 - n) < 2 ^ n := by
    rw [shiftRight_eq_div_pow, div_lt_iff_lt_mul (by positivity), ← pow_add, Nat.add_sub_cancel' hn]
    exact b.isLt
  unfold prefixIndex
  rw [shiftLeft_eq, one_mul, pow_succ]
  omega

end

/-- Nodes determine the length and the leading bits of their prefix. -/
theorem prefixIndex_inj {a b : Byte} {m n : ℕ} (hm : m ≤ 8) (hn : n ≤ 8)
    (h : prefixIndex a m = prefixIndex b n) : m = n ∧ ∀ j < m, a.getMsbD j = b.getMsbD j := by
  have ha := two_pow_le_prefixIndex a m
  have hb := two_pow_le_prefixIndex b n
  have ha' := prefixIndex_lt_two_pow a m hm
  have hb' := prefixIndex_lt_two_pow b n hn
  have hmn : m = n := by
    have h1 : m < n + 1 := (Nat.pow_lt_pow_iff_right (by norm_num)).mp (lt_of_le_of_lt ha (h ▸ hb'))
    have h2 : n < m + 1 := (Nat.pow_lt_pow_iff_right (by norm_num)).mp (lt_of_le_of_lt hb (h ▸ ha'))
    omega
  subst hmn
  refine ⟨rfl, (shiftRight_eq_iff a b m hm).mp ?_⟩
  unfold prefixIndex at h
  omega

theorem prefixIndex_congr {a b : Byte} {n : ℕ} (hn : n ≤ 8)
    (h : ∀ j < n, a.getMsbD j = b.getMsbD j) : prefixIndex a n = prefixIndex b n := by
  unfold prefixIndex
  rw [(shiftRight_eq_iff a b n hn).mpr h]

theorem hasPrefixRootedAt_eq (t : StrideTable) (i : ℕ) :
    t.hasPrefixRootedAt i = (rootAt t.entries i).isSome := by
  unfold StrideTable.hasPrefixRootedAt parentIndex rootAt
  rw [shiftRight_one]
  cases he : t.entries i with
  | none => simp
  | some v =>
    by_cases hi : i = 1
    · simp [hi]
    · by_cases hp : t.entries (i / 2) = some v <;> simp [hi, hp]

end Rustscale.Art
