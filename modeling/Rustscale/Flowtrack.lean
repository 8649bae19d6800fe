import Mathlib.Data.List.AList
import Rustscale.Lib.Checks
import Rustscale.Lib.Dll
import Rustscale.Lib.Lru

/-! The cache of flows: a hash index into slots, a list of the slots by recency and a stack of free
slots. -/
namespace Rustscale.Flowtrack
open Checks Dll List Function AList Lru

variable {κ V : Type} [DecidableEq κ]

/-- Where the Rust code would panic. -/
inductive Panic where
  | invalidIndex
  deriving DecidableEq

abbrev Node (κ V : Type) := Cell (κ × V)

/-- The slots from `size` on were never used; `free` has its top first. -/
structure Cache (κ V : Type) [DecidableEq κ] where
  maxEntries : ℕ
  entries : AList fun _ : κ => ℕ
  nodes : Heap (κ × V)
  size : ℕ
  free : List ℕ
  front : Option ℕ
  back : Option ℕ

namespace Cache

def default : Cache κ V := ⟨0, ∅, fun _ => none, 0, [], none, none⟩

variable (c : Cache κ V)

def len : ℕ := c.entries.entries.length

variable (key : κ) (i : ℕ)

def node : Except Panic (Node κ V) := okOr (c.nodes i) .invalidIndex

def modifyNode (f : Node κ V → Node κ V) : Except Panic (Cache κ V) := do
  let n ← c.node i
  return { c with nodes := update c.nodes i (some (f n)) }

/-- Put `n` after the slot `i`, or at the front. -/
def setNext (i n : Option ℕ) : Except Panic (Cache κ V) :=
  match i with
  | some i => c.modifyNode i fun m => { m with next := n }
  | none => .ok { c with front := n }

/-- Put `p` before the slot `i`, or at the back. -/
def setPrev (i p : Option ℕ) : Except Panic (Cache κ V) :=
  match i with
  | some i => c.modifyNode i fun m => { m with prev := p }
  | none => .ok { c with back := p }

def unlink : Except Panic (Cache κ V) := do
  let n ← c.node i
  let c ← c.setNext n.prev n.next
  c.setPrev n.next n.prev

def pushFront : Except Panic (Cache κ V) := do
  let oldFront := c.front
  let c ← c.modifyNode i fun m => { m with prev := none, next := oldFront }
  let c ← c.setPrev oldFront (some i)
  return { c with front := some i }

def moveToFront : Except Panic (Cache κ V) :=
  if c.front = some i then .ok c else do
    let c ← c.unlink i
    c.pushFront i

def allocateNode (value : V) : Cache κ V × ℕ :=
  let node : Node κ V := ⟨(key, value), none, none⟩
  match c.free with
  | i :: free => ({ c with nodes := update c.nodes i (some node), free := free }, i)
  | [] => ({ c with nodes := update c.nodes c.size (some node), size := c.size + 1 }, c.size)

def removeIndex : Except Panic (Cache κ V) := do
  let n ← c.node i
  let c ← c.unlink i
  return { c with
    entries := c.entries.erase n.val.1
    nodes := update c.nodes i none
    free := i :: c.free }

def removeOldest : Except Panic (Cache κ V) :=
  match c.back with
  | some i => c.removeIndex i
  | none => .ok c

def get : Except Panic (Option V × Cache κ V) :=
  match c.entries.lookup key with
  | none => .ok (none, c)
  | some i => do
    let c ← c.moveToFront i
    let n ← c.node i
    return (some n.val.2, c)

/-- A hit, with what the caller writes through the reference it gets. -/
def getMut (write : V → V) : Except Panic (Option V × Cache κ V) :=
  match c.entries.lookup key with
  | none => .ok (none, c)
  | some i => do
    let c ← c.moveToFront i
    let n ← c.node i
    let c ← c.modifyNode i fun m => { m with val := (m.val.1, write m.val.2) }
    return (some n.val.2, c)

def remove : Except Panic (Cache κ V) :=
  match c.entries.lookup key with
  | some i => c.removeIndex i
  | none => .ok c

def add (value : V) : Except Panic (Cache κ V) :=
  match c.entries.lookup key with
  | some i => do
    let c ← c.modifyNode i fun m => { m with val := (m.val.1, value) }
    c.moveToFront i
  | none => do
    let (c, i) := c.allocateNode key value
    let c ← { c with entries := c.entries.insert key i }.pushFront i
    if c.maxEntries ≠ 0 ∧ c.maxEntries < c.len then c.removeOldest else .ok c

end Cache

abbrev Item (κ V : Type) := ℕ × κ × V

def slots (items : List (Item κ V)) : List ℕ := items.map Prod.fst

def keys (items : List (Item κ V)) : List κ := items.map fun x => x.2.1

omit [DecidableEq κ] in
theorem mem_slots {x : Item κ V} {items : List (Item κ V)} (h : x ∈ items) : x.1 ∈ slots items :=
  mem_map_of_mem h

omit [DecidableEq κ] in
theorem mem_keys {i : ℕ} {k : κ} {v : V} {items : List (Item κ V)} (h : (i, k, v) ∈ items) :
    k ∈ keys items :=
  mem_map.mpr ⟨_, h, rfl⟩

/-- The slots, the links and the index of a cache stand for a list of items. -/
structure Cache.Rep (c : Cache κ V) (items : List (Item κ V)) : Prop where
  front : c.front = first items none
  back : c.back = last none items
  seg : Seg c.nodes none none items
  vacant : ∀ i ∉ slots items, c.nodes i = none
  slotsNodup : (slots items).Nodup
  keysNodup : (keys items).Nodup
  index : ∀ k i, c.entries.lookup k = some i ↔ ∃ v, (i, k, v) ∈ items
  free : c.free.Nodup ∧ ∀ i, i ∈ c.free ↔ i < c.size ∧ i ∉ slots items
  used : ∀ i ∈ slots items, i < c.size

section Links
variable {c : Cache κ V} {items l r : List (Item κ V)} {x : Item κ V} {n p : Option ℕ}

section
variable {i : ℕ} {m : Node κ V} (h : c.nodes i = some m)
include h

theorem Cache.node_eq : c.node i = .ok m := by
  simp [node, h]

theorem Cache.modifyNode_eq (f : Node κ V → Node κ V) :
    c.modifyNode i f = .ok { c with nodes := update c.nodes i (some (f m)) } := by
  rw [modifyNode, node_eq h]
  rfl

end

theorem Cache.setNext_spec (hs : Seg c.nodes none n l) (hl : (slots l).Nodup)
    (hf : c.front = first l n) (n' : Option ℕ) :
    ∃ h', c.setNext (last none l) n' = .ok { c with nodes := h', front := first l n' } ∧
      Seg h' none n' l ∧ ∀ i ∉ slots l, h' i = c.nodes i := by
  obtain rfl | ⟨l, y, rfl⟩ := l.eq_nil_or_concat
  · exact ⟨c.nodes, rfl, trivial, fun _ _ => rfl⟩
  · rw [concat_eq_append] at *
    have hy : y.1 ∉ slots l := by
      rw [slots, map_append, nodup_append] at hl
      exact fun hm => hl.2.2 y.1 hm y.1 (by simp) rfl
    refine ⟨_, ?_, hs.setNext hy n', fun i hi => update_of_ne ?_ _ _⟩
    · rw [last_concat]
      have hf' : c.front = first (l ++ [y]) n' := by
        rw [hf]
        cases l <;> rfl
      simp only [setNext, modifyNode_eq (Seg.get hs), ← hf']
    · rintro rfl
      exact hi (by simp [slots])

theorem Cache.setPrev_spec (hs : Seg c.nodes p none r) (hr : (slots r).Nodup)
    (hb : c.back = last p r) (p' : Option ℕ) :
    ∃ h', c.setPrev (first r none) p' = .ok { c with nodes := h', back := last p' r } ∧
      Seg h' p' none r ∧ ∀ i ∉ slots r, h' i = c.nodes i := by
  cases r with
  | nil => exact ⟨c.nodes, rfl, trivial, fun _ _ => rfl⟩
  | cons y r =>
    have hy : y.1 ∉ slots r := (nodup_cons.mp hr).1
    refine ⟨_, ?_, hs.setPrev hy p', fun i hi => update_of_ne ?_ _ _⟩
    · have hb' : c.back = last p' (y :: r) := by rw [hb, last_cons, last_cons]
      simp only [first_cons, setPrev, modifyNode_eq hs.1, ← hb']
    · rintro rfl
      exact hi (by simp [slots])

omit [DecidableEq κ] in
theorem slots_append (l r : List (Item κ V)) : slots (l ++ r) = slots l ++ slots r :=
  map_append

/-- Unlinking takes one node out of the list. -/
theorem Cache.unlink_spec (hs : Seg c.nodes none none (l ++ x :: r))
    (hn : (slots (l ++ x :: r)).Nodup) (hf : c.front = first (l ++ x :: r) none)
    (hb : c.back = last none (l ++ x :: r)) :
    ∃ h', c.unlink x.1 = .ok { c with
        nodes := h', front := first (l ++ r) none, back := last none (l ++ r) } ∧
      Seg h' none none (l ++ r) ∧ ∀ i ∉ slots (l ++ r), h' i = c.nodes i := by
  rw [slots_append, nodup_append] at hn
  obtain ⟨hl, hr, hd⟩ := hn
  obtain ⟨hsl, hsx, hsr⟩ := (seg_append l (x :: r)).mp hs
  rw [first_append, first_cons] at hf
  obtain ⟨h1, e1, hl1, frame1⟩ := setNext_spec hsl hl hf (first r none)
  have hr1 : Seg h1 (some x.1) none r := hsr.congr fun y hy => frame1 _ fun hy' =>
    hd y.1 hy' y.1 (mem_cons_of_mem _ (mem_map_of_mem hy)) rfl
  obtain ⟨h2, e2, hr2, frame2⟩ := setPrev_spec (c := { c with
    nodes := h1, front := first l (first r none) }) hr1 (nodup_cons.mp hr).2
    (hb.trans (by rw [last_append, last_cons])) (last none l)
  refine ⟨h2, ?_, (seg_append l r).mpr ⟨hl1.congr fun y hy => frame2 _ fun hy' => ?_, hr2⟩,
    fun i hi => ?_⟩
  · rw [unlink, node_eq hsx, ok_bind, e1, ok_bind, e2, first_append, last_append]
  · exact hd y.1 (mem_map_of_mem hy) y.1 (mem_cons_of_mem _ hy') rfl
  · rw [slots_append, mem_append, not_or] at hi
    exact (frame2 i hi.2).trans (frame1 i hi.1)

/-- Pushing puts a node at the front of the list. -/
theorem Cache.pushFront_spec {i : ℕ} {m : Node κ V} (hs : Seg c.nodes none none items)
    (hn : (slots items).Nodup) (hf : c.front = first items none) (hb : c.back = last none items)
    (hm : c.nodes i = some m) (hi : i ∉ slots items) :
    ∃ h', c.pushFront i = .ok { c with
        nodes := h', front := some i, back := last none ((i, m.val) :: items) } ∧
      Seg h' none none ((i, m.val) :: items) ∧ ∀ j ∉ i :: slots items, h' j = c.nodes j := by
  have hne : ∀ y ∈ items, y.1 ≠ i := fun y hy heq => hi (heq ▸ mem_map_of_mem hy)
  let h1 := update c.nodes i (some { m with prev := none, next := c.front })
  let c1 : Cache κ V := { c with nodes := h1 }
  have hs1 : Seg c1.nodes none none items := hs.congr fun y hy =>
    update_of_ne (hne y hy) _ _
  obtain ⟨h2, e2, hs2, frame2⟩ := setPrev_spec hs1 hn hb (some i)
  refine ⟨h2, ?_, ⟨?_, hs2⟩, fun j hj => ?_⟩
  · rw [← hf] at e2
    rw [pushFront, modifyNode_eq hm, ok_bind, last_cons]
    exact congrArg (· >>= _) e2
  · rw [frame2 i hi, ← hf]
    exact update_self _ _ _
  · rw [mem_cons, not_or] at hj
    exact (frame2 j hj.2).trans (update_of_ne hj.1 _ _)

end Links

section Operations
variable {c : Cache κ V} {items l r : List (Item κ V)} {x : Item κ V}

theorem Cache.Rep.perm {items' : List (Item κ V)} {h' : Heap (κ × V)} {f b : Option ℕ}
    (h : c.Rep items) (hp : items'.Perm items) (hf : f = first items' none)
    (hb : b = last none items') (hs : Seg h' none none items')
    (hv : ∀ i ∉ slots items, h' i = none) :
    ({ c with nodes := h', front := f, back := b } : Cache κ V).Rep items' := by
  have hslots : ∀ i, i ∈ slots items' ↔ i ∈ slots items := fun i => (hp.map _).mem_iff
  exact
    { front := hf
      back := hb
      seg := hs
      vacant := fun i hi => hv i (mt (hslots i).mpr hi)
      slotsNodup := (hp.map _).nodup_iff.mpr h.slotsNodup
      keysNodup := (hp.map _).nodup_iff.mpr h.keysNodup
      index := fun k i => (h.index k i).trans (exists_congr fun v => hp.mem_iff.symm)
      free := ⟨h.free.1, fun i => by rw [h.free.2, hslots]⟩
      used := fun i hi => h.used i ((hslots i).mp hi) }

section
variable (h : c.Rep (l ++ x :: r))
include h

theorem Cache.Rep.nodes_get : c.nodes x.1 = some ⟨x.2, last none l, first r none⟩ :=
  h.seg.get

theorem Cache.Rep.not_mem_slots : x.1 ∉ slots (l ++ r) := by
  have hp : (slots (l ++ x :: r)).Perm (x.1 :: slots (l ++ r)) := perm_middle.map _
  exact (nodup_cons.mp (hp.nodup_iff.mp h.slotsNodup)).1

theorem Cache.Rep.rest_nodup : (slots (l ++ r)).Nodup := by
  have hp : (slots (l ++ x :: r)).Perm (x.1 :: slots (l ++ r)) := perm_middle.map _
  exact (nodup_cons.mp (hp.nodup_iff.mp h.slotsNodup)).2

/-- Moving to the front keeps the other nodes in order. -/
theorem Cache.moveToFront_spec :
    ∃ c', c.moveToFront x.1 = .ok c' ∧ c'.Rep (x :: (l ++ r)) ∧ c'.maxEntries = c.maxEntries := by
  unfold moveToFront
  split_ifs with hfront
  · cases l with
    | nil => exact ⟨c, rfl, h, rfl⟩
    | cons y l =>
      have heq : y.1 = x.1 := Option.mem_unique h.front hfront
      exact absurd (heq ▸ mem_cons_self) h.not_mem_slots
  · obtain ⟨h1, e1, hs1, frame1⟩ := unlink_spec h.seg h.slotsNodup h.front h.back
    have hx1 : h1 x.1 = some ⟨x.2, last none l, first r none⟩ :=
      (frame1 _ h.not_mem_slots).trans h.nodes_get
    obtain ⟨h2, e2, hs2, frame2⟩ := pushFront_spec (c := { c with
      nodes := h1, front := first (l ++ r) none, back := last none (l ++ r) })
      hs1 h.rest_nodup rfl rfl hx1 h.not_mem_slots
    refine ⟨_, (congrArg (· >>= _) e1).trans e2, ?_, rfl⟩
    refine h.perm perm_middle.symm rfl rfl hs2 fun i hi => ?_
    have hi' : i ∉ x.1 :: slots (l ++ r) := fun hm =>
      hi ((perm_middle.map Prod.fst).mem_iff.mpr hm)
    rw [frame2 i hi']
    exact (frame1 i fun hm => hi' (mem_cons_of_mem _ hm)).trans (h.vacant i hi)

end

theorem Cache.Rep.mem_entries (h : c.Rep items) (k : κ) : k ∈ c.entries ↔ k ∈ keys items := by
  rw [← lookup_isSome, Option.isSome_iff_exists]
  simp only [h.index, keys, mem_map, Prod.exists]
  constructor
  · rintro ⟨i, v, hm⟩
    exact ⟨i, k, v, hm, rfl⟩
  · rintro ⟨i, _, v, hm, rfl⟩
    exact ⟨i, v, hm⟩

theorem Cache.Rep.len_eq (h : c.Rep items) : c.len = items.length := by
  have hp : c.entries.keys.Perm (keys items) :=
    (perm_ext_iff_of_nodup c.entries.keys_nodup h.keysNodup).mpr h.mem_entries
  have hlen := hp.length_eq
  simpa [AList.keys, List.keys, keys, len] using hlen

theorem Cache.Rep.lookup_eq_none (h : c.Rep items) {k : κ} (hk : k ∉ keys items) :
    c.entries.lookup k = none :=
  AList.lookup_eq_none.mpr (mt (h.mem_entries k).mp hk)

theorem Cache.Rep.lookup_eq_some (h : c.Rep (l ++ x :: r)) : c.entries.lookup x.2.1 = some x.1 :=
  (h.index _ _).mpr ⟨x.2.2, by simp⟩

omit [DecidableEq κ] in
theorem mem_slots_middle {i : ℕ} : i ∈ slots (l ++ x :: r) ↔ i = x.1 ∨ i ∈ slots (l ++ r) :=
  (perm_middle.map Prod.fst).mem_iff.trans mem_cons

section
variable (h : c.Rep (l ++ x :: r))
include h

theorem Cache.Rep.keys_middle : (x.2.1 :: keys (l ++ r)).Nodup :=
  (perm_middle.map fun y : Item κ V => y.2.1).nodup_iff.mp h.keysNodup

theorem Cache.Rep.index_erase (k : κ) (i : ℕ) :
    (c.entries.erase x.2.1).lookup k = some i ↔ ∃ v, (i, k, v) ∈ l ++ r := by
  by_cases hkx : k = x.2.1
  · subst hkx
    rw [lookup_erase]
    refine iff_of_false (by simp) ?_
    rintro ⟨v, hm⟩
    exact (nodup_cons.mp h.keys_middle).1 (mem_keys hm)
  · rw [lookup_erase_ne hkx, h.index]
    refine exists_congr fun v => ?_
    have hne : (i, k, v) ≠ x := fun heq => hkx (heq ▸ rfl)
    simp [hne]

/-- An unlinked node can be freed and its key forgotten. -/
theorem Cache.Rep.remove {h' : Heap (κ × V)} (hs : Seg h' none none (l ++ r))
    (frame : ∀ i ∉ slots (l ++ r), h' i = c.nodes i) : ({ c with
        entries := c.entries.erase x.2.1
        nodes := update h' x.1 none
        free := x.1 :: c.free
        front := first (l ++ r) none
        back := last none (l ++ r) } : Cache κ V).Rep (l ++ r) where
  front := rfl
  back := rfl
  seg := hs.congr fun y hy => update_of_ne
    (fun heq : y.1 = x.1 => h.not_mem_slots (heq ▸ mem_slots hy)) _ _
  vacant i hi := by
    by_cases hix : i = x.1
    · rw [hix]
      exact update_self _ _ _
    · have hv := h.vacant i (by simp [mem_slots_middle, hix, hi])
      exact (update_of_ne hix _ _).trans ((frame i hi).trans hv)
  slotsNodup := h.rest_nodup
  keysNodup := (nodup_cons.mp h.keys_middle).2
  index := h.index_erase
  free := by
    have hx : x.1 ∈ slots (l ++ x :: r) := mem_slots_middle.mpr (.inl rfl)
    refine ⟨nodup_cons.mpr ⟨fun hm => ((h.free.2 _).mp hm).2 hx, h.free.1⟩, fun i => ?_⟩
    have hused := h.used x.1 hx
    have hrest := h.not_mem_slots
    simp only [mem_cons, h.free.2, mem_slots_middle]
    grind
  used i hi := h.used i (mem_slots_middle.mpr (.inr hi))

theorem Cache.removeIndex_spec :
    ∃ c', c.removeIndex x.1 = .ok c' ∧ c'.Rep (l ++ r) ∧ c'.maxEntries = c.maxEntries := by
  obtain ⟨h1, e1, hs1, frame1⟩ := unlink_spec h.seg h.slotsNodup h.front h.back
  refine ⟨_, ?_, h.remove hs1 frame1, rfl⟩
  rw [removeIndex, node_eq h.nodes_get, ok_bind, e1, ok_bind]
  rfl

theorem Cache.get_hit : ∃ c', c.get x.2.1 = .ok (some x.2.2, c') ∧ c'.Rep (x :: (l ++ r)) ∧
      c'.maxEntries = c.maxEntries := by
  obtain ⟨c', e, h', hmax⟩ := moveToFront_spec h
  refine ⟨c', ?_, h', hmax⟩
  rw [get, h.lookup_eq_some]
  simp only [e, ok_bind, node_eq h'.seg.1]
  rfl

end

theorem Cache.get_miss (h : c.Rep items) {k : κ} (hk : k ∉ keys items) :
    c.get k = .ok (none, c) := by
  rw [get, h.lookup_eq_none hk]

section
variable (h : c.Rep (l ++ x :: r))
include h

/-- Writing a value leaves the order alone. -/
theorem Cache.modifyNode_spec (write : V → V) :
    ∃ c', c.modifyNode x.1 (fun m => { m with val := (m.val.1, write m.val.2) }) = .ok c' ∧
      c'.Rep (l ++ (x.1, x.2.1, write x.2.2) :: r) ∧ c'.maxEntries = c.maxEntries := by
  let y : Item κ V := (x.1, x.2.1, write x.2.2)
  have hslots : slots (l ++ y :: r) = slots (l ++ x :: r) := by simp [slots, y]
  have hkeys : keys (l ++ y :: r) = keys (l ++ x :: r) := by simp [keys, y]
  refine ⟨_, modifyNode_eq h.nodes_get _, ?_, rfl⟩
  exact
    { front := by rw [h.front, first_append, first_append, first_cons, first_cons]
      back := by rw [h.back, last_append, last_append, last_cons, last_cons]
      seg := h.seg.setVal h.not_mem_slots _
      vacant := fun i hi => by
        rw [hslots] at hi
        refine (update_of_ne ?_ _ _).trans (h.vacant i hi)
        exact fun heq => hi (mem_slots_middle.mpr (.inl heq))
      slotsNodup := hslots ▸ h.slotsNodup
      keysNodup := hkeys ▸ h.keysNodup
      index := fun k i => by
        rw [h.index]
        simp only [mem_append, mem_cons]
        grind
      free := hslots ▸ h.free
      used := hslots ▸ h.used }

theorem Cache.add_hit (v : V) :
    ∃ c', c.add x.2.1 v = .ok c' ∧ c'.Rep ((x.1, x.2.1, v) :: (l ++ r)) ∧
      c'.maxEntries = c.maxEntries := by
  obtain ⟨c1, e1, hrep, hmax1⟩ := modifyNode_spec h fun _ => v
  obtain ⟨c', e, h', hmax⟩ := moveToFront_spec hrep
  refine ⟨c', ?_, h', hmax.trans hmax1⟩
  rw [add, h.lookup_eq_some]
  exact (congrArg (· >>= _) e1).trans e

theorem Cache.getMut_hit (write : V → V) : ∃ c', c.getMut x.2.1 write = .ok (some x.2.2, c') ∧
      c'.Rep ((x.1, x.2.1, write x.2.2) :: (l ++ r)) ∧ c'.maxEntries = c.maxEntries := by
  obtain ⟨c1, e1, h1, hmax1⟩ := moveToFront_spec h
  obtain ⟨c', e, h', hmax⟩ := modifyNode_spec (l := []) h1 write
  refine ⟨c', ?_, h', hmax.trans hmax1⟩
  rw [getMut, h.lookup_eq_some]
  simp only [e1, ok_bind, node_eq h1.seg.1, e]
  rfl

end

theorem Cache.getMut_miss (h : c.Rep items) {k : κ} (hk : k ∉ keys items) (write : V → V) :
    c.getMut k write = .ok (none, c) := by
  rw [getMut, h.lookup_eq_none hk]

theorem Cache.remove_hit (h : c.Rep (l ++ x :: r)) :
    ∃ c', c.remove x.2.1 = .ok c' ∧ c'.Rep (l ++ r) ∧ c'.maxEntries = c.maxEntries := by
  rw [remove, h.lookup_eq_some]
  exact removeIndex_spec h

section
variable (h : c.Rep items)
include h

theorem Cache.remove_miss {k : κ} (hk : k ∉ keys items) : c.remove k = .ok c := by
  rw [remove, h.lookup_eq_none hk]

theorem Cache.removeOldest_spec :
    ∃ c', c.removeOldest = .ok c' ∧ c'.Rep items.dropLast ∧ c'.maxEntries = c.maxEntries := by
  rw [removeOldest, h.back]
  obtain rfl | ⟨l, y, rfl⟩ := items.eq_nil_or_concat
  · exact ⟨c, rfl, h, rfl⟩
  · rw [concat_eq_append] at h ⊢
    obtain ⟨c', e, h', hmax⟩ := removeIndex_spec h
    rw [last_concat, dropLast_concat]
    exact ⟨c', e, by simpa using h', hmax⟩

theorem Cache.allocateNode_spec (k : κ) (v : V) : ∃ i size free, c.allocateNode k v = ({ c with
        nodes := update c.nodes i (some ⟨(k, v), none, none⟩)
        size := size, free := free }, i) ∧
      i ∉ slots items ∧ free.Nodup ∧ (∀ j, j ∈ free ↔ j < size ∧ j ∉ i :: slots items) ∧
      ∀ j ∈ i :: slots items, j < size := by
  obtain ⟨hnodup, hfree⟩ := h.free
  have hused := h.used
  unfold allocateNode
  cases hc : c.free with
  | nil =>
    rw [hc] at hfree
    refine ⟨c.size, c.size + 1, [], rfl, fun hm => lt_irrefl _ (hused _ hm), nodup_nil, ?_, ?_⟩
    · grind
    · grind
  | cons i free =>
    rw [hc] at hfree hnodup
    obtain ⟨hi, hnodup⟩ := nodup_cons.mp hnodup
    refine ⟨i, c.size, free, rfl, ((hfree i).mp mem_cons_self).2, hnodup, ?_, ?_⟩
    · grind
    · grind

/-- Adding a new key evicts the last node when the cache is full. -/
theorem Cache.add_miss {k : κ} (hk : k ∉ keys items) (v : V) :
    ∃ c' i, c.add k v = .ok c' ∧ c'.maxEntries = c.maxEntries ∧
      c'.Rep (if c.maxEntries ≠ 0 ∧ c.maxEntries < items.length + 1 then
        ((i, k, v) :: items).dropLast else (i, k, v) :: items) := by
  obtain ⟨i, size, free, e, hi, hnodup, hfree, hused⟩ := allocateNode_spec h k v
  have hne : ∀ j ∈ slots items, j ≠ i := fun j hj heq => hi (heq ▸ hj)
  let c1 : Cache κ V := { c with
    entries := c.entries.insert k i
    nodes := update c.nodes i (some ⟨(k, v), none, none⟩)
    size := size, free := free }
  have hs1 : Seg c1.nodes none none items := h.seg.congr fun y hy =>
    update_of_ne (hne _ (mem_map_of_mem hy)) _ _
  obtain ⟨h2, e2, hs2, frame2⟩ := pushFront_spec hs1 h.slotsNodup h.front h.back
    (update_self _ _ _) hi
  let c2 : Cache κ V := { c1 with
    nodes := h2, front := some i, back := last none ((i, k, v) :: items) }
  have hrep : c2.Rep ((i, k, v) :: items) :=
    { front := rfl
      back := rfl
      seg := hs2
      vacant := fun j hj => (frame2 j hj).trans ((update_of_ne
        (fun heq : j = i => hj (heq ▸ mem_cons_self)) _ _).trans
          (h.vacant j fun hm => hj (mem_cons_of_mem _ hm)))
      slotsNodup := nodup_cons.mpr ⟨hi, h.slotsNodup⟩
      keysNodup := nodup_cons.mpr ⟨hk, h.keysNodup⟩
      index := fun k' j => by
        by_cases hkk : k' = k
        · subst hkk
          rw [lookup_insert]
          have hno : ∀ v', (j, k', v') ∉ items := fun v' hm => hk (mem_keys hm)
          simp [hno, eq_comm]
        · rw [lookup_insert_ne hkk, h.index]
          simp [hkk]
      free := ⟨hnodup, hfree⟩
      used := hused }
  have hadd : c.add k v = (if c.maxEntries ≠ 0 ∧ c.maxEntries < items.length + 1 then
      c2.removeOldest else .ok c2) := by
    rw [add, h.lookup_eq_none hk]
    simp only [e]
    exact (congrArg (· >>= _) e2).trans (by rw [ok_bind, hrep.len_eq]; rfl)
  rw [hadd]
  split_ifs with hfull
  · obtain ⟨c', e', h', hmax⟩ := removeOldest_spec hrep
    exact ⟨c', i, e', hmax, h'⟩
  · exact ⟨_, i, rfl, rfl, hrep⟩

end

end Operations

def walk (h : Heap (κ × V)) : ℕ → Option ℕ → List κ
  | fuel + 1, some i =>
    match h i with
    | some m => m.val.1 :: walk h fuel m.next
    | none => []
  | _, _ => []

def Cache.recency (c : Cache κ V) : List κ := walk c.nodes c.len c.front

omit [DecidableEq κ] in
theorem walk_seg {h : Heap (κ × V)} {items : List (Item κ V)} {p : Option ℕ}
    (hs : Seg h p none items) : walk h items.length (first items none) = keys items := by
  induction items generalizing p with
  | nil => rfl
  | cons x items ih =>
    rw [first_cons, length_cons, walk, hs.1]
    exact congrArg (x.2.1 :: ·) (ih hs.2)

/-- A cache that stands for a list no longer than its capacity. -/
structure Cache.Valid (c : Cache κ V) (cap : ℕ) : Prop where
  maxEntries : c.maxEntries = cap
  rep : ∃ items, c.Rep items ∧ items.length ≤ cap

section Refinement
variable {c : Cache κ V} {items l r : List (Item κ V)} {x : Item κ V} {cap : ℕ}

theorem Cache.Rep.recency_eq (h : c.Rep items) : c.recency = keys items := by
  rw [recency, h.len_eq, h.front, walk_seg h.seg]

def Cache.Valid.lru (h : c.Valid cap) : Lru κ cap where
  entries := c.recency
  nodup := by
    obtain ⟨items, hrep, -⟩ := h.rep
    exact hrep.recency_eq ▸ hrep.keysNodup
  bounded := by
    obtain ⟨items, hrep, hlen⟩ := h.rep
    rw [hrep.recency_eq, keys, length_map]
    exact hlen

theorem Cache.valid_default : ({ (default : Cache κ V) with maxEntries := cap }).Valid cap where
  maxEntries := rfl
  rep := ⟨[],
    { front := rfl
      back := rfl
      seg := trivial
      vacant := fun _ _ => rfl
      slotsNodup := nodup_nil
      keysNodup := nodup_nil
      index := fun k i => by simp [default]
      free := by simp [default]
      used := by simp [slots] }, Nat.zero_le _⟩

omit [DecidableEq κ] in
theorem exists_of_mem_keys {k : κ} (hk : k ∈ keys items) :
    ∃ l i v r, items = l ++ (i, k, v) :: r := by
  obtain ⟨⟨i, k, v⟩, hm, rfl⟩ := mem_map.mp hk
  obtain ⟨l, r, h⟩ := append_of_mem hm
  exact ⟨l, i, v, r, h⟩

theorem Cache.Rep.keys_erase (h : c.Rep (l ++ x :: r)) :
    (keys (l ++ x :: r)).erase x.2.1 = keys (l ++ r) := by
  have hx : x.2.1 ∉ keys l := fun hm =>
    (nodup_cons.mp h.keys_middle).1 (by simp only [keys, map_append] at *; simp [hm])
  simp only [keys, map_append, map_cons] at *
  rw [erase_append_right _ hx, erase_cons_head]

theorem Cache.Valid.entries_eq (hv : c.Valid cap) (h : c.Rep items) : hv.lru.entries = keys items :=
  h.recency_eq

theorem Cache.Rep.lru_moved {c' : Cache κ V} {v : V} (h : c.Rep (l ++ x :: r)) (hv : c.Valid cap)
    (h' : c'.Rep ((x.1, x.2.1, v) :: (l ++ r))) (hv' : c'.Valid cap) :
    hv'.lru = hv.lru.add x.2.1 := by
  refine Lru.ext ?_
  rw [add_entries, hv.entries_eq h, hv'.entries_eq h', h.keys_erase]
  have hlen := hv'.lru.bounded
  rw [hv'.entries_eq h'] at hlen
  exact (take_of_length_le hlen).symm

theorem Cache.get_refines (hv : c.Valid cap) (k : κ) :
    ∃ v c', ∃ h' : c'.Valid cap, c.get k = .ok (v, c') ∧ (v.isSome, h'.lru) = hv.lru.get k := by
  obtain ⟨items, hrep, hlen⟩ := hv.rep
  by_cases hk : k ∈ keys items
  · obtain ⟨l, i, v, r, rfl⟩ := exists_of_mem_keys hk
    obtain ⟨c', e, h', hmax⟩ := get_hit hrep
    have hv' : c'.Valid cap := ⟨hmax.trans hv.maxEntries, _, h', by simpa [Nat.add_assoc] using hlen⟩
    refine ⟨some v, c', hv', e, ?_⟩
    rw [Lru.get_of_mem (hv.entries_eq hrep ▸ hk), hrep.lru_moved hv h' hv']
    rfl
  · refine ⟨none, c, hv, get_miss hrep hk, ?_⟩
    rw [get_of_not_mem (hv.entries_eq hrep ▸ hk)]
    rfl

/-- Adding refines the bounded recency list. -/
theorem Cache.add_refines (hv : c.Valid cap) (hcap : cap ≠ 0) (k : κ) (v : V) :
    ∃ c', ∃ h' : c'.Valid cap, c.add k v = .ok c' ∧ h'.lru = hv.lru.add k := by
  obtain ⟨items, hrep, hlen⟩ := hv.rep
  by_cases hk : k ∈ keys items
  · obtain ⟨l, i, w, r, rfl⟩ := exists_of_mem_keys hk
    obtain ⟨c', e, h', hmax⟩ := add_hit hrep v
    have hv' : c'.Valid cap := ⟨hmax.trans hv.maxEntries, _, h', by simpa [Nat.add_assoc] using hlen⟩
    exact ⟨c', hv', e, hrep.lru_moved hv h' hv'⟩
  · obtain ⟨c', i, e, hmax, h'⟩ := add_miss hrep hk v
    rw [hv.maxEntries] at h'
    have hitems : (if cap ≠ 0 ∧ cap < items.length + 1 then ((i, k, v) :: items).dropLast
        else (i, k, v) :: items) = ((i, k, v) :: items).take cap := by
      split_ifs with hfull
      · have : cap = items.length := by omega
        rw [dropLast_eq_take, length_cons, Nat.add_sub_cancel, this]
      · rw [take_of_length_le (by rw [length_cons]; omega)]
    rw [hitems] at h'
    have hv' : c'.Valid cap := ⟨hmax.trans hv.maxEntries, _, h', length_take_le _ _⟩
    refine ⟨c', hv', e, Lru.ext ?_⟩
    rw [add_entries, hv.entries_eq hrep, hv'.entries_eq h', erase_of_not_mem hk]
    exact map_take

end Refinement
end Rustscale.Flowtrack
