import Rustscale.Flowtrack
import Rustscale.Lib.RecencyList

/-! The cache of flows is an association list ordered by recency, over any calls. -/
namespace Rustscale.Flowtrack
open Checks Dll List RecencyList Cache Cell

variable {κ V : Type} [DecidableEq κ] {c c' : Cache κ V} {items l r : List (Item κ V)}
  {x : Item κ V}

/-- Calls of a cache. It is cleared by taking a new one with the same limit. -/
inductive Call (κ V : Type) where
  | add (key : κ) (value : V)
  | get (key : κ)
  | getMut (key : κ) (write : V → V)
  | remove (key : κ)
  | removeOldest
  | clear

def Cache.limited (max : ℕ) : Cache κ V := { (default : Cache κ V) with maxEntries := max }

def Cache.call (c : Cache κ V) : Call κ V → Except Panic (Option V × Cache κ V)
  | .add key value => (c.add key value).map fun c => (none, c)
  | .get key => c.get key
  | .getMut key write => c.getMut key write
  | .remove key => (c.remove key).map fun c => (none, c)
  | .removeOldest => c.removeOldest.map fun c => (none, c)
  | .clear => .ok (none, .limited c.maxEntries)

def Cache.calls (c : Cache κ V) : List (Call κ V) → Except Panic (List (Option V) × Cache κ V)
  | [] => .ok ([], c)
  | call :: rest => do
    let (answer, c) ← c.call call
    let (answers, c) ← c.calls rest
    return (answer :: answers, c)

def Call.onList (max : ℕ) (l : List (κ × V)) : Call κ V → Option V × List (κ × V)
  | .add key value => (none, RecencyList.add max key value l)
  | .get key => RecencyList.get key l
  | .getMut key write => RecencyList.getMut key write l
  | .remove key => (none, without key l)
  | .removeOldest => (none, l.dropLast)
  | .clear => (none, [])

def Call.allOnList (max : ℕ) : List (Call κ V) → List (κ × V) → List (Option V) × List (κ × V)
  | [], l => ([], l)
  | call :: rest, l =>
    let (answer, l) := call.onList max l
    let (answers, l) := allOnList max rest l
    (answer :: answers, l)

/-- A cache stands for a recency list of at most `max` entries. -/
structure Cache.Holds (c : Cache κ V) (max : ℕ) (l : List (κ × V)) : Prop where
  maxEntries : c.maxEntries = max
  bounded : max ≠ 0 → l.length ≤ max
  rep : ∃ items, c.Rep items ∧ items.map Prod.snd = l

omit [DecidableEq κ] in
theorem keys_eq (items : List (Item κ V)) : keys items = (items.map Prod.snd).map Prod.fst := by
  rw [keys, map_map]
  rfl

variable {max : ℕ} {list : List (κ × V)} {k : κ}

theorem Cache.Holds.cases (h : c.Holds max list) (k : κ) :
    (∃ items, c.Rep items ∧ items.map Prod.snd = list ∧ k ∉ keys items ∧ k ∉ list.map Prod.fst) ∨
      ∃ l i v r, c.Rep (l ++ (i, k, v) :: r) ∧
        list = l.map Prod.snd ++ (k, v) :: r.map Prod.snd ∧ list.lookup k = some v ∧
        without k list = (l ++ r).map Prod.snd := by
  obtain ⟨items, hrep, rfl⟩ := h.rep
  by_cases hk : k ∈ keys items
  · obtain ⟨l, i, v, r, rfl⟩ := exists_of_mem_keys hk
    have hnodup := hrep.keysNodup
    rw [keys_eq, map_append, map_cons] at hnodup
    obtain ⟨hlookup, hwithout⟩ := lookup_middle hnodup
    refine .inr ⟨l, i, v, r, hrep, by simp, ?_, ?_⟩
    · rw [map_append, map_cons]
      exact hlookup
    · rw [map_append, map_cons, map_append]
      exact hwithout
  · exact .inl ⟨items, hrep, rfl, hk, by rwa [← keys_eq]⟩

theorem Cache.Holds.limited (max : ℕ) : (limited max : Cache κ V).Holds max [] where
  maxEntries := rfl
  bounded _ := Nat.zero_le _
  rep := by
    have hvalid : ({ (default : Cache κ V) with maxEntries := 0 }).Valid 0 := valid_default
    obtain ⟨items, hrep, hlen⟩ := hvalid.rep
    obtain rfl : items = [] := eq_nil_of_length_eq_zero (Nat.le_zero.mp hlen)
    exact ⟨[], { hrep with }, rfl⟩

theorem Cache.Holds.moved (h : c.Holds max (l.map Prod.snd ++ x.2 :: r.map Prod.snd)) {v : V}
    (hrep : c'.Rep ((x.1, x.2.1, v) :: (l ++ r))) (hmax : c'.maxEntries = c.maxEntries) :
    c'.Holds max ((x.2.1, v) :: (l ++ r).map Prod.snd) where
  maxEntries := hmax.trans h.maxEntries
  bounded hne := by simpa [Nat.add_assoc] using h.bounded hne
  rep := ⟨_, hrep, rfl⟩

section
variable (h : c.Holds max list)
include h

theorem Cache.Holds.getMut (k : κ) (write : V → V) :
    ∃ c', c.getMut k write = .ok ((RecencyList.getMut k write list).1, c') ∧
      c'.Holds max (RecencyList.getMut k write list).2 := by
  rcases h.cases k with ⟨items, hrep, -, hk, hk'⟩ | ⟨l, i, v, r, hrep, rfl, hlookup, hwithout⟩
  · rw [RecencyList.getMut, RecencyList.lookup_of_not_mem hk']
    exact ⟨c, getMut_miss hrep hk write, h⟩
  · obtain ⟨c', e, hrep', hmax⟩ := getMut_hit hrep write
    rw [RecencyList.getMut, hlookup, hwithout]
    exact ⟨c', e, h.moved hrep' hmax⟩

theorem Cache.Holds.get (k : κ) : ∃ c', c.get k = .ok ((RecencyList.get k list).1, c') ∧
      c'.Holds max (RecencyList.get k list).2 := by
  rw [RecencyList.get]
  rcases h.cases k with ⟨items, hrep, -, hk, hk'⟩ | ⟨l, i, v, r, hrep, rfl, hlookup, hwithout⟩
  · rw [RecencyList.getMut, RecencyList.lookup_of_not_mem hk']
    exact ⟨c, get_miss hrep hk, h⟩
  · obtain ⟨c', e, hrep', hmax⟩ := get_hit hrep
    rw [RecencyList.getMut, hlookup, hwithout]
    exact ⟨c', e, h.moved (x := (i, k, v)) hrep' hmax⟩

/-- Adding to the cache is adding to the recency list it holds. -/
theorem Cache.Holds.add (k : κ) (v : V) :
    ∃ c', c.add k v = .ok c' ∧ c'.Holds max (RecencyList.add max k v list) := by
  rcases h.cases k with ⟨items, hrep, rfl, hk, hk'⟩ | ⟨l, i, w, r, hrep, rfl, -, hwithout⟩
  · obtain ⟨c', i, e, hmax, hrep'⟩ := add_miss hrep hk v
    rw [h.maxEntries] at hrep'
    rw [RecencyList.add, RecencyList.without_of_not_mem hk', length_cons, length_map]
    refine ⟨c', e, hmax.trans h.maxEntries, fun hne => ?_, _, hrep', ?_⟩
    · have hbounded := h.bounded hne
      rw [length_map] at hbounded
      split_ifs with hfull
      · simpa using hbounded
      · simp only [not_and, not_lt] at hfull
        simpa using hfull hne
    · split_ifs with hfull
      · rw [map_dropLast, map_cons]
      · rfl
  · obtain ⟨c', e, hrep', hmax⟩ := add_hit hrep v
    have hmoved := h.moved hrep' hmax
    rw [RecencyList.add, hwithout, if_neg]
    · exact ⟨c', e, hmoved⟩
    · exact fun hfull => absurd (hmoved.bounded hfull.1) (Nat.not_le.mpr hfull.2)

theorem Cache.Holds.remove (k : κ) :
    ∃ c', c.remove k = .ok c' ∧ c'.Holds max (without k list) := by
  rcases h.cases k with ⟨items, hrep, -, hk, hk'⟩ | ⟨l, i, v, r, hrep, rfl, -, hwithout⟩
  · rw [without_of_not_mem hk']
    exact ⟨c, remove_miss hrep hk, h⟩
  · obtain ⟨c', e, hrep', hmax⟩ := remove_hit hrep
    rw [hwithout]
    refine ⟨c', e, hmax.trans h.maxEntries, fun hne => ?_, _, hrep', rfl⟩
    have hbounded := h.bounded hne
    simp only [length_append, length_cons, length_map] at hbounded ⊢
    omega

theorem Cache.Holds.removeOldest : ∃ c', c.removeOldest = .ok c' ∧ c'.Holds max list.dropLast := by
  obtain ⟨items, hrep, rfl⟩ := h.rep
  obtain ⟨c', e, hrep', hmax⟩ := removeOldest_spec hrep
  refine ⟨c', e, hmax.trans h.maxEntries, fun hne => ?_, _, hrep', map_dropLast⟩
  have hbounded := h.bounded hne
  rw [length_dropLast]
  omega

theorem Cache.Holds.call (call : Call κ V) :
    ∃ c', c.call call = .ok ((call.onList max list).1, c') ∧
      c'.Holds max (call.onList max list).2 := by
  cases call with
  | add k v =>
    obtain ⟨c', e, h'⟩ := h.add k v
    exact ⟨c', by rw [Cache.call, e]; rfl, h'⟩
  | get k => exact h.get k
  | getMut k write => exact h.getMut k write
  | remove k =>
    obtain ⟨c', e, h'⟩ := h.remove k
    exact ⟨c', by rw [Cache.call, e]; rfl, h'⟩
  | removeOldest =>
    obtain ⟨c', e, h'⟩ := h.removeOldest
    exact ⟨c', by rw [Cache.call, e]; rfl, h'⟩
  | clear =>
    rw [Cache.call, h.maxEntries]
    exact ⟨_, rfl, .limited max⟩

end

theorem Cache.Holds.calls (calls : List (Call κ V)) {c : Cache κ V} {list : List (κ × V)}
    (h : c.Holds max list) : ∃ c', c.calls calls = .ok ((Call.allOnList max calls list).1, c') ∧
      c'.Holds max (Call.allOnList max calls list).2 := by
  induction calls generalizing c list with
  | nil => exact ⟨_, rfl, h⟩
  | cons call rest ih =>
    obtain ⟨c1, e1, h1⟩ := h.call call
    obtain ⟨c2, e2, h2⟩ := ih h1
    refine ⟨c2, ?_, h2⟩
    rw [Cache.calls, e1, ok_bind]
    change (c1.calls rest >>= _) = _
    rw [e2]
    rfl

/-- The slots from one on, along the links that `link` selects. -/
def Cache.follow (c : Cache κ V) (link : Node κ V → Option ℕ) : ℕ → Option ℕ → List ℕ
  | fuel + 1, some i =>
    match c.nodes i with
    | some m => i :: c.follow link fuel (link m)
    | none => []
  | _, _ => []

/-- The slots ever used are those of the index, which are those of the list both ways, and the free
ones. -/
structure Cache.Partitioned (c : Cache κ V) : Prop where
  linked : (c.follow next c.len c.front).Nodup
  backwards : c.follow prev c.len c.back = (c.follow next c.len c.front).reverse
  indexed : ∀ i, i ∈ c.follow next c.len c.front ↔ ∃ k, c.entries.lookup k = some i
  distinct : ∀ k k' i, c.entries.lookup k = some i → c.entries.lookup k' = some i → k = k'
  freed : c.free.Nodup
  disjoint : ∀ i ∈ c.free, i ∉ c.follow next c.len c.front
  cover : ∀ i, i < c.size ↔ i ∈ c.free ∨ i ∈ c.follow next c.len c.front
  occupied : ∀ i, (c.nodes i).isSome ↔ i ∈ c.follow next c.len c.front

theorem follow_next {p : Option ℕ} (hs : Seg c.nodes p none items) :
    c.follow next items.length (first items none) = slots items := by
  induction items generalizing p with
  | nil => rfl
  | cons x items ih =>
    rw [first_cons, length_cons, follow, hs.1]
    exact congrArg (x.1 :: ·) (ih hs.2)

theorem follow_prev {n : Option ℕ} (hs : Seg c.nodes none n items) :
    c.follow prev items.length (last none items) = (slots items).reverse := by
  induction items using reverseRecOn generalizing n with
  | nil => rfl
  | append_singleton items x ih =>
    obtain ⟨hitems, hx, -⟩ := (seg_append items [x]).mp hs
    rw [last_concat, length_append, length_singleton, follow, hx, slots_append, reverse_append]
    exact congrArg (x.1 :: ·) (ih hitems)

/-- Every slot of the arena is either in the list or free. -/
theorem Cache.Rep.partitioned (h : c.Rep items) : c.Partitioned := by
  have hnext : c.follow next c.len c.front = slots items := by
    rw [h.len_eq, h.front, follow_next h.seg]
  have hprev : c.follow prev c.len c.back = (slots items).reverse := by
    rw [h.len_eq, h.back, follow_prev h.seg]
  have hmem : ∀ i, i ∈ slots items ↔ ∃ k, c.entries.lookup k = some i := by
    intro i
    simp only [h.index, slots, mem_map, Prod.exists]
    constructor
    · rintro ⟨_, k, v, hm, rfl⟩
      exact ⟨k, v, hm⟩
    · rintro ⟨k, v, hm⟩
      exact ⟨i, k, v, hm, rfl⟩
  refine ⟨?_, ?_, ?_, ?_, h.free.1, ?_, ?_, ?_⟩
  · rw [hnext]
    exact h.slotsNodup
  · rw [hnext, hprev]
  · rw [hnext]
    exact hmem
  · intro k k' i hk hk'
    obtain ⟨v, hv⟩ := (h.index k i).mp hk
    obtain ⟨v', hv'⟩ := (h.index k' i).mp hk'
    have heq := inj_on_of_nodup_map h.slotsNodup hv hv' rfl
    simp only [Prod.mk.injEq] at heq
    exact heq.2.1
  · rw [hnext]
    exact fun i hi => ((h.free.2 i).mp hi).2
  · intro i
    have hused := h.used i
    rw [hnext, h.free.2]
    tauto
  · intro i
    rw [hnext]
    constructor
    · intro hsome
      by_contra hi
      rw [h.vacant i hi] at hsome
      cases hsome
    · intro hi
      obtain ⟨x, hx, rfl⟩ := mem_map.mp hi
      obtain ⟨l, r, rfl⟩ := append_of_mem hx
      rw [h.nodes_get]
      rfl

theorem filterMap_slots {p : Option ℕ} (hs : Seg c.nodes p none items) :
    (slots items).filterMap (fun i => (c.nodes i).map val) = items.map Prod.snd := by
  induction items generalizing p with
  | nil => rfl
  | cons x items ih =>
    rw [slots, map_cons, filterMap_cons, hs.1]
    exact congrArg (x.2 :: ·) (ih hs.2)

/-- Over any calls: no index is invalid, the answers and entries are those of a list ordered by
recency, within the limit, and the slots are partitioned. -/
theorem calls_refine_recencyList (max : ℕ) (calls : List (Call κ V)) :
    ∃ c : Cache κ V, (limited max).calls calls = .ok ((Call.allOnList max calls []).1, c) ∧
      (c.follow next c.len c.front).filterMap (fun i => (c.nodes i).map val) =
        (Call.allOnList max calls []).2 ∧
      (max = 0 ∨ c.len ≤ max) ∧ c.Partitioned := by
  obtain ⟨c, e, h⟩ := Cache.Holds.calls calls (Cache.Holds.limited (κ := κ) max)
  obtain ⟨items, hrep, hitems⟩ := h.rep
  refine ⟨c, e, ?_, or_iff_not_imp_left.mpr fun hne => ?_, hrep.partitioned⟩
  · rw [hrep.len_eq, hrep.front, follow_next hrep.seg, filterMap_slots hrep.seg, hitems]
  · rw [hrep.len_eq, ← length_map Prod.snd, hitems]
    exact h.bounded hne

end Rustscale.Flowtrack
