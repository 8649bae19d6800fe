import Mathlib.Data.List.Nodup

/-! Association lists ordered by recency, with a bound on the number of entries. -/
namespace RecencyList
open List
variable {κ V : Type} [DecidableEq κ]

def without (k : κ) (l : List (κ × V)) : List (κ × V) := l.filter fun e => e.1 ≠ k

/-- In front; if there are too many then, the one at the back goes. No limit if `max` is zero. -/
def add (max : ℕ) (k : κ) (v : V) (l : List (κ × V)) : List (κ × V) :=
  let added := (k, v) :: without k l
  if max ≠ 0 ∧ max < added.length then added.dropLast else added

/-- A hit is moved to the front, with what is written to it. -/
def getMut (k : κ) (write : V → V) (l : List (κ × V)) : Option V × List (κ × V) :=
  match l.lookup k with
  | none => (none, l)
  | some v => (some v, (k, write v) :: without k l)

def get (k : κ) (l : List (κ × V)) : Option V × List (κ × V) := getMut k id l

variable {k : κ} {v : V} {l r : List (κ × V)}

theorem without_of_not_mem (h : k ∉ l.map Prod.fst) : without k l = l := by
  refine filter_eq_self.mpr fun e he => decide_eq_true ?_
  rintro rfl
  exact h (mem_map_of_mem he)

theorem lookup_of_not_mem (h : k ∉ l.map Prod.fst) : l.lookup k = none := by
  rw [lookup_eq_none_iff]
  intro e he
  rw [bne_iff_ne]
  rintro rfl
  exact h (mem_map_of_mem he)

theorem lookup_middle (h : ((l ++ (k, v) :: r).map Prod.fst).Nodup) :
    (l ++ (k, v) :: r).lookup k = some v ∧ without k (l ++ (k, v) :: r) = l ++ r := by
  rw [map_append, map_cons, nodup_middle, nodup_cons, mem_append, not_or] at h
  obtain ⟨⟨hl, hr⟩, -⟩ := h
  constructor
  · rw [lookup_append, lookup_of_not_mem hl, Option.none_or, lookup_cons_self]
  · rw [without, filter_append, filter_cons_of_neg (by simp), ← without, ← without,
      without_of_not_mem hl, without_of_not_mem hr]

end RecencyList
