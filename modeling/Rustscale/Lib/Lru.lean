import Mathlib.Data.Finset.Card

/-! A set of keys with a bounded number of entries, ordered by recency. -/

/-- The most recent keys, at most `cap`, newest first. -/
@[ext] structure Lru (κ : Type) (cap : ℕ) where
  entries : List κ
  nodup : entries.Nodup
  bounded : entries.length ≤ cap

namespace Lru
open List
variable {κ : Type} [DecidableEq κ] {cap : ℕ}

variable (l : Lru κ cap) (k : κ)

def get : Bool × Lru κ cap :=
  if h : k ∈ l.entries then
    (true,
      { entries := k :: l.entries.erase k
        nodup := nodup_cons.mpr ⟨l.nodup.not_mem_erase, l.nodup.erase k⟩
        bounded := by
          have := length_pos_of_mem h
          have := l.bounded
          rw [length_cons, length_erase_of_mem h]
          omega })
  else (false, l)

/-- The key becomes the most recent one; the least recent goes if there are too many. -/
def add : Lru κ cap where
  entries := (k :: l.entries.erase k).take cap
  nodup := List.Sublist.nodup (take_sublist _ _)
    (nodup_cons.mpr ⟨l.nodup.not_mem_erase, l.nodup.erase k⟩)
  bounded := length_take_le _ _

theorem add_entries : (l.add k).entries = (k :: l.entries.erase k).take cap := rfl

@[simp] theorem get_fst : (l.get k).1 = decide (k ∈ l.entries) := by
  unfold get
  split_ifs with h <;> simp [h]

variable {l : Lru κ cap} {k : κ} {log : List κ}

/-- A hit leaves what inserting the key again would leave. -/
theorem get_of_mem (h : k ∈ l.entries) : l.get k = (true, l.add k) := by
  have hpos := length_pos_of_mem h
  have hcap := l.bounded
  rw [get, dif_pos h]
  refine Prod.ext rfl (Lru.ext (take_of_length_le ?_).symm)
  rw [length_cons, length_erase_of_mem h]
  omega

theorem get_of_not_mem (h : k ∉ l.entries) : l.get k = (false, l) :=
  dif_neg h

/-- The distinct keys of a log by last use; the log has its last entry first. -/
def recent : List κ → List κ
  | [] => []
  | k :: log => k :: (recent log).erase k

theorem mem_recent : k ∈ recent log ↔ k ∈ log := by
  induction log with
  | nil => rfl
  | cons a log ih =>
    rw [recent, mem_cons, mem_cons, ← ih]
    by_cases h : k = a
    · simp [h]
    · simp [h, mem_erase_of_ne h]

theorem recent_nodup (log : List κ) : (recent log).Nodup := by
  induction log with
  | nil => exact nodup_nil
  | cons a log ih => exact nodup_cons.mpr ⟨ih.not_mem_erase, ih.erase a⟩

theorem recent_length (log : List κ) : (recent log).length = log.toFinset.card := by
  rw [← toFinset_card_of_nodup (recent_nodup log)]
  congr 1
  ext k
  rw [mem_toFinset, mem_toFinset, mem_recent]

theorem recent_append {l : List κ} (r : List κ) (hk : k ∉ l) :
    ∃ rest, recent (l ++ k :: r) = recent l ++ k :: rest := by
  induction l with
  | nil => exact ⟨_, rfl⟩
  | cons a l ih =>
    rw [mem_cons, not_or] at hk
    obtain ⟨rest, h⟩ := ih hk.2
    rw [cons_append, recent, h, recent]
    by_cases ha : a ∈ recent l
    · exact ⟨rest, by rw [erase_append_left _ ha, cons_append]⟩
    · refine ⟨rest.erase a, ?_⟩
      rw [erase_append_right _ ha, erase_cons_tail (by simpa using hk.1),
        erase_of_not_mem ha, cons_append]

/-- A key was used, and fewer than `cap` others since its last use. -/
def Live (cap : ℕ) (log : List κ) (k : κ) : Prop :=
  k ∈ log ∧ (log.takeWhile (· ≠ k)).toFinset.card < cap

theorem mem_take_recent : k ∈ (recent log).take cap ↔ Live cap log k := by
  by_cases hk : k ∈ log
  · obtain ⟨l, r, rfl, hl⟩ := eq_append_cons_of_mem hk
    obtain ⟨rest, h⟩ := recent_append r hl
    have hkl : k ∉ recent l := mt mem_recent.mp hl
    have htake : (l ++ k :: r).takeWhile (· ≠ k) = l := by
      rw [takeWhile_append_of_pos (by grind), takeWhile_cons_of_neg (by simp), append_nil]
    rw [mem_take_iff_idxOf_lt (mem_recent.mpr hk), h, idxOf_append_of_notMem hkl,
      idxOf_cons_self, Live, htake, recent_length]
    simp
  · refine iff_of_false (fun h => hk (mem_recent.mp (mem_of_mem_take h))) fun h => hk h.1

theorem take_erase_take (l : List κ) (k : κ) : ∀ n : ℕ,
    ((l.take (n + 1)).erase k).take n = (l.erase k).take n := by
  induction l with
  | nil => simp
  | cons a l ih =>
    intro n
    by_cases ha : a = k
    · simp [ha]
    · rw [take_succ_cons, erase_cons_tail (by simpa using ha), erase_cons_tail (by simpa using ha)]
      cases n with
      | zero => rfl
      | succ n => rw [take_succ_cons, take_succ_cons, ih]

/-- Using a key keeps the entries those most recent in the log. -/
theorem add_recent (h : l.entries = (recent log).take cap) (k : κ) :
    (l.add k).entries = (recent (k :: log)).take cap := by
  rw [add_entries, recent, h]
  cases cap with
  | zero => rfl
  | succ n => rw [take_succ_cons, take_succ_cons, take_erase_take]

end Lru
