import Mathlib.Tactic

/-! Allotted binary tables, in heap order: a value installed at a node is copied to every node below
it that has no closer value. -/
namespace Allotment
open Function Or Finset

def Below (i j : ℕ) : Prop := ∃ k, j / 2 ^ k = i

theorem Below.refl (i : ℕ) : Below i i := ⟨0, by simp⟩

theorem Below.le {i j : ℕ} (h : Below i j) : i ≤ j := by
  obtain ⟨k, rfl⟩ := h
  exact Nat.div_le_self _ _

theorem Below.half {i j : ℕ} (h : Below i j) (hne : j ≠ i) : Below i (j / 2) := by
  obtain ⟨k, hk⟩ := h
  cases k with
  | zero => simp at hk; exact absurd hk hne
  | succ k => exact ⟨k, by rw [Nat.div_div_eq_div_mul, ← pow_succ', hk]⟩

theorem Below.of_half {i j : ℕ} (h : Below i (j / 2)) : Below i j := by
  obtain ⟨k, hk⟩ := h
  exact ⟨k + 1, by rw [pow_succ', ← Nat.div_div_eq_div_mul, hk]⟩

theorem Below.trans {i j l : ℕ} (h : Below i j) (h' : Below j l) : Below i l := by
  obtain ⟨k, rfl⟩ := h
  obtain ⟨m, rfl⟩ := h'
  exact ⟨m + k, by rw [Nat.div_div_eq_div_mul, pow_add]⟩

theorem below_self_or_child {i j : ℕ} (h : Below i j) :
    j = i ∨ Below (2 * i) j ∨ Below (2 * i + 1) j := by
  obtain ⟨k, hk⟩ := h
  cases k with
  | zero => left; simpa using hk
  | succ k =>
    right
    rw [pow_succ, ← Nat.div_div_eq_div_mul] at hk
    rcases Nat.mod_two_eq_zero_or_one (j / 2 ^ k) with h0 | h1
    · exact inl ⟨k, by omega⟩
    · exact inr ⟨k, by omega⟩

theorem Below.of_left {i j : ℕ} (h : Below (2 * i) j) : Below i j :=
  Below.trans (Below.of_half (by simpa using Below.refl i)) h

theorem Below.of_right {i j : ℕ} (h : Below (2 * i + 1) j) : Below i j :=
  Below.trans (Below.of_half (by rw [show (2 * i + 1) / 2 = i by omega]; exact Below.refl i)) h

theorem below_or_below {i j l : ℕ} (h : Below i l) (h' : Below j l) : Below i j ∨ Below j i := by
  obtain ⟨k, rfl⟩ := h
  obtain ⟨m, rfl⟩ := h'
  rcases Nat.le_total k m with hkm | hmk
  · refine inr ⟨m - k, ?_⟩
    rw [Nat.div_div_eq_div_mul, ← pow_add, Nat.add_sub_cancel' hkm]
  · refine inl ⟨k - m, ?_⟩
    rw [Nat.div_div_eq_div_mul, ← pow_add, Nat.add_sub_cancel' hmk]

theorem not_below_siblings {i j : ℕ} (hi : 0 < i) (h : Below (2 * i) j) :
    ¬ Below (2 * i + 1) j := by
  intro h'
  rcases below_or_below h h' with hb | hb
  · have := (hb.half (by omega)).le
    omega
  · have := hb.le
    omega

variable {α : Type*} [DecidableEq α]

/-- The value installed at `i` itself: its entry, unless inherited from its parent. -/
def rootAt (e : ℕ → Option α) (i : ℕ) : Option α :=
  if i ≠ 1 ∧ e (i / 2) = e i then none else e i

/-- Replace `old` by `new` at `index` and below, as far down as the entries are `old`. -/
def allot (first : ℕ) (e : ℕ → Option α) (index : ℕ) (old new : Option α) : ℕ → Option α :=
  if e index ≠ old then e
  else if first ≤ index ∨ index = 0 then update e index new
  else
    allot first (allot first (update e index new) (2 * index) old new) (2 * index + 1) old new
termination_by first - index

variable (first : ℕ)

/-- Below `i`, the entries equal to `old` form a connected top part. -/
def Conn (e : ℕ → Option α) (i : ℕ) (old : Option α) : Prop :=
  ∀ j < 2 * first, Below i j → j ≠ i → e j = old → e (j / 2) = old

omit [DecidableEq α] in
theorem Conn.root {first i : ℕ} {e : ℕ → Option α} {old : Option α} (h : Conn first e i old)
    {j : ℕ} (hj : j < 2 * first) (hb : Below i j) (he : e j = old) : e i = old := by
  induction j using Nat.strong_induction_on with
  | _ j ih =>
    by_cases hne : j = i
    · rwa [← hne]
    · have hi := hb.le
      exact ih (j / 2) (by omega) (by omega) (hb.half hne) (h j hj hb hne he)

private theorem below_eq_of_first_le {first i j : ℕ} (hi : first ≤ i) (hj : j < 2 * first)
    (h : Below i j) : j = i := by
  by_contra hne
  have := (h.half hne).le
  omega

omit [DecidableEq α] in
private theorem Conn.child {first i c : ℕ} {e e' : ℕ → Option α} {old : Option α}
    (h : Conn first e i old) (hc : c = 2 * i ∨ c = 2 * i + 1)
    (heq : ∀ j < 2 * first, Below c j → e' j = e j) : Conn first e' c old := by
  intro j hj hb hne he
  have hbi : Below i j := by
    rcases hc with rfl | rfl
    · exact hb.of_left
    · exact hb.of_right
  have hlt := hb.le
  rw [heq _ (by omega) (hb.half hne)]
  refine h j hj hbi ?_ (by rwa [← heq j hj hb])
  rintro rfl
  exact hne (by omega)

/-- The walk changes the entries below that have the old value, and no others. -/
theorem allot_apply (e : ℕ → Option α) (i : ℕ) (old new : Option α) (hi : 0 < i)
    (hconn : Conn first e i old) : ∀ j < 2 * first,
    (Below i j → e j = old → allot first e i old new j = new) ∧
    (¬ (Below i j ∧ e j = old) → allot first e i old new j = e j) := by
  induction e, i using allot.induct first old new with
  | case1 e i hne =>
    intro j hj
    rw [allot, if_pos hne]
    exact ⟨fun hb he => absurd (hconn.root hj hb he) hne, fun _ => rfl⟩
  | case2 e i heq hleaf =>
    intro j hj
    rw [allot, if_neg heq]
    simp only [hleaf, ↓reduceIte]
    constructor
    · intro hb _
      rw [below_eq_of_first_le (by omega) hj hb]
      exact update_self ..
    · intro hn
      by_cases hji : j = i
      · subst hji
        exact absurd ⟨Below.refl j, not_not.mp heq⟩ hn
      · exact update_of_ne hji ..
  | case3 e i heq hleaf ih1 ih2 =>
    rw [allot, if_neg heq, if_neg hleaf]
    set e1 := update e i new with he1
    have hup : ∀ c, c = 2 * i ∨ c = 2 * i + 1 → ∀ j < 2 * first, Below c j → e1 j = e j := by
      intro c hc j _ hb
      have := hb.le
      exact update_of_ne (by omega) ..
    have h1 := ih1 (by omega) (hconn.child (inl rfl) (hup _ (inl rfl)))
    set e2 := allot first e1 (2 * i) old new with he2
    have hsib : ∀ j < 2 * first, Below (2 * i + 1) j → e2 j = e j := by
      intro j hj hb
      rw [(h1 j hj).2 fun h => not_below_siblings hi h.1 hb]
      exact hup _ (inr rfl) j hj hb
    have h2 := ih2 (by omega) (hconn.child (inr rfl) hsib)
    have hroot : ∀ c, c = 2 * i ∨ c = 2 * i + 1 → ¬ Below c i := by
      intro c hc hb
      have := hb.le
      omega
    intro j hj
    constructor
    · intro hb he
      rcases below_self_or_child hb with rfl | hl | hr
      · rw [(h2 j hj).2 fun h => hroot _ (inr rfl) h.1, (h1 j hj).2 fun h => hroot _ (inl rfl) h.1]
        exact update_self ..
      · rw [(h2 j hj).2 fun h => not_below_siblings hi hl h.1]
        exact (h1 j hj).1 hl (by rw [hup _ (inl rfl) j hj hl, he])
      · exact (h2 j hj).1 hr (by rw [hsib j hj hr, he])
    · intro hn
      have hji : j ≠ i := by
        rintro rfl
        exact hn ⟨Below.refl j, not_not.mp heq⟩
      have hej : e1 j = e j := update_of_ne hji ..
      have he2j : e2 j = e j := by
        rw [(h1 j hj).2 fun h => hn ⟨h.1.of_left, by rw [← hej, h.2]⟩, hej]
      rw [(h2 j hj).2 fun h => hn ⟨h.1.of_right, by rw [← he2j, h.2]⟩, he2j]

/-- Nodes below a covered one are covered, and each value is installed at one node only. -/
structure Allotted (first : ℕ) (e : ℕ → Option α) : Prop where
  covered : ∀ i, 2 ≤ i → i < 2 * first → e (i / 2) ≠ none → e i ≠ none
  unique : ∀ i j r, 1 ≤ i → i < 2 * first → 1 ≤ j → j < 2 * first →
    rootAt e i = some r → rootAt e j = some r → i = j

section
variable {e : ℕ → Option α} {i : ℕ}

theorem rootAt_eq_some {r : α} (h : rootAt e i = some r) :
    e i = some r ∧ (i = 1 ∨ e (i / 2) ≠ some r) := by
  unfold rootAt at h
  split_ifs at h with hc
  refine ⟨h, ?_⟩
  by_cases h1 : i = 1
  · exact inl h1
  · exact inr fun hp => hc ⟨h1, by rw [hp, h]⟩

theorem rootAt_of_ne (h : i = 1 ∨ e (i / 2) ≠ e i) : rootAt e i = e i := by
  unfold rootAt
  rw [if_neg]
  rintro ⟨h1, hp⟩
  exact h.elim h1 fun hn => hn hp

theorem rootAt_of_eq (hi : i ≠ 1) (h : e (i / 2) = e i) : rootAt e i = none := by
  unfold rootAt
  rw [if_pos ⟨hi, h⟩]

end

theorem rootAt_congr {e e' : ℕ → Option α} {i : ℕ} (h : e' i = e i)
    (hp : i ≠ 1 → e' (i / 2) = e (i / 2)) : rootAt e' i = rootAt e i := by
  unfold rootAt
  by_cases hi : i = 1
  · simp [hi, hi ▸ h]
  · rw [h, hp hi]

theorem Allotted.empty : Allotted first (fun _ => (none : Option α)) :=
  ⟨fun _ _ _ h => absurd rfl h, fun i _ _ _ _ _ _ h => by
    have := (rootAt_eq_some h).1
    simp at this⟩

namespace Allotted
variable {first : ℕ} {e : ℕ → Option α}

theorem covered_below (h : Allotted first e) {i j : ℕ} (hi : 0 < i) (hj : j < 2 * first)
    (hb : Below i j) (he : e i ≠ none) : e j ≠ none := by
  induction j using Nat.strong_induction_on with
  | _ j ih =>
    by_cases hne : j = i
    · rwa [hne]
    · have hle := hb.le
      exact h.covered j (by omega) hj (ih (j / 2) (by omega) (by omega) (hb.half hne))

/-- The value of an entry is installed at its nearest occupied ancestor. -/
theorem nearest (e : ℕ → Option α) {i : ℕ} (hi : 0 < i) {r : α} (he : e i = some r) :
    ∃ a, 0 < a ∧ Below a i ∧ rootAt e a = some r ∧
      ∀ b, Below b i → a < b → rootAt e b = none := by
  induction i using Nat.strong_induction_on with
  | _ i ih =>
    by_cases hr : i = 1 ∨ e (i / 2) ≠ e i
    · refine ⟨i, hi, Below.refl i, by rw [rootAt_of_ne hr, he], fun b hb hlt => ?_⟩
      have := hb.le
      omega
    · push Not at hr
      obtain ⟨a, ha, hab, har, hmax⟩ := ih (i / 2) (by omega) (by omega) (by rw [hr.2, he])
      refine ⟨a, ha, hab.of_half, har, fun b hb hlt => ?_⟩
      by_cases hbi : i = b
      · rw [← hbi, rootAt_of_eq hr.1 hr.2]
      · exact hmax b (hb.half hbi) hlt

theorem conn (h : Allotted first e) {i : ℕ} (hi : 0 < i) : Conn first e i (e i) := by
  intro j hj hb hne hej
  have hlt : i < j := lt_of_le_of_ne hb.le (Ne.symm hne)
  cases hold : e i with
  | none =>
    by_contra hp
    exact h.covered j (by omega) hj hp (by rw [hej, hold])
  | some r =>
    by_contra hp
    have hej' : e j = some r := by rw [hej, hold]
    obtain ⟨a, ha, hab, har, -⟩ := nearest e hi hold
    have hrj : rootAt e j = some r := by
      rw [rootAt_of_ne (inr (by rw [hej']; exact hp)), hej']
    have hai := hab.le
    have := h.unique a j r ha (by omega) (by omega) hj har hrj
    omega

/-- No other root moves. -/
theorem rootAt_allot {i j : ℕ} {old new : Option α} (hi : 0 < i) (hconn : Conn first e i old)
    (hj : j < 2 * first) (hji : j ≠ i)
    (hdiff : i < j → e (j / 2) = old → e j ≠ old → new ≠ e j) :
    rootAt (allot first e i old new) j = rootAt e j := by
  have hap := allot_apply first e i old new hi hconn
  by_cases hb : Below i j
  · have hb2 := hb.half hji
    have hlt : i < j := lt_of_le_of_ne hb.le (Ne.symm hji)
    have hj2 : j / 2 < 2 * first := by omega
    by_cases hej : e j = old
    · have hp := hconn j hj hb hji hej
      rw [rootAt_of_eq (by omega) (by rw [(hap _ hj2).1 hb2 hp, (hap j hj).1 hb hej]),
        rootAt_of_eq (by omega) (by rw [hp, hej])]
    · have hj' := (hap j hj).2 fun hc => hej hc.2
      by_cases hp : e (j / 2) = old
      · rw [rootAt_of_ne (inr _), rootAt_of_ne (inr _), hj']
        · rw [hp]
          exact fun hc => hej hc.symm
        · rw [(hap _ hj2).1 hb2 hp, hj']
          exact hdiff hlt hp hej
      · exact rootAt_congr hj' fun _ => (hap _ hj2).2 fun hc => hp hc.2
  · exact rootAt_congr ((hap j hj).2 fun hc => hb hc.1) fun h1 =>
      (hap _ (by omega)).2 fun hc => hb hc.1.of_half

/-- Installing a fresh value makes one more root. -/
theorem install (h : Allotted first e) {i : ℕ} (hi : 0 < i) {r : α}
    (hfresh : ∀ j, 0 < j → j < 2 * first → e j ≠ some r) :
    Allotted first (allot first e i (e i) (some r)) ∧
      ∀ j, 0 < j → j < 2 * first →
        rootAt (allot first e i (e i) (some r)) j = if j = i then some r else rootAt e j := by
  have hconn := h.conn hi
  have hap := allot_apply first e i (e i) (some r) hi hconn
  set e' := allot first e i (e i) (some r) with he'
  have hroot : ∀ j, 0 < j → j < 2 * first →
      rootAt e' j = if j = i then some r else rootAt e j := by
    intro j hj0 hj
    split_ifs with hji
    · subst hji
      have hself : e' j = some r := (hap j hj).1 (Below.refl j) rfl
      rw [rootAt_of_ne, hself]
      by_cases h1 : j = 1
      · exact inl h1
      · right
        have hnb : ¬ Below j (j / 2) := fun hb => by have := hb.le; omega
        rw [(hap (j / 2) (by omega)).2 fun hc => hnb hc.1, hself]
        exact hfresh _ (by omega) (by omega)
    · exact rootAt_allot hi hconn hj hji fun _ _ _ hc => hfresh j hj0 hj hc.symm
  refine ⟨⟨fun j hj2 hj hp => ?_, fun a b s ha hal hb hbl hra hrb => ?_⟩, hroot⟩
  · by_cases hc : Below i j ∧ e j = e i
    · rw [(hap j hj).1 hc.1 hc.2]
      simp
    · rw [(hap j hj).2 hc]
      intro hnone
      by_cases hb : Below i j
      · have hei : e i = none := by
          by_contra hne
          exact h.covered_below hi hj hb hne hnone
        exact hc ⟨hb, by rw [hnone, hei]⟩
      · have hnb : ¬ Below i (j / 2) := fun hx => hb hx.of_half
        rw [(hap _ (by omega)).2 fun hx => hnb hx.1] at hp
        exact h.covered j hj2 hj hp hnone
  · rw [hroot a ha hal] at hra
    rw [hroot b hb hbl] at hrb
    have hold : ∀ c, 0 < c → c < 2 * first → rootAt e c ≠ some r := fun c hc hcl hx =>
      hfresh c hc hcl (rootAt_eq_some hx).1
    split_ifs at hra hrb with h1 h2 h2
    · rw [h1, h2]
    · cases hra
      exact absurd hrb (hold b hb hbl)
    · cases hrb
      exact absurd hra (hold a ha hal)
    · exact h.unique a b s ha hal hb hbl hra hrb

/-- Removing a root gives its entries to its parent. -/
theorem remove (h : Allotted first e) {i : ℕ} (hi : 0 < i) (hi2 : i < 2 * first) {r : α}
    (hr : rootAt e i = some r) {new : Option α}
    (hnew : new = if i = 1 then none else e (i / 2)) :
    Allotted first (allot first e i (some r) new) ∧
      ∀ j, 0 < j → j < 2 * first →
        rootAt (allot first e i (some r) new) j = if j = i then none else rootAt e j := by
  obtain ⟨hei, hpar⟩ := rootAt_eq_some hr
  have hconn : Conn first e i (some r) := hei ▸ h.conn hi
  have hap := allot_apply first e i (some r) new hi hconn
  set e' := allot first e i (some r) new with he'
  have hup : i ≠ 1 → e' (i / 2) = new := by
    intro h1
    have hnb : ¬ Below i (i / 2) := fun hb => by have := hb.le; omega
    rw [(hap (i / 2) (by omega)).2 fun hc => hnb hc.1, hnew, if_neg h1]
  -- A value below the removed one differs from what its node now inherits.
  have hdiff : ∀ j, 0 < j → j < 2 * first → i < j → e (j / 2) = some r → e j ≠ some r →
      new ≠ e j := by
    intro j hj0 hj hij hp hne hcon
    have hcov := h.covered j (by omega) hj (by simp [hp])
    cases hs : e j with
    | none => exact hcov hs
    | some s =>
      have h1 : i ≠ 1 := by
        rintro rfl
        rw [if_pos rfl] at hnew
        rw [← hcon, hnew] at hs
        exact absurd hs (by simp)
      rw [if_neg h1] at hnew
      have hrj : rootAt e j = some s := by
        rw [rootAt_of_ne (inr (by rw [hp]; exact Ne.symm hne)), hs]
      obtain ⟨a, ha, hab, har, -⟩ := nearest e (i := i / 2) (r := s) (by omega)
        (by rw [← hnew, hcon, hs])
      have hai := hab.le
      have := h.unique a j s ha (by omega) hj0 hj har hrj
      omega
  have hroot : ∀ j, 0 < j → j < 2 * first →
      rootAt e' j = if j = i then none else rootAt e j := by
    intro j hj0 hj
    split_ifs with hji
    · subst hji
      have hself : e' j = new := (hap j hj).1 (Below.refl j) hei
      by_cases h1 : j = 1
      · rw [rootAt_of_ne (inl h1), hself, hnew, if_pos h1]
      · exact rootAt_of_eq h1 (by rw [hup h1, hself])
    · exact rootAt_allot hi hconn hj hji (hdiff j hj0 hj)
  refine ⟨⟨fun j hj2 hj hp => ?_, fun a b s ha hal hb hbl hra hrb => ?_⟩, hroot⟩
  · by_cases hc : Below i j ∧ e j = some r
    · rw [(hap j hj).1 hc.1 hc.2]
      by_cases hji : j = i
      · subst hji
        rwa [hup (by omega)] at hp
      · have hpar' := hconn j hj hc.1 hji hc.2
        rwa [(hap _ (by omega)).1 (hc.1.half hji) hpar'] at hp
    · rw [(hap j hj).2 hc]
      by_cases hb : Below i j
      · exact h.covered_below hi hj hb (by simp [hei])
      · have hnb : ¬ Below i (j / 2) := fun hx => hb hx.of_half
        rw [(hap _ (by omega)).2 fun hx => hnb hx.1] at hp
        exact h.covered j hj2 hj hp
  · rw [hroot a ha hal] at hra
    rw [hroot b hb hbl] at hrb
    split_ifs at hra hrb
    exact h.unique a b s ha hal hb hbl hra hrb

end Allotted

def rootCount (e : ℕ → Option α) : ℕ :=
  ((Finset.Ico 1 (2 * first)).filter fun i => (rootAt e i).isSome).card

theorem rootCount_eq_zero_iff {first : ℕ} {e : ℕ → Option α} :
    rootCount first e = 0 ↔ ∀ i, 0 < i → i < 2 * first → rootAt e i = none := by
  simp only [rootCount, card_eq_zero, filter_eq_empty_iff, mem_Ico,
    Option.not_isSome_iff_eq_none, and_imp]
  exact Iff.rfl

theorem rootCount_empty : rootCount first (fun _ => (none : Option α)) = 0 :=
  rootCount_eq_zero_iff.mpr fun i _ _ => by simp [rootAt]

section
variable {first : ℕ} {e e' : ℕ → Option α} {i : ℕ} {r : α} (hi : 0 < i) (hi2 : i < 2 * first)
include hi hi2

theorem rootCount_install (hfree : rootAt e i = none)
    (h : ∀ j, 0 < j → j < 2 * first → rootAt e' j = if j = i then some r else rootAt e j) :
    rootCount first e' = rootCount first e + 1 := by
  unfold rootCount
  rw [← card_insert_of_notMem (a := i) (by simp [hfree])]
  congr 1
  ext j
  simp only [mem_filter, mem_Ico, mem_insert]
  by_cases hji : j = i
  · subst hji
    simp [h j hi hi2, hi2]
    omega
  · constructor
    · rintro ⟨⟨hj0, hj⟩, hs⟩
      rw [h j hj0 hj, if_neg hji] at hs
      exact inr ⟨⟨hj0, hj⟩, hs⟩
    · rintro (hc | ⟨⟨hj0, hj⟩, hs⟩)
      · exact absurd hc hji
      · exact ⟨⟨hj0, hj⟩, by rw [h j hj0 hj, if_neg hji]; exact hs⟩

theorem rootCount_remove (hr : rootAt e i = some r)
    (h : ∀ j, 0 < j → j < 2 * first → rootAt e' j = if j = i then none else rootAt e j) :
    rootCount first e = rootCount first e' + 1 := by
  refine rootCount_install (r := r) hi hi2 (by rw [h i hi hi2, if_pos rfl]) fun j hj0 hj => ?_
  split_ifs with hji
  · rw [hji, hr]
  · rw [h j hj0 hj, if_neg hji]

end

end Allotment
