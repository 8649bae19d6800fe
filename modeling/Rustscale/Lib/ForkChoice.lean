import Mathlib.Data.Set.Basic
import Mathlib.Tactic.Common

/-! Greedy walks down a forest, to the preferred known child of each node. Two parties agree once
each has learnt the walk of the other. -/
namespace ForkChoice
open List Or

/-- A forest with a preference between the children of each node. -/
structure Forest (α : Type*) where
  Child : α → α → Prop
  rank : α → ℕ
  lt : α → α → α → Prop
  rank_child : ∀ {p c}, Child p c → rank c = rank p + 1
  asymm : ∀ {p a b}, Child p a → Child p b → lt p a b → ¬ lt p b a
  trans : ∀ {p a b c}, Child p a → Child p b → Child p c → lt p a b → lt p b c → lt p a c
  total : ∀ {p a b}, Child p a → Child p b → a ≠ b → lt p a b ∨ lt p b a

variable {α : Type*} {F : Forest α} {S T : Set α}

namespace Forest

def Desc (F : Forest α) : α → α → Prop := Relation.TransGen F.Child

/-- With a node a set holds the parent of the node. -/
def Closed (F : Forest α) (S : Set α) : Prop := ∀ p c, F.Child p c → c ∈ S → p ∈ S

/-- `c` is the preferred child of `p` in `S`. -/
def Best (F : Forest α) (S : Set α) (p c : α) : Prop :=
  c ∈ S ∧ F.Child p c ∧ ∀ d ∈ S, F.Child p d → d = c ∨ F.lt p c d

/-- The nodes that the walk down from `x` in `S` visits after `x`. -/
inductive Walk (F : Forest α) (S : Set α) : α → List α → Prop
  | stop {x : α} (h : ∀ c ∈ S, ¬ F.Child x c) : Walk F S x []
  | step {x c : α} {l : List α} (h : F.Best S x c) (hw : Walk F S c l) : Walk F S x (c :: l)

variable {p y c d x : α} {l : List α}

theorem Desc.rank_lt {q : α} (h : F.Desc p q) : F.rank p < F.rank q := by
  induction h with
  | single h =>
    rw [F.rank_child h]
    exact Nat.lt_succ_self _
  | tail _ h ih =>
    rw [F.rank_child h]
    exact Nat.lt_succ_of_lt ih

theorem Closed.not_mem (h : F.Closed S) {a : α} (ha : a ∉ S) (hy : F.Desc a y) : y ∉ S := by
  induction hy with
  | single hc => exact fun hm => ha (h _ _ hc hm)
  | tail _ hc ih => exact fun hm => ih (h _ _ hc hm)

theorem Best.unique (hc : F.Best S p c) (hd : F.Best S p d) : c = d := by
  rcases hc.2.2 d hd.1 hd.2.1 with h | h
  · exact h.symm
  · rcases hd.2.2 c hc.1 hc.2.1 with h' | h'
    · exact h'
    · exact absurd h' (F.asymm hc.2.1 hd.2.1 h)

theorem Walk.unique {l' : List α} (h : F.Walk S x l) (h' : F.Walk S x l') : l = l' := by
  induction h generalizing l' with
  | stop h =>
    cases h' with
    | stop => rfl
    | step hb => exact absurd hb.2.1 (h _ hb.1)
  | step hb _ ih =>
    cases h' with
    | stop h => exact absurd hb.2.1 (h _ hb.1)
    | step hb' hw' =>
      obtain rfl := hb.unique hb'
      rw [ih hw']

theorem Walk.mem (h : F.Walk S x l) (hy : y ∈ l) : y ∈ S := by
  induction h with
  | stop => cases hy
  | step hb _ ih =>
    rcases mem_cons.mp hy with rfl | hy
    · exact hb.1
    · exact ih hy

theorem Walk.desc (h : F.Walk S x l) (hy : y ∈ l) : F.Desc x y := by
  induction h with
  | stop => cases hy
  | step hb _ ih =>
    rcases mem_cons.mp hy with rfl | hy
    · exact .single hb.2.1
    · exact .head hb.2.1 (ih hy)

theorem Walk.eq_of_child (hc : F.Child x c) (h : F.Walk S c l) (hd : F.Child x d)
    (hm : d ∈ c :: l) : d = c := by
  rcases mem_cons.mp hm with rfl | hm
  · rfl
  · have := (h.desc hm).rank_lt
    rw [F.rank_child hc, F.rank_child hd] at this
    omega

theorem Walk.restrict (h : F.Walk S x l) (hl : ∀ y ∈ l, y ∈ T)
    (hT : ∀ y, F.Desc x y → y ∈ T → y ∈ S) : F.Walk T x l := by
  induction h with
  | stop h => exact .stop fun c hc hx => h c (hT c (.single hx) hc) hx
  | step hb hw ih =>
    refine .step ⟨hl _ mem_cons_self, hb.2.1, fun d hd hx => ?_⟩
      (ih (fun y hy => hl y (mem_cons_of_mem _ hy)) fun y hy => hT y (.head hb.2.1 hy))
    exact hb.2.2 d (hT d (.single hx) hd) hx

section Extend

variable {x : α} {l us : List α}

theorem Walk.last (h : F.Walk S x l) : ∀ c ∈ S, ¬ F.Child (l.getLastD x) c := by
  induction h with
  | stop h => exact h
  | step _ _ ih => rwa [getLastD_cons]

theorem Desc.of_path (hp : List.IsChain F.Child (x :: us)) :
    ∀ y ∈ us, F.Desc x y := by
  induction us generalizing x with
  | nil => exact fun y hy => absurd hy not_mem_nil
  | cons u us ih =>
    obtain ⟨hxu, hus⟩ := isChain_cons_cons.mp hp
    intro y hy
    rcases mem_cons.mp hy with rfl | hy
    · exact .single hxu
    · exact .head hxu (ih hus y hy)

/-- A path without siblings is the walk. -/
theorem Walk.of_path (hp : List.IsChain F.Child (x :: us)) (hT : ∀ u ∈ us, u ∈ T)
    (honly : ∀ p ∈ x :: us, ∀ d ∈ T, F.Child p d → d ∈ us) :
    F.Walk T x us := by
  induction us generalizing x with
  | nil => exact .stop fun c hc hx => not_mem_nil (honly x mem_cons_self c hc hx)
  | cons u us ih =>
    obtain ⟨hxu, hus⟩ := isChain_cons_cons.mp hp
    refine .step ⟨hT u mem_cons_self, hxu, fun d hd hx => inl ?_⟩
      (ih hus (fun y hy => hT y (mem_cons_of_mem _ hy)) fun p hpm d hd hpd => ?_)
    · rcases mem_cons.mp (honly x mem_cons_self d hd hx) with hdu | hdus
      · exact hdu
      · have := (Desc.of_path hus d hdus).rank_lt
        rw [F.rank_child hx, F.rank_child hxu] at this
        omega
    · rcases mem_cons.mp (honly p (mem_cons_of_mem _ hpm) d hd hpd) with rfl | hdus
      · rcases mem_cons.mp hpm with rfl | hpm
        · exact absurd (F.rank_child hpd) (by omega)
        · have := (Desc.of_path hus p hpm).rank_lt
          rw [F.rank_child hpd] at this
          omega
      · exact hdus

theorem Walk.append (h : F.Walk S x l) (hST : ∀ y ∈ S, y ∈ T)
    (hnew : ∀ p ∈ x :: l, p ≠ l.getLastD x → ∀ c ∈ T, F.Child p c → c ∈ S)
    (hus : F.Walk T (l.getLastD x) us) : F.Walk T x (l ++ us) := by
  induction h with
  | stop => exact hus
  | @step x c l hb hw ih =>
    simp only [getLastD_cons] at hnew hus
    have hne : x ≠ l.getLastD c := by
      have hmem : l.getLastD c ∈ c :: l := getLastD_mem_cons
      intro he
      have := (Walk.step hb hw).desc hmem
      rw [← he] at this
      exact lt_irrefl _ this.rank_lt
    refine .step ⟨hST c hb.1, hb.2.1, fun d hd hx => ?_⟩ (ih (fun p hp hpl => ?_) hus)
    · exact hb.2.2 d (hnew x mem_cons_self hne d hd hx) hx
    · exact hnew p (mem_cons_of_mem _ hp) hpl

theorem exists_parent (hp : List.IsChain F.Child (x :: us)) :
    ∀ c ∈ us, ∃ q ∈ x :: us, F.Child q c := by
  induction us generalizing x with
  | nil => exact fun c hc => absurd hc not_mem_nil
  | cons u us ih =>
    obtain ⟨hxu, hus⟩ := isChain_cons_cons.mp hp
    intro c hc
    rcases mem_cons.mp hc with rfl | hc
    · exact ⟨x, mem_cons_self, hxu⟩
    · obtain ⟨q, hq, hqc⟩ := ih hus c hc
      exact ⟨q, mem_cons_of_mem _ hq, hqc⟩

/-- A party that learns a path down from the end of its walk follows the path. -/
theorem Walk.extend (h : F.Walk S x l) (hx : x ∈ S) (hS : F.Closed S)
    (huniq : ∀ {p q c}, F.Child p c → F.Child q c → p = q)
    (hp : List.IsChain F.Child (l.getLastD x :: us)) (hT : ∀ y, y ∈ T ↔ y ∈ S ∨ y ∈ us) :
    F.Walk T x (l ++ us) := by
  have hfresh : ∀ u ∈ us, u ∉ S := by
    cases us with
    | nil => exact fun u hu => absurd hu not_mem_nil
    | cons v us =>
      obtain ⟨hxv, hus⟩ := isChain_cons_cons.mp hp
      have hv : v ∉ S := fun hv => h.last v hv hxv
      intro u hu
      rcases mem_cons.mp hu with rfl | hu
      · exact hv
      · exact hS.not_mem hv (Desc.of_path hus u hu)
  refine h.append (fun y hy => (hT y).mpr (inl hy)) (fun p hpl hne c hc hpc => ?_)
    (.of_path hp (fun u hu => (hT u).mpr (inr hu)) fun p hpm d hd hpd => ?_)
  · rcases (hT c).mp hc with hcS | hcus
    · exact hcS
    · have hpS : p ∈ S := (mem_cons.mp hpl).elim (fun he => he ▸ hx) h.mem
      obtain ⟨q, hq, hqc⟩ := exists_parent hp c hcus
      obtain rfl := huniq hpc hqc
      rcases mem_cons.mp hq with he | hq
      · exact absurd he hne
      · exact absurd hpS (hfresh p hq)
  · rcases (hT d).mp hd with hdS | hdus
    · have hpS := hS p d hpd hdS
      rcases mem_cons.mp hpm with rfl | hpm
      · exact absurd hpd (h.last d hdS)
      · exact absurd hpS (hfresh p hpm)
    · exact hdus

end Extend

section Merge
variable {A B U V : Set α} {x : α}

/-- What two parties know below `x` once each has learnt the walk of the other. -/
structure Merged (F : Forest α) (A B U V : Set α) (x : α) (lA lB : List α) : Prop where
  left : ∀ y, F.Desc x y → (y ∈ U ↔ y ∈ A ∨ y ∈ lB)
  right : ∀ y, F.Desc x y → (y ∈ V ↔ y ∈ B ∨ y ∈ lA)

variable {lA lB : List α} {a : α}

theorem Merged.symm (h : F.Merged A B U V x lA lB) : F.Merged B A V U x lB lA := ⟨h.right, h.left⟩

/-- When the first branch wins, both sides walk down it. -/
theorem Merged.win (hm : F.Merged A B U V x (a :: lA) lB) (ha : F.Best A x a) (hA : F.Walk A a lA)
    (hB : F.Walk B x lB) (hclosed : F.Closed B) (hwin : ∀ d ∈ B, F.Child x d → d ≠ a ∧ F.lt x a d) :
    F.Walk U x (a :: lA) ∧ F.Walk V x (a :: lA) := by
  have hnot : ∀ y, F.Desc a y → y ∉ B := fun y hy =>
    hclosed.not_mem (fun hab => (hwin a hab ha.2.1).1 rfl) hy
  have hxa : ∀ {y}, F.Desc a y → F.Desc x y := fun hy => .head ha.2.1 hy
  constructor
  · refine .step ⟨(hm.left a (.single ha.2.1)).mpr (inl ha.1), ha.2.1, fun d hd hx => ?_⟩
      (hA.restrict (fun y hy => ?_) fun y hy hU => ?_)
    · rcases (hm.left d (.single hx)).mp hd with hdA | hdB
      · exact ha.2.2 d hdA hx
      · exact inr (hwin d (hB.mem hdB) hx).2
    · exact (hm.left y (hxa (hA.desc hy))).mpr (inl (hA.mem hy))
    · rcases (hm.left y (hxa hy)).mp hU with hyA | hyB
      · exact hyA
      · exact absurd (hB.mem hyB) (hnot y hy)
  · refine .step ⟨(hm.right a (.single ha.2.1)).mpr (inr mem_cons_self), ha.2.1,
      fun d hd hx => ?_⟩ (hA.restrict (fun y hy => ?_) fun y hy hV => ?_)
    · rcases (hm.right d (.single hx)).mp hd with hdB | hdA
      · exact inr (hwin d hdB hx).2
      · exact inl (hA.eq_of_child ha.2.1 hx hdA)
    · exact (hm.right y (hxa (hA.desc hy))).mpr (inr (mem_cons_of_mem _ hy))
    · rcases (hm.right y (hxa hy)).mp hV with hyB | hyA
      · exact absurd hyB (hnot y hy)
      · rcases mem_cons.mp hyA with rfl | hyA
        · exact ha.1
        · exact hA.mem hyA

theorem Merged.below (hm : F.Merged A B U V x (a :: lA) (a :: lB)) (hx : F.Child x a) :
    F.Merged A B U V a lA lB := by
  have hne : ∀ y, F.Desc a y → y ≠ a := fun y hy he => by
    have := hy.rank_lt
    rw [he] at this
    exact lt_irrefl _ this
  constructor
  · intro y hy
    rw [hm.left y (.head hx hy), mem_cons]
    simp [hne y hy]
  · intro y hy
    rw [hm.right y (.head hx hy), mem_cons]
    simp [hne y hy]

theorem Merged.best (hm : F.Merged A B U V x lA (a :: lB)) (ha : F.Best A x a)
    (hB : F.Walk B a lB) : F.Best U x a := by
  refine ⟨(hm.left a (.single ha.2.1)).mpr (inl ha.1), ha.2.1, fun d hd hx => ?_⟩
  rcases (hm.left d (.single hx)).mp hd with hdA | hdB
  · exact ha.2.2 d hdA hx
  · exact inl (hB.eq_of_child ha.2.1 hx hdB)

theorem Best.beats {b : α} (hb : F.Best B x b) (ha : F.Child x a) (hab : a ≠ b) (hlt : F.lt x a b) :
    ∀ d ∈ B, F.Child x d → d ≠ a ∧ F.lt x a d := by
  intro d hd hx
  rcases hb.2.2 d hd hx with rfl | hbd
  · exact ⟨hab.symm, hlt⟩
  · have had := F.trans ha hb.2.1 hx hlt hbd
    refine ⟨?_, had⟩
    rintro rfl
    exact F.asymm ha ha had had

/-- Two parties that exchange the nodes on their walks walk the same way afterwards. -/
theorem Merged.converge (hm : F.Merged A B U V x lA lB) (hA : F.Walk A x lA) (hB : F.Walk B x lB)
    (hcA : F.Closed A) (hcB : F.Closed B) :
    ∃ l, F.Walk U x l ∧ F.Walk V x l := by
  induction hA generalizing lB with
  | stop hstop =>
    cases hB with
    | stop hstop' =>
      refine ⟨[], .stop fun c hc hx => ?_, .stop fun c hc hx => ?_⟩
      · exact ((hm.left c (.single hx)).mp hc).elim (fun h => hstop c h hx) not_mem_nil
      · exact ((hm.right c (.single hx)).mp hc).elim (fun h => hstop' c h hx) not_mem_nil
    | step hb hw =>
      obtain ⟨hV, hU⟩ := hm.symm.win hb hw (.stop hstop) hcA fun d hd hx => absurd hx (hstop d hd)
      exact ⟨_, hU, hV⟩
  | @step x a lA ha hwA ih =>
    cases hB with
    | stop hstop =>
      exact ⟨_, hm.win ha hwA (.stop hstop) hcB fun d hd hx => absurd hx (hstop d hd)⟩
    | @step _ b lB hb hwB =>
      by_cases hab : a = b
      · subst hab
        obtain ⟨l, hU, hV⟩ := ih (hm.below ha.2.1) hwB
        exact ⟨a :: l, .step (hm.best ha hwB) hU, .step (hm.symm.best hb hwA) hV⟩
      · rcases F.total ha.2.1 hb.2.1 hab with hlt | hlt
        · exact ⟨_, hm.win ha hwA (.step hb hwB) hcB (hb.beats ha.2.1 hab hlt)⟩
        · obtain ⟨hV, hU⟩ := hm.symm.win hb hwB (.step ha hwA) hcA
            (ha.beats hb.2.1 (Ne.symm hab) hlt)
          exact ⟨_, hU, hV⟩

end Merge

end Forest

end ForkChoice
