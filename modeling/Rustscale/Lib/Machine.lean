import Mathlib.Tactic

/-! Machines that take one step at a time and log what they do. -/

/-- A step may be refused; one that is taken says what it did. -/
structure Machine (σ α ο : Type) where
  start : σ
  step : σ → α → Option (σ × List ο)

namespace Machine
open List
variable {σ α ο : Type}

/-- Runs in which the environment keeps its promise, which depends on the log before a step. -/
inductive Run (m : Machine σ α ο) (env : List ο → List ο → Prop) : List ο → σ → Prop
  | start : Run m env [] m.start
  | step {log : List ο} {s s' : σ} {a : α} {new : List ο} (run : Run m env log s)
      (taken : m.step s a = some (s', new)) (kept : env log new) : Run m env (log ++ new) s'

section
variable {m : Machine σ α ο} {env : List ο → List ο → Prop} {log new : List ο} {s : σ}

theorem Run.invariant (h : Run m env log s) (P : List ο → σ → Prop) (start : P [] m.start)
    (step : ∀ log s a s' new, P log s → m.step s a = some (s', new) → env log new →
      P (log ++ new) s') : P log s := by
  induction h with
  | start => exact start
  | step _ taken kept ih => exact step _ _ _ _ _ ih taken kept

def exec (m : Machine σ α ο) : List α → List ο → σ → Option (List ο × σ)
  | [], log, s => some (log, s)
  | a :: as, log, s =>
    match m.step s a with
    | none => none
    | some (s', new) => exec m as (log ++ new) s'

/-- The environment keeps its promise during the run of given actions. -/
def Kept (m : Machine σ α ο) (env : List ο → List ο → Prop) : List α → List ο → σ → Prop
  | [], _, _ => True
  | a :: as, log, s =>
    match m.step s a with
    | none => True
    | some (s', new) => env log new ∧ Kept m env as (log ++ new) s'

def decKept [∀ log new, Decidable (env log new)] : ∀ (as : List α) (log : List ο) (s : σ),
    Decidable (Kept m env as log s)
  | [], _, _ => .isTrue trivial
  | a :: as, log, s =>
    match hs : m.step s a with
    | none => .isTrue (by rw [Kept, hs]; trivial)
    | some (s', new) =>
      have := decKept as (log ++ new) s'
      decidable_of_iff (env log new ∧ Kept m env as (log ++ new) s') (by rw [Kept, hs])

instance [∀ log new, Decidable (env log new)] (as : List α) (log : List ο) (s : σ) :
    Decidable (Kept m env as log s) := decKept as log s

theorem kept_of_forall (h : ∀ log new, env log new) :
    ∀ (as : List α) (log : List ο) (s : σ), Kept m env as log s
  | [], _, _ => trivial
  | a :: as, log, s => by
    rw [Kept]
    split
    · trivial
    · exact ⟨h _ _, kept_of_forall h as _ _⟩

theorem Run.exec (h : Run m env log s) {as : List α} {log' : List ο} {s' : σ}
    (hexec : Machine.exec m as log s = some (log', s')) (hkept : Kept m env as log s) :
    Run m env log' s' := by
  induction as generalizing log s with
  | nil =>
    cases hexec
    exact h
  | cons a as ih =>
    rw [Machine.exec] at hexec
    rw [Kept] at hkept
    split at hexec
    · cases hexec
    · next s1 new hs =>
      rw [hs] at hkept
      exact ih (h.step hs hkept.1) hexec hkept.2

end

theorem exists_run (m : Machine σ α ο) (env : List ο → List ο → Prop) (as : List α)
    (P : List ο → σ → Prop) [∀ log s, Decidable (P log s)]
    (h : (exec m as [] m.start).any (fun r => decide (P r.1 r.2)) = true)
    (hkept : Kept m env as [] m.start) : ∃ log s, Run m env log s ∧ P log s := by
  rw [Option.any_eq_true] at h
  obtain ⟨⟨log, s⟩, hexec, hP⟩ := h
  exact ⟨log, s, Run.start.exec hexec hkept, of_decide_eq_true hP⟩

/-- Each entry has a property of the log before it. -/
def Every (P : List ο → ο → Prop) (log : List ο) : Prop :=
  ∀ before o after, log = before ++ o :: after → P before o

section
variable {P : List ο → ο → Prop} {log new : List ο}

theorem every_nil : Every P [] := by
  intro before o after h
  simp at h

theorem every_concat {o : ο} : Every P (log ++ [o]) ↔ Every P log ∧ P log o := by
  constructor
  · intro h
    refine ⟨fun before x after heq => h before x (after ++ [o]) (by simp [heq]), h log o [] rfl⟩
  · rintro ⟨h, ho⟩ before x after heq
    rcases eq_nil_or_concat after with rfl | ⟨after, y, rfl⟩
    · obtain ⟨rfl, hx⟩ := append_inj' heq rfl
      obtain rfl : o = x := by simpa using hx
      exact ho
    · rw [concat_eq_append, ← cons_append, ← append_assoc] at heq
      exact h before x after (append_inj' heq rfl).1

theorem Every.left (h : Every P (log ++ new)) : Every P log :=
  fun before o after heq => h before o (after ++ new) (by simp [heq])

theorem Every.invariant {step : σ → ο → σ} {s : σ} {C : σ → ο → Prop} {P : σ → Prop}
    (h : Every (fun front o => C (front.foldl step s) o) log) (start : P s)
    (hstep : ∀ s o, P s → C s o → P (step s o)) : P (log.foldl step s) := by
  induction log using reverseRecOn with
  | nil => exact start
  | append_singleton log o ih =>
    obtain ⟨hlog, ho⟩ := every_concat.mp h
    rw [foldl_append]
    exact hstep _ _ (ih hlog) ho

/-- While a step keeps `P` exactly under a condition, `P` holds throughout exactly if the condition
is met at each step. -/
theorem every_iff {step : σ → ο → σ} {s : σ} {C : σ → ο → Prop} {I P : σ → Prop} (hI : I s)
    (hP : P s) (hstep : ∀ s o, I s → I (step s o) ∧ (P s → (P (step s o) ↔ C s o))) :
    (∀ front, front <+: log → P (front.foldl step s)) ↔
      Every (fun front o => C (front.foldl step s) o) log := by
  have hinv : ∀ front : List ο, I (front.foldl step s) := by
    intro front
    induction front using reverseRecOn with
    | nil => exact hI
    | append_singleton front o ih =>
      rw [foldl_append]
      exact (hstep _ o ih).1
  induction log using reverseRecOn with
  | nil => exact iff_of_true (by simpa using hP) every_nil
  | append_singleton log o ih =>
    have hlast : P (log.foldl step s) →
        (P ((log ++ [o]).foldl step s) ↔ C (log.foldl step s) o) := by
      rw [foldl_append]
      exact (hstep _ o (hinv log)).2
    rw [every_concat]
    constructor
    · intro h
      have hlog := fun front (hf : front <+: log) => h front (hf.trans (prefix_append log [o]))
      exact ⟨ih.mp hlog, (hlast (hlog log (prefix_refl log))).mp (h _ (prefix_refl _))⟩
    · rintro ⟨hevery, ho⟩ front hf
      have hlog := ih.mpr hevery
      rcases prefix_concat_iff.mp hf with rfl | hf
      · exact (hlast (hlog log (prefix_refl log))).mpr ho
      · exact hlog front hf

theorem Every.append (h : Every P log) (hnew : ∀ o ∈ new, ∀ before, P before o) :
    Every P (log ++ new) := by
  induction new using List.reverseRecOn with
  | nil => simpa using h
  | append_singleton new o ih =>
    rw [← append_assoc, every_concat]
    exact ⟨ih fun x hx => hnew x (mem_append_left _ hx), hnew o (by simp) _⟩

end

end Machine
