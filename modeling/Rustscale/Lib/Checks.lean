import Mathlib.Tactic.Common

/-! When a sequence of checks ends in `ok`, or in a given error. -/
namespace Checks
variable {ε δ α β : Type}

def ensure (c : Bool) (e : ε) : Except ε Unit := if c then .ok () else .error e

def okOr (o : Option α) (e : ε) : Except ε α :=
  match o with
  | some a => .ok a
  | none => .error e

@[simp] theorem ensure_eq_ok {c : Bool} {e : ε} {u : Unit} : ensure c e = .ok u ↔ c = true := by
  unfold ensure
  split_ifs with h <;> simp [h]

@[simp] theorem ensure_true (e : ε) : ensure true e = .ok () := rfl

@[simp] theorem okOr_eq_ok {o : Option α} {e : ε} {a : α} : okOr o e = .ok a ↔ o = some a := by
  cases o <;> simp [okOr]

@[simp] theorem okOr_some (a : α) (e : ε) : okOr (some a) e = .ok a := rfl

@[simp] theorem bind_eq_ok {x : Except ε α} {f : α → Except ε β} {b : β} :
    x >>= f = .ok b ↔ ∃ a, x = .ok a ∧ f a = .ok b := by
  cases x with
  | error e | ok a => simp [bind, Except.bind]

theorem exists_unit {p : Unit → Prop} : (∃ u, p u) ↔ p () := ⟨fun ⟨_, h⟩ => h, fun h => ⟨(), h⟩⟩

@[simp] theorem ok_bind (a : α) (f : α → Except ε β) : (Except.ok a >>= f) = f a := rfl

@[simp] theorem mapError_eq_ok {f : ε → δ} {x : Except ε α} {a : α} :
    x.mapError f = .ok a ↔ x = .ok a := by
  cases x <;> simp [Except.mapError]

@[simp] theorem mapError_ok (f : ε → δ) (a : α) :
    (Except.ok a : Except ε α).mapError f = .ok a := rfl

theorem exists_error {x : Except ε α} (h : ∀ a, x ≠ .ok a) : ∃ e, x = .error e := by
  cases x with
  | error e => exact ⟨e, rfl⟩
  | ok a => exact absurd rfl (h a)

def lift {σ : Type} (x : Except ε α) : EStateM ε σ α := fun s =>
  match x with
  | .ok a => .ok a s
  | .error e => .error e s

section
variable {σ : Type} {s s' : σ}

variable {x : EStateM ε σ α} {f : α → EStateM ε σ β} {a : α} {b : β} {e : ε}

theorem run_bind_of_ok (h : x.run s = .ok a s') : (x >>= f).run s = (f a).run s' := by
  simp only [EStateM.run, bind, EStateM.bind] at h ⊢
  rw [h]

theorem run_bind_eq_ok :
    (x >>= f).run s = .ok b s' ↔ ∃ a s1, x.run s = .ok a s1 ∧ (f a).run s1 = .ok b s' := by
  simp only [EStateM.run, bind, EStateM.bind]
  cases x s with
  | ok a s1 => simp
  | error e s1 => simp

theorem run_bind_eq_error :
    (x >>= f).run s = .error e s' ↔
      x.run s = .error e s' ∨ ∃ a s1, x.run s = .ok a s1 ∧ (f a).run s1 = .error e s' := by
  simp only [EStateM.run, bind, EStateM.bind]
  cases x s with
  | ok a s1 => simp
  | error e s1 => simp

@[simp] theorem run_lift_eq_ok {x : Except ε α} :
    (lift x).run s = .ok a s' ↔ x = .ok a ∧ s = s' := by
  cases x <;> simp [lift, EStateM.run]

@[simp] theorem run_lift_eq_error {x : Except ε α} :
    (lift x).run s = .error e s' ↔ x = .error e ∧ s = s' := by
  cases x <;> simp [lift, EStateM.run]

theorem run_lift_bind_eq_ok {x : Except ε α} :
    (lift x >>= f).run s = .ok b s' ↔ ∃ a, x = .ok a ∧ (f a).run s = .ok b s' := by
  rw [run_bind_eq_ok]
  refine exists_congr fun a => ?_
  simp only [run_lift_eq_ok]
  exact ⟨fun ⟨_, ⟨hx, hs⟩, hf⟩ => ⟨hx, hs ▸ hf⟩, fun ⟨hx, hf⟩ => ⟨s, ⟨hx, rfl⟩, hf⟩⟩

@[simp] theorem lift_ok_bind (a : α) (f : α → EStateM ε σ β) : lift (.ok a) >>= f = f a := rfl

end

end Checks
