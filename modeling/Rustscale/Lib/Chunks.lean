import Mathlib.Tactic

/-! Cutting a list into pieces of one size, of which the last may be shorter. -/
namespace Chunks
open List

variable {α : Type}

/-- The first `n` pieces. -/
def chunks (size : ℕ) : ℕ → List α → List (List α)
  | 0, _ => []
  | n + 1, xs => xs.take size :: chunks size n (xs.drop size)

/-- Pieces of one size, the last not empty and maybe shorter. -/
def Pieces (size : ℕ) : List (List α) → Prop
  | [] => True
  | [x] => 0 < x.length ∧ x.length ≤ size
  | x :: y :: xs => x.length = size ∧ Pieces size (y :: xs)

theorem Pieces.cons {size : ℕ} (hsize : 0 < size) {x : List α} (hx : x.length = size)
    {xs : List (List α)} (h : Pieces size xs) : Pieces size (x :: xs) := by
  cases xs with
  | nil => exact ⟨hx ▸ hsize, hx.le⟩
  | cons y xs => exact ⟨hx, h⟩

theorem Pieces.concat {size : ℕ} (hsize : 0 < size) {xs : List (List α)}
    (h : ∀ x ∈ xs, x.length = size) {last : List α} (hlast : 0 < last.length)
    (hle : last.length ≤ size) : Pieces size (xs ++ [last]) := by
  induction xs with
  | nil => exact ⟨hlast, hle⟩
  | cons x xs ih =>
    exact (ih fun y hy => h y (mem_cons_of_mem _ hy)).cons hsize (h x mem_cons_self)

theorem chunks_flatten {size : ℕ} : ∀ {xs : List (List α)}, Pieces size xs →
    chunks size xs.length xs.flatten = xs
  | [], _ => rfl
  | [x], h => by simp [chunks, take_of_length_le h.2]
  | x :: y :: xs, h => by
    rw [length_cons, chunks, flatten_cons, ← h.1, take_left, drop_left, h.1, chunks_flatten h.2]

theorem Pieces.div_ceil {size : ℕ} (hsize : 0 < size) : ∀ {xs : List (List α)}, Pieces size xs →
    (xs.flatten.length + size - 1) / size = xs.length
  | [], _ => by
    simp only [flatten_nil, length_nil]
    exact Nat.div_eq_of_lt (by omega)
  | [x], h => by
    obtain ⟨hpos, hle⟩ := h
    rw [flatten_singleton, length_singleton]
    exact Nat.div_eq_of_lt_le (by omega) (by omega)
  | x :: y :: xs, h => by
    have ih := Pieces.div_ceil hsize h.2
    rw [flatten_cons, length_append, h.1, length_cons, ← ih, ← Nat.add_div_right _ hsize]
    congr 1
    omega

end Chunks
