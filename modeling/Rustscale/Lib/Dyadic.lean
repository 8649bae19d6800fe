import Mathlib.Tactic

/-! Aligned blocks of `2 ^ h` numbers: those with the quotient of `c`. -/
namespace Dyadic

def trailingZeros (w n : ℕ) : ℕ := (List.range w).findIdx fun j => n.testBit j

theorem testBit_of_lt_trailingZeros {w n j : ℕ} (h : j < trailingZeros w n) :
    n.testBit j = false := by
  have hlt := List.not_of_lt_findIdx h
  simpa using hlt

theorem two_pow_dvd {w n h : ℕ} (hh : h ≤ trailingZeros w n) : 2 ^ h ∣ n := by
  apply Nat.dvd_of_mod_eq_zero
  apply Nat.eq_of_testBit_eq
  intro j
  rw [Nat.testBit_mod_two_pow, Nat.zero_testBit]
  by_cases hj : j < h
  · rw [testBit_of_lt_trailingZeros (lt_of_lt_of_le hj hh), Bool.and_false]
  · simp [hj]

theorem div_eq_iff {h c : ℕ} (hc : 2 ^ h ∣ c) (v : ℕ) :
    c / 2 ^ h = v / 2 ^ h ↔ c ≤ v ∧ v < c + 2 ^ h := by
  obtain ⟨k, rfl⟩ := hc
  have hpos : 0 < 2 ^ h := Nat.two_pow_pos h
  rw [Nat.mul_div_cancel_left k hpos, eq_comm, Nat.div_eq_iff hpos]
  have hk : k * 2 ^ h = 2 ^ h * k := Nat.mul_comm _ _
  omega

end Dyadic
