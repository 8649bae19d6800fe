import Mathlib.Tactic

/-! One's complement arithmetic: sums up to multiples of `2 ^ w - 1`; zero is the empty sum only. -/
namespace OnesComplement

open Nat

/-- The value in `0..m` that stands for a sum. -/
def canon (m s : ℕ) : ℕ := if s = 0 then 0 else if s % m = 0 then m else s % m

/-- `r` stands for the sum `s`, up to multiples of `m`. -/
structure Rep (m r s : ℕ) : Prop where
  modEq : r ≡ s [MOD m]
  zero : r = 0 ↔ s = 0

section
variable {m r s t : ℕ}

theorem Rep.refl (s : ℕ) : Rep m s s := ⟨rfl, Iff.rfl⟩

theorem Rep.symm (h : Rep m r s) : Rep m s r := ⟨h.modEq.symm, h.zero.symm⟩

theorem Rep.trans (h : Rep m r s) (h' : Rep m s t) : Rep m r t :=
  ⟨h.modEq.trans h'.modEq, h.zero.trans h'.zero⟩

theorem Rep.add {r' s' : ℕ} (h : Rep m r s) (h' : Rep m r' s') : Rep m (r + r') (s + s') :=
  ⟨h.modEq.add h'.modEq, by
    have h1 := h.zero
    have h2 := h'.zero
    omega⟩

theorem Rep.mul_left {k : ℕ} (hk : 0 < k) (h : Rep m r s) : Rep m (k * r) (k * s) :=
  ⟨h.modEq.mul_left k, by simp [hk.ne', h.zero]⟩

theorem Rep.dvd {m' : ℕ} (hd : m' ∣ m) (h : Rep m r s) : Rep m' r s :=
  ⟨h.modEq.of_dvd hd, h.zero⟩

section
variable (hm : 0 < m)
include hm

theorem Rep.eq_canon (h : Rep m r s) (hr : r ≤ m) : r = canon m s := by
  have hmod : r % m = s % m := h.modEq
  have hz := h.zero
  unfold canon
  split_ifs with h0 h1
  · exact hz.mpr h0
  · rw [h1] at hmod
    obtain ⟨k, rfl⟩ := dvd_of_mod_eq_zero hmod
    have hk : k ≠ 0 := by
      rintro rfl
      exact h0 (hz.mp (mul_zero _))
    have : m * 1 ≤ m * k := mul_le_mul_left _ (one_le_iff_ne_zero.mpr hk)
    omega
  · rcases hr.lt_or_eq with hlt | rfl
    · rw [← hmod, mod_eq_of_lt hlt]
    · exact absurd (hmod.symm.trans (mod_self _)) h1

theorem canon_le (s : ℕ) : canon m s ≤ m := by
  unfold canon
  split_ifs
  · exact zero_le _
  · exact le_rfl
  · exact (mod_lt _ hm).le

theorem rep_canon (s : ℕ) : Rep m (canon m s) s := by
  unfold canon
  split_ifs with h0 h1
  · exact ⟨h0 ▸ rfl, by simp [h0]⟩
  · exact ⟨((modEq_zero_iff_dvd.mpr dvd_rfl).trans h1.symm), by omega⟩
  · exact ⟨mod_modEq _ _, by omega⟩

theorem canon_eq_iff (s : ℕ) : canon m s = m ↔ s ≠ 0 ∧ m ∣ s := by
  have := mod_lt s hm
  rw [dvd_iff_mod_eq_zero]
  unfold canon
  split_ifs <;> omega

theorem canon_canon_add (s t : ℕ) : canon m (canon m s + t) = canon m (s + t) :=
  (((rep_canon hm _).trans ((rep_canon hm s).add (.refl t))).eq_canon hm (canon_le hm _))

/-- A sum completed with its complement is a sum of all ones. -/
theorem canon_add_compl (s : ℕ) : canon m (s + (m - canon m s)) = m := by
  have hle := canon_le hm s
  have hrep := rep_canon hm s
  have hdvd : (s + (m - canon m s)) % m = 0 := by
    have h : _ % m = _ % m := hrep.modEq.symm.add_right (m - canon m s)
    rw [h, Nat.add_sub_cancel' hle, Nat.mod_self]
  have hpos : s + (m - canon m s) ≠ 0 := by
    intro h
    have h0 : s = 0 := by omega
    have hc := hrep.zero.mpr h0
    omega
  rw [canon, if_neg hpos, if_pos hdvd]

/-- The complement of one sum completes another one only if they stand for the same value. -/
theorem canon_add_compl_iff (ht : t ≠ 0) (x : ℕ) :
    canon m (t + (x + (m - canon m (s + x)))) = m ↔ s ≡ t [MOD m] := by
  have hle := canon_le hm (s + x)
  have hsum : t + (x + (m - canon m (s + x))) + canon m (s + x) = t + x + m := by omega
  rw [canon_eq_iff hm, ← modEq_zero_iff_dvd, and_iff_right (by omega),
    ← (rep_canon hm (s + x)).modEq.add_iff_right, hsum, zero_add, Nat.ModEq, add_mod_right]
  exact (ModEq.add_iff_right rfl).trans ModEq.comm

end

end

/-- Addition of `w`-bit words, with the carry added at the low end. -/
def addCarry (w a b : ℕ) : ℕ := ((a + b) % 2 ^ w + (a + b) / 2 ^ w) % 2 ^ w

theorem addCarry_eq {w a b : ℕ} (ha : a < 2 ^ w) (hb : b < 2 ^ w) :
    addCarry w a b = (a + b) % 2 ^ w + (a + b) / 2 ^ w := by
  unfold addCarry
  refine mod_eq_of_lt ?_
  rcases lt_or_ge (a + b) (2 ^ w) with h | h
  · rw [mod_eq_of_lt h, div_eq_of_lt h]
    exact h
  · have hd : (a + b) / 2 ^ w = 1 := Nat.div_eq_of_lt_le (by omega) (by omega)
    have hmod := div_add_mod (a + b) (2 ^ w)
    rw [hd] at hmod ⊢
    omega

theorem addCarry_lt (w a b : ℕ) : addCarry w a b < 2 ^ w := mod_lt _ (by positivity)

/-- Moving what is over `w` bits to the low end keeps the sum. -/
theorem rep_carry {w : ℕ} (hw : 0 < w) (s : ℕ) : Rep (2 ^ w - 1) (s % 2 ^ w + s / 2 ^ w) s := by
  have hpow : 2 ≤ 2 ^ w := le_self_pow hw.ne' 2
  have hdiv := div_add_mod s (2 ^ w)
  have hsplit : s = s % 2 ^ w + s / 2 ^ w + (2 ^ w - 1) * (s / 2 ^ w) := by
    have : 2 ^ w * (s / 2 ^ w) = s / 2 ^ w + (2 ^ w - 1) * (s / 2 ^ w) := by
      obtain ⟨k, hk⟩ : ∃ k, 2 ^ w = k + 1 := ⟨2 ^ w - 1, by omega⟩
      rw [hk, Nat.add_sub_cancel]
      ring
    omega
  refine ⟨?_, ?_⟩
  · conv_rhs => rw [hsplit]
    exact (add_mul_mod_self_left _ _ _).symm
  · constructor
    · intro h
      obtain ⟨h1, h2⟩ := Nat.add_eq_zero_iff.mp h
      rw [h1, h2] at hdiv
      simpa using hdiv.symm
    · rintro rfl
      simp

theorem rep_addCarry {w a b : ℕ} (hw : 0 < w) (ha : a < 2 ^ w) (hb : b < 2 ^ w) :
    Rep (2 ^ w - 1) (addCarry w a b) (a + b) := by
  rw [addCarry_eq ha hb]
  exact rep_carry hw _

/-- Fold a sum to `w` bits. The fuel is the sum itself, which each round lowers. -/
def foldTo (w : ℕ) : ℕ → ℕ → ℕ
  | 0, s => s
  | fuel + 1, s => if s / 2 ^ w = 0 then s else foldTo w fuel (s % 2 ^ w + s / 2 ^ w)

theorem rep_foldTo {w : ℕ} (hw : 0 < w) : ∀ fuel s, Rep (2 ^ w - 1) (foldTo w fuel s) s := by
  intro fuel
  induction fuel with
  | zero => exact Rep.refl
  | succ fuel ih =>
    intro s
    rw [foldTo]
    split_ifs
    · exact .refl s
    · exact (ih _).trans (rep_carry hw s)

theorem foldTo_lt {w : ℕ} (hw : 0 < w) : ∀ fuel s, s ≤ fuel → foldTo w fuel s < 2 ^ w := by
  have hpow : 2 ≤ 2 ^ w := le_self_pow hw.ne' 2
  intro fuel
  induction fuel with
  | zero =>
    intro s hs
    rw [foldTo, le_zero.mp hs]
    omega
  | succ fuel ih =>
    intro s hs
    rw [foldTo]
    split_ifs with h
    · exact (Nat.div_eq_zero_iff.mp h).resolve_left (by omega)
    · refine ih _ ?_
      have hdiv := div_add_mod s (2 ^ w)
      have : 2 * (s / 2 ^ w) ≤ 2 ^ w * (s / 2 ^ w) := mul_le_mul_right _ hpow
      omega

end OnesComplement
