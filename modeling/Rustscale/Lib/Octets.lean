import Mathlib.Tactic

/-! Big-endian octets of a bit vector: bit `8 * k + j` is bit `j` of octet `k`. -/
namespace Octets

open BitVec Nat

abbrev Byte := BitVec 8

instance lawfulBEqByte : LawfulBEq Byte := inferInstance

instance lawfulBEq96 : LawfulBEq (BitVec 96) := inferInstance

instance lawfulBEq256 : LawfulBEq (BitVec 256) := inferInstance

/-- Octet `k` from the most significant end, zero past the end. -/
def octet {w : ℕ} (a : BitVec w) (k : ℕ) : Byte :=
  if 8 * (k + 1) ≤ w then a.extractLsb' (w - 8 * (k + 1)) 8 else 0

def ofOctets : (m : ℕ) → (ℕ → Byte) → BitVec (8 * m)
  | 0, _ => 0
  | m + 1, o => ofOctets m o ++ o m

theorem getMsbD_octet {w : ℕ} (hw : 8 ∣ w) (a : BitVec w) (k j : ℕ) (hj : j < 8) :
    (octet a k).getMsbD j = a.getMsbD (8 * k + j) := by
  obtain ⟨n, rfl⟩ := hw
  unfold octet
  split_ifs with hk
  · rw [getMsbD_extractLsb']
    have hle : 8 * n - 8 * (k + 1) + 8 - j ≤ 8 * n := by omega
    have hidx : 8 * n - (8 * n - 8 * (k + 1) + 8 - j) = 8 * k + j := by omega
    simp [hj, hle, hidx]
  · have hout : 8 * n ≤ 8 * k + j := by omega
    simp [getMsbD_of_ge, hout]

theorem getMsbD_ofOctets (m : ℕ) (o : ℕ → Byte) (i : ℕ) (hi : i < 8 * m) :
    (ofOctets m o).getMsbD i = (o (i / 8)).getMsbD (i % 8) := by
  induction m with
  | zero => omega
  | succ m ih =>
    change (ofOctets m o ++ o m).getMsbD i = _
    rw [getMsbD_append]
    split_ifs with h
    · have hd : i / 8 = m := by omega
      have hr : i % 8 = i - 8 * m := by omega
      rw [hd, hr]
    · exact ih (by omega)

theorem byte_ext {a b : Byte} (h : ∀ j < 8, a.getMsbD j = b.getMsbD j) : a = b :=
  eq_of_getMsbD_eq h

theorem getMsbD_eq_testBit {w : ℕ} (b : BitVec w) (j : ℕ) (hj : j < w) :
    b.getMsbD j = b.toNat.testBit (w - 1 - j) := by
  simp [getMsbD, getLsbD, hj]

/-- Equal after a shift means equal on the leading bits. -/
theorem shiftRight_eq_iff {w : ℕ} (a b : BitVec w) (k : ℕ) (hk : k ≤ w) :
    a.toNat >>> (w - k) = b.toNat >>> (w - k) ↔ ∀ j < k, a.getMsbD j = b.getMsbD j := by
  constructor
  · intro h j hj
    rw [getMsbD_eq_testBit a j (by omega), getMsbD_eq_testBit b j (by omega)]
    have ht := congrArg (fun n => n.testBit (k - 1 - j)) h
    simp only [testBit_shiftRight] at ht
    have hidx : w - k + (k - 1 - j) = w - 1 - j := by omega
    rwa [hidx] at ht
  · intro h
    apply eq_of_testBit_eq
    intro i
    simp only [testBit_shiftRight]
    by_cases hi : i < k
    · have := h (k - 1 - i) (by omega)
      rw [getMsbD_eq_testBit a _ (by omega), getMsbD_eq_testBit b _ (by omega)] at this
      have hidx : w - 1 - (k - 1 - i) = w - k + i := by omega
      rwa [hidx] at this
    · have ha : a.toNat < 2 ^ (w - k + i) :=
        lt_of_lt_of_le a.isLt (Nat.pow_le_pow_right (by norm_num) (by omega))
      have hb : b.toNat < 2 ^ (w - k + i) :=
        lt_of_lt_of_le b.isLt (Nat.pow_le_pow_right (by norm_num) (by omega))
      rw [testBit_lt_two_pow ha, testBit_lt_two_pow hb]

theorem getMsbD_mask (b : Byte) (n j : ℕ) (hj : j < 8) :
    (b &&& (255#8 <<< (8 - n))).getMsbD j = (decide (j < n) && b.getMsbD j) := by
  have hall : ∀ i, (255#8).getMsbD i = decide (i < 8) := by
    intro i
    by_cases hi : i < 8
    · interval_cases i <;> decide
    · rw [getMsbD_of_ge _ _ (by omega)]
      simp [hi]
  rw [getMsbD_and, getMsbD_shiftLeft, hall, Bool.and_comm]
  congr 1
  simp only [decide_eq_decide]
  omega

end Octets
