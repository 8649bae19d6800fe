import Rustscale.Lib.Octets

/-! Internet addresses of both families: big-endian values, with octets and bits as projections. -/
namespace Rustscale
open Octets BitVec

inductive IpAddr where
  | v4 (addr : BitVec 32)
  | v6 (addr : BitVec 128)
  deriving DecidableEq

namespace IpAddr

def isIpv6 : IpAddr → Bool
  | .v4 _ => false
  | .v6 _ => true

variable (f : Bool) (a : IpAddr)

def isIpv4 : Bool := !a.isIpv6

def familyBits (isIpv6 : Bool) : ℕ := if isIpv6 then 128 else 32

def bitLen : ℕ := familyBits a.isIpv6

/-- The address as an array of octets, zero after the fourth one for IPv4. -/
def octets : IpAddr → ℕ → Byte
  | .v4 a => octet a
  | .v6 a => octet a

def bit : IpAddr → ℕ → Bool
  | .v4 a, i => a.getMsbD i
  | .v6 a, i => a.getMsbD i

def fromOctets (octets : ℕ → Byte) (isIpv6 : Bool) : IpAddr :=
  if isIpv6 then .v6 (ofOctets 16 octets) else .v4 (ofOctets 4 octets)

theorem familyBits_dvd : 8 ∣ familyBits f := by cases f <;> decide

theorem familyBits_le : familyBits f ≤ 128 := by cases f <;> decide

theorem getMsbD_octets (k j : ℕ) (hj : j < 8) : (a.octets k).getMsbD j = a.bit (8 * k + j) := by
  cases a with
  | v4 a | v6 a => exact getMsbD_octet (by decide) a k j hj

theorem bit_eq_octets (i : ℕ) : a.bit i = (a.octets (i / 8)).getMsbD (i % 8) := by
  rw [getMsbD_octets a _ _ (Nat.mod_lt _ (by norm_num)), Nat.div_add_mod]

theorem octets_eq_iff (b : IpAddr) (k : ℕ) :
    a.octets k = b.octets k ↔ ∀ j < 8, a.bit (8 * k + j) = b.bit (8 * k + j) := by
  constructor
  · intro h j hj
    rw [← getMsbD_octets a k j hj, ← getMsbD_octets b k j hj, h]
  · intro h
    apply byte_ext
    intro j hj
    rw [getMsbD_octets a k j hj, getMsbD_octets b k j hj, h j hj]

variable {a b : IpAddr} {k j : ℕ}

@[ext] theorem ext_bit (hf : a.isIpv6 = b.isIpv6) (h : ∀ i < a.bitLen, a.bit i = b.bit i) :
    a = b := by
  cases a with
  | v4 a =>
    cases b with
    | v4 b => exact congrArg v4 (eq_of_getMsbD_eq h)
    | v6 b => simp [isIpv6] at hf
  | v6 a =>
    cases b with
    | v4 b => simp [isIpv6] at hf
    | v6 b => exact congrArg v6 (eq_of_getMsbD_eq h)

section
variable (o : ℕ → Byte) (f : Bool)

@[simp] theorem isIpv6_fromOctets : (fromOctets o f).isIpv6 = f := by
  cases f <;> rfl

@[simp] theorem bitLen_fromOctets : (fromOctets o f).bitLen = familyBits f := by
  simp [bitLen]

theorem bit_fromOctets (i : ℕ) (hi : i < familyBits f) :
    (fromOctets o f).bit i = (o (i / 8)).getMsbD (i % 8) := by
  cases f with
  | false => exact getMsbD_ofOctets 4 o i hi
  | true => exact getMsbD_ofOctets 16 o i hi

end

theorem bit_eq_false_of_le (a : IpAddr) (i : ℕ) (hi : a.bitLen ≤ i) : a.bit i = false := by
  cases a with
  | v4 a | v6 a => exact getMsbD_of_ge a i hi

def Agree (k : ℕ) (a b : IpAddr) : Prop := ∀ i < k, a.bit i = b.bit i

theorem Agree.symm (h : Agree k a b) : Agree k b a :=
  fun i hi => (h i hi).symm

theorem Agree.trans {c : IpAddr} (h : Agree k a b) (h' : Agree k b c) :
    Agree k a c := fun i hi => (h i hi).trans (h' i hi)

theorem Agree.mono (h : Agree k a b) (hjk : j ≤ k) : Agree j a b :=
  fun i hi => h i (by omega)

theorem Agree.refl (k : ℕ) (a : IpAddr) : Agree k a a := fun _ _ => rfl

theorem Agree.octet (h : Agree k a b) (hj : 8 * (j + 1) ≤ k) : a.octets j = b.octets j :=
  (octets_eq_iff a b j).mpr fun i hi => h _ (by omega)

theorem Agree.extend (h : Agree (8 * j) a b) (ho : a.octets j = b.octets j) :
    Agree (8 * (j + 1)) a b := by
  intro i hi
  by_cases hlt : i < 8 * j
  · exact h i hlt
  · have := (octets_eq_iff a b j).mp ho (i - 8 * j) (by omega)
    rwa [show 8 * j + (i - 8 * j) = i by omega] at this

def toNat : IpAddr → ℕ
  | .v4 a => a.toNat
  | .v6 a => a.toNat

def ofNat (isIpv6 : Bool) (n : ℕ) : IpAddr :=
  if isIpv6 then .v6 (BitVec.ofNat 128 n) else .v4 (BitVec.ofNat 32 n)

@[simp] theorem isIpv6_ofNat (n : ℕ) : (ofNat f n).isIpv6 = f := by cases f <;> rfl

@[simp] theorem toNat_ofNat (n : ℕ) : (ofNat f n).toNat = n % 2 ^ familyBits f := by
  cases f <;> simp [ofNat, toNat, familyBits]

theorem agree_iff_toNat (hf : a.isIpv6 = b.isIpv6) (hk : k ≤ a.bitLen) :
    Agree k a b ↔ a.toNat / 2 ^ (a.bitLen - k) = b.toNat / 2 ^ (a.bitLen - k) := by
  rw [← Nat.shiftRight_eq_div_pow, ← Nat.shiftRight_eq_div_pow]
  cases a with
  | v4 a =>
    cases b with
    | v4 b => exact (shiftRight_eq_iff a b k hk).symm
    | v6 b => simp [isIpv6] at hf
  | v6 a =>
    cases b with
    | v4 b => simp [isIpv6] at hf
    | v6 b => exact (shiftRight_eq_iff a b k hk).symm

end IpAddr
end Rustscale
