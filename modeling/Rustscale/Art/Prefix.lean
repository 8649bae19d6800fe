import Rustscale.IpText

/-! Prefixes of the routing table crate: masking, containment and shared leading bits. -/
namespace Rustscale.Art
open Octets IpAddr

structure IpPrefix where
  addr : IpAddr
  bits : ℕ
  deriving DecidableEq

namespace IpPrefix

/-- `IpPrefix::new` builds a prefix only of a length its family allows. -/
def new (addr : IpAddr) (bits : ℕ) : Option IpPrefix :=
  if bits ≤ addr.bitLen then some ⟨addr, bits⟩ else none

def parse (value : String) : Option IpPrefix := do
  let (addr, bits) ← IpText.splitOnce '/' value.toList
  let addr ← IpText.parseIpAddr addr
  let bits ← IpText.parseU8 bits
  new addr bits

def isIpv6 (p : IpPrefix) : Bool := p.addr.isIpv6

def octets (p : IpPrefix) : ℕ → Byte := p.addr.octets

def byteAt (p : IpPrefix) (index : ℕ) : Byte := p.octets index

def fromOctets (octets : ℕ → Byte) (isIpv6 : Bool) (bits : ℕ) : IpPrefix :=
  ⟨IpAddr.fromOctets octets isIpv6, bits⟩

def maskedOctets (octets : ℕ → Byte) (byteLen bits : ℕ) : ℕ → Byte :=
  let fullBytes := bits / 8
  let partialBits := bits % 8
  if fullBytes < byteLen then
    if partialBits ≠ 0 then fun k =>
      if k = fullBytes then octets k &&& (255#8 <<< (8 - partialBits))
      else if fullBytes + 1 ≤ k ∧ k < byteLen then 0 else octets k
    else fun k => if fullBytes ≤ k ∧ k < byteLen then 0 else octets k
  else octets

def masked (p : IpPrefix) : IpPrefix :=
  fromOctets (maskedOctets p.octets (p.addr.bitLen / 8) p.bits) p.isIpv6 p.bits

end IpPrefix

def leadingZeros (b : Byte) : ℕ := (List.range 8).findIdx fun j => b.getMsbD j

/-- The byte loop of `common_bits`, with `n` bytes left. -/
def commonBitsFrom (a b : ℕ → Byte) : (n index shared : ℕ) → ℕ
  | 0, _, shared => shared
  | n + 1, index, shared =>
    let different := a index ^^^ b index
    if different = 0 then commonBitsFrom a b n (index + 1) (shared + 8)
    else shared + leadingZeros different

def commonBits (a b : IpPrefix) (maxBits : ℕ) : ℕ :=
  min (commonBitsFrom a.octets b.octets ((maxBits + 7) / 8) 0 0) maxBits

def IpPrefix.contains (p : IpPrefix) (addr : IpAddr) : Bool :=
  if p.addr.isIpv6 ≠ addr.isIpv6 then false
  else commonBits p.masked ⟨addr, addr.bitLen⟩ p.bits == p.bits

def prefixAtByteBoundary (p : IpPrefix) (bits : ℕ) : IpPrefix :=
  (IpPrefix.fromOctets p.masked.octets p.isIpv6 bits).masked

def prefixStrictlyContains (parent child : IpPrefix) : Bool :=
  decide (parent.bits < child.bits) && parent.contains child.addr

/-- The stride prefix that separates two prefixes, and the byte of each below it. -/
def computePrefixSplit (a b : IpPrefix) : IpPrefix × Byte × Byte :=
  let a := a.masked
  let b := b.masked
  let minBits := min a.bits b.bits
  let shared := commonBits a b minBits
  let shared := if shared = minBits then shared - 1 else shared
  let commonStrides := shared / 8
  (prefixAtByteBoundary a (commonStrides * 8), a.byteAt commonStrides, b.byteAt commonStrides)

namespace IpPrefix

def Valid (p : IpPrefix) : Prop := p.bits ≤ p.addr.bitLen

/-- A valid prefix without host bits: the keys of the route map. -/
def Normal (p : IpPrefix) : Prop := p.Valid ∧ ∀ i, p.bits ≤ i → p.addr.bit i = false

variable {p : IpPrefix}

theorem new_valid {a : IpAddr} {n : ℕ} (h : new a n = some p) : p.Valid := by
  unfold new at h
  split_ifs at h with hn
  cases h
  exact hn

theorem parse_valid {value : String} (h : parse value = some p) : p.Valid := by
  simp only [parse, Option.bind_eq_bind, Option.bind_eq_some_iff] at h
  obtain ⟨_, -, _, -, _, -, hnew⟩ := h
  exact new_valid hnew

@[simp] theorem masked_isIpv6 (p : IpPrefix) : p.masked.isIpv6 = p.isIpv6 := by
  simp [masked, fromOctets, isIpv6]

@[simp] theorem masked_bits (p : IpPrefix) : p.masked.bits = p.bits := rfl

private theorem getMsbD_maskedOctets (o : ℕ → Byte) (byteLen bits k j : ℕ) (hk : k < byteLen)
    (hj : j < 8) :
    (maskedOctets o byteLen bits k).getMsbD j = (decide (8 * k + j < bits) && (o k).getMsbD j) := by
  simp only [maskedOctets]
  by_cases hfull : bits / 8 < byteLen
  · by_cases hpart : bits % 8 ≠ 0
    · rw [if_pos hfull, if_pos hpart]
      rcases lt_trichotomy k (bits / 8) with h | h | h
      · have h1 : k ≠ bits / 8 := by omega
        have h2 : ¬ (bits / 8 + 1 ≤ k ∧ k < byteLen) := by omega
        have h3 : 8 * k + j < bits := by omega
        rw [if_neg h1, if_neg h2]
        simp [h3]
      · rw [if_pos h, getMsbD_mask _ _ _ hj]
        congr 1
        simp only [decide_eq_decide]
        omega
      · have h1 : k ≠ bits / 8 := by omega
        have h2 : bits / 8 + 1 ≤ k ∧ k < byteLen := by omega
        have h3 : ¬ 8 * k + j < bits := by omega
        rw [if_neg h1, if_pos h2]
        simp [h3]
    · rw [if_pos hfull, if_neg hpart]
      by_cases h : bits / 8 ≤ k
      · have h3 : ¬ 8 * k + j < bits := by omega
        simp [h, hk, h3]
      · have h3 : 8 * k + j < bits := by omega
        simp [h, h3]
  · rw [if_neg hfull]
    have h3 : 8 * k + j < bits := by omega
    simp [h3]

theorem masked_bit (p : IpPrefix) (i : ℕ) :
    p.masked.addr.bit i = (decide (i < p.bits) && p.addr.bit i) := by
  by_cases hi : i < p.addr.bitLen
  · have hlen : p.addr.bitLen = familyBits p.addr.isIpv6 := rfl
    have hk : i / 8 < p.addr.bitLen / 8 := by
      have := familyBits_dvd p.addr.isIpv6
      omega
    change (IpAddr.fromOctets (maskedOctets p.octets (p.addr.bitLen / 8) p.bits)
      p.addr.isIpv6).bit i = _
    rw [bit_fromOctets _ _ _ hi,
      getMsbD_maskedOctets _ _ _ _ _ hk (Nat.mod_lt _ (by norm_num)), Nat.div_add_mod,
      bit_eq_octets p.addr i]
    rfl
  · have hm : p.masked.addr.bitLen ≤ i := by
      have : p.masked.addr.isIpv6 = p.addr.isIpv6 := p.masked_isIpv6
      simpa [bitLen, this] using hi
    rw [bit_eq_false_of_le _ _ hm, bit_eq_false_of_le _ _ (by omega)]
    simp

theorem masked_valid (h : p.Valid) : p.masked.Valid := by
  have : p.masked.addr.isIpv6 = p.addr.isIpv6 := p.masked_isIpv6
  simpa [Valid, bitLen, this] using h

theorem masked_normal (h : p.Valid) : p.masked.Normal := by
  refine ⟨masked_valid h, fun i hi => ?_⟩
  have hi' : ¬ i < p.bits := by simpa using hi
  simp [masked_bit, hi']

theorem masked_agree (p : IpPrefix) : Agree p.bits p.masked.addr p.addr := by
  intro i hi
  simp [masked_bit, hi]

theorem Normal.ext {q : IpPrefix} (hp : p.Normal) (hq : q.Normal) (hf : p.isIpv6 = q.isIpv6)
    (hb : p.bits = q.bits) (h : Agree p.bits p.addr q.addr) : p = q := by
  obtain ⟨a, n⟩ := p
  obtain ⟨b, m⟩ := q
  obtain rfl : n = m := hb
  congr 1
  apply ext_bit hf
  intro i _
  by_cases hi : i < n
  · exact h i hi
  · rw [hp.2 i (by simpa using hi), hq.2 i (by simpa using hi)]

theorem Normal.masked_eq (h : p.Normal) : p.masked = p :=
  Normal.ext (masked_normal h.1) h p.masked_isIpv6 rfl p.masked_agree

theorem Normal.byteAt_zero (h : p.Normal) (h0 : p.bits = 0) (k : ℕ) : p.byteAt k = 0 := by
  apply byte_ext
  intro j hj
  unfold byteAt octets
  rw [getMsbD_octets _ _ _ hj, h.2 _ (by omega)]
  simp

theorem Normal.bits_le (h : p.Normal) : p.bits ≤ familyBits p.isIpv6 := h.1

end IpPrefix

theorem le_leadingZeros_iff (b : Byte) (k : ℕ) (hk : k ≤ 8) :
    k ≤ leadingZeros b ↔ ∀ j < k, b.getMsbD j = false := by
  have key : ∀ k ≤ 8, (∀ j < k, b.getMsbD j = false) → k ≤ leadingZeros b := by
    intro k
    cases k with
    | zero => intro _ _; exact Nat.zero_le _
    | succ i =>
      intro hi h
      exact (List.lt_findIdx_iff _ _ _).mpr ⟨by simpa using hi, fun j hj => by
        simpa using h j (by omega)⟩
  refine ⟨fun h j hj => ?_, key k hk⟩
  have hlt : j < leadingZeros b := by omega
  have := @List.not_of_lt_findIdx _ (fun j => b.getMsbD j) (List.range 8) _ hlt
  simpa using this

/-- The loop counts the leading bits on which the addresses agree. -/
private theorem commonBitsFrom_spec (a b : IpAddr) (n index k : ℕ) (hag : Agree (8 * index) a b)
    (hk : k ≤ 8 * (index + n)) :
    k ≤ commonBitsFrom a.octets b.octets n index (8 * index) ↔ Agree k a b := by
  induction n generalizing index with
  | zero => exact ⟨fun _ => hag.mono (by omega), fun _ => by simpa [commonBitsFrom] using hk⟩
  | succ n ih =>
    simp only [commonBitsFrom]
    split_ifs with hz
    · have ho : a.octets index = b.octets index := BitVec.xor_eq_zero_iff.mp hz
      exact ih (index + 1) (hag.extend ho) (by omega)
    · set d := a.octets index ^^^ b.octets index with hd
      have hbits : ∀ j < 8,
          d.getMsbD j = false ↔ a.bit (8 * index + j) = b.bit (8 * index + j) := by
        intro j hj
        rw [hd, BitVec.getMsbD_xor, getMsbD_octets a _ _ hj, getMsbD_octets b _ _ hj]
        simp
      have hlt : leadingZeros d < 8 := by
        by_contra hge
        apply hz
        apply byte_ext
        intro j hj
        rw [(le_leadingZeros_iff d 8 le_rfl).mp (by omega) j hj]
        simp
      constructor
      · intro h i hi
        by_cases hin : i < 8 * index
        · exact hag i hin
        · have h0 := (le_leadingZeros_iff d (i - 8 * index + 1) (by omega)).mp (by omega)
            (i - 8 * index) (by omega)
          have h1 := (hbits _ (by omega)).mp h0
          rwa [show 8 * index + (i - 8 * index) = i by omega] at h1
      · intro h
        by_contra hgt
        have hle : leadingZeros d + 1 ≤ leadingZeros d := by
          apply (le_leadingZeros_iff d _ (by omega)).mpr
          intro j hj
          exact (hbits j (by omega)).mpr (h _ (by omega))
        omega

/-- `common_bits` is the length of the longest common prefix, cut at `max_bits`. -/
theorem le_commonBits_iff (a b : IpPrefix) (maxBits k : ℕ) :
    k ≤ commonBits a b maxBits ↔ k ≤ maxBits ∧ Agree k a.addr b.addr := by
  unfold commonBits
  rw [le_min_iff, and_comm]
  refine and_congr_right fun hk => ?_
  exact commonBitsFrom_spec a.addr b.addr _ 0 k (fun i hi => by omega) (by omega)

theorem commonBits_le (a b : IpPrefix) (maxBits : ℕ) : commonBits a b maxBits ≤ maxBits :=
  Nat.min_le_right _ _

theorem IpPrefix.contains_iff (p : IpPrefix) (a : IpAddr) :
    p.contains a = true ↔ p.isIpv6 = a.isIpv6 ∧ Agree p.bits p.addr a := by
  unfold IpPrefix.contains
  split_ifs with hf
  · exact ⟨fun h => absurd h (by decide), fun h => absurd h.1 hf⟩
  · have hfam : p.isIpv6 = a.isIpv6 := not_not.mp hf
    have hle := commonBits_le p.masked ⟨a, a.bitLen⟩ p.bits
    rw [beq_iff_eq]
    constructor
    · intro h
      have hag := ((le_commonBits_iff _ _ _ p.bits).mp (le_of_eq h.symm)).2
      exact ⟨hfam, p.masked_agree.symm.trans hag⟩
    · rintro ⟨-, hag⟩
      refine le_antisymm hle ((le_commonBits_iff _ _ _ _).mpr ⟨le_rfl, ?_⟩)
      exact p.masked_agree.trans hag

theorem prefixStrictlyContains_iff (p q : IpPrefix) :
    prefixStrictlyContains p q = true ↔
      p.bits < q.bits ∧ p.isIpv6 = q.isIpv6 ∧ Agree p.bits p.addr q.addr := by
  simp [prefixStrictlyContains, IpPrefix.contains_iff, IpPrefix.isIpv6]

section
variable (p : IpPrefix) (n : ℕ)

@[simp] theorem prefixAtByteBoundary_bits : (prefixAtByteBoundary p n).bits = n := rfl

@[simp] theorem prefixAtByteBoundary_isIpv6 : (prefixAtByteBoundary p n).isIpv6 = p.isIpv6 := by
  rw [prefixAtByteBoundary, IpPrefix.masked_isIpv6]
  simp [IpPrefix.fromOctets, IpPrefix.isIpv6]

theorem prefixAtByteBoundary_normal (h : n ≤ familyBits p.isIpv6) :
    (prefixAtByteBoundary p n).Normal := by
  apply IpPrefix.masked_normal
  simpa [IpPrefix.Valid, IpPrefix.fromOctets] using h

theorem prefixAtByteBoundary_agree (hp : p.Valid) (hn : n ≤ p.bits) :
    Agree n (prefixAtByteBoundary p n).addr p.addr := by
  have h1 : Agree n (prefixAtByteBoundary p n).addr
      (IpPrefix.fromOctets p.masked.octets p.isIpv6 n).addr :=
    IpPrefix.masked_agree (IpPrefix.fromOctets p.masked.octets p.isIpv6 n)
  refine h1.trans fun i hi => ?_
  have hlen : i < familyBits p.isIpv6 := lt_of_lt_of_le (by omega) hp
  change (IpAddr.fromOctets p.masked.octets p.isIpv6).bit i = _
  rw [bit_fromOctets _ _ _ hlen]
  change (p.masked.addr.octets (i / 8)).getMsbD (i % 8) = _
  rw [← bit_eq_octets, p.masked_agree i (by omega)]

end

end Rustscale.Art
