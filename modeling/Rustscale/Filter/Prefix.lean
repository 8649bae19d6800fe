import Rustscale.IpText
import Rustscale.Lib.Checks
import Rustscale.Lib.Dyadic

/-! Prefixes of the packet filter: containment, address ranges and texts. -/
namespace Rustscale.PacketFilter
open Octets IpAddr Checks Dyadic Nat List IpText

structure IpPrefix where
  addr : IpAddr
  bits : ℕ
  deriving DecidableEq

def v4Contains (net ip : BitVec 32) (bits : ℕ) : Bool :=
  if bits = 0 then true
  else if 32 < bits then false
  else net.toNat >>> (32 - bits) == ip.toNat >>> (32 - bits)

def v6Contains (net ip : BitVec 128) (bits : ℕ) : Bool :=
  if bits = 0 then true
  else if 128 < bits then false
  else
    let fullBytes := bits / 8
    let remBits := bits % 8
    if 0 < fullBytes ∧
      (range fullBytes).map (octet net) ≠ (range fullBytes).map (octet ip) then false
    else if remBits = 0 then true
    else
      let mask := 255#8 <<< (8 - remBits)
      octet net fullBytes &&& mask == octet ip fullBytes &&& mask

def IpPrefix.contains (p : IpPrefix) (ip : IpAddr) : Bool :=
  match p.addr, ip with
  | .v4 a, .v4 b => v4Contains a b p.bits
  | .v6 a, .v6 b => v6Contains a b p.bits
  | _, _ => false

def IpPrefix.isV4 (p : IpPrefix) : Bool := p.addr.isIpv4

def isMulticast (ip : IpAddr) : Bool :=
  match ip with
  | .v4 _ => decide (224 ≤ (ip.octets 0).toNat)
  | .v6 _ => ip.octets 0 == 0xFF#8

def isLinkLocalUnicast (ip : IpAddr) : Bool :=
  match ip with
  | .v4 _ => ip.octets 0 == 169#8 && ip.octets 1 == 254#8
  | .v6 _ => ip.octets 0 == 0xFE#8 && ip.octets 1 &&& 0xC0#8 == 0x80#8

/-- The largest block size, as a power of two, that is aligned at `cur`. -/
def maxAlign (w cur : ℕ) : ℕ := if cur = 0 then w else trailingZeros w cur

/-- The largest block size with room up to `last`. The number of addresses left is a machine word,
zero for the whole space. -/
def maxSize (w last cur : ℕ) : ℕ :=
  let remaining := (last - cur + 1) % 2 ^ w
  if remaining = 0 then 0 else remaining.log2

def blockSize (w hostBits : ℕ) : ℕ := if hostBits < w then 2 ^ hostBits else 2 ^ w - 1

/-- The start of the next block, with a saturating addition. -/
def nextBlock (w hostBits cur : ℕ) : ℕ := min (cur + blockSize w hostBits) (2 ^ w - 1)

/-- The loop of both range functions; `pick` chooses the block size. -/
def rangeFrom (isIpv6 : Bool) (pick : ℕ → ℕ → ℕ) (last cur : ℕ) : List IpPrefix :=
  if cur ≤ last then
    let w := familyBits isIpv6
    let hostBits := pick (maxAlign w cur) (maxSize w last cur)
    let next := nextBlock w hostBits cur
    ⟨ofNat isIpv6 cur, w - hostBits⟩ ::
      if blockSize w hostBits = 0 ∨ next ≤ cur then [] else rangeFrom isIpv6 pick last next
  else []
termination_by 2 ^ familyBits isIpv6 - cur
decreasing_by
  rename_i hstop
  have := not_le.mp (not_or.mp hstop).2
  have hle : nextBlock w hostBits cur ≤ 2 ^ w - 1 := min_le_right _ _
  change 2 ^ w - nextBlock w hostBits cur < 2 ^ w - cur
  omega

def rangeToPrefixesV4 (first last : BitVec 32) : List IpPrefix :=
  if last.toNat < first.toNat then []
  else rangeFrom false min last.toNat first.toNat

def rangeToPrefixesV6 (first last : BitVec 128) : List IpPrefix :=
  if last.toNat < first.toNat then []
  else rangeFrom true (fun a s => min (min a s) 128) last.toNat first.toNat

/-- Why a text is not a set of addresses; each error quotes the text. -/
inductive ParseError where
  | invalidCidr (text : String)
  | invalidIp (text : String)
  | invalidPrefixLen (text : String)
  | nonNetworkBits (text : String)
  | invalidRange (text : String)
  deriving DecidableEq

def ParseError.toString : ParseError → String
  | .invalidCidr s => "invalid CIDR: " ++ s
  | .invalidIp s => "invalid IP address: " ++ s
  | .invalidPrefixLen s => "invalid prefix length: " ++ s
  | .nonNetworkBits s => "CIDR contains non-network bits: " ++ s
  | .invalidRange s => "invalid IP range: " ++ s

def netMask (w bits : ℕ) : BitVec w := if bits = 0 then 0 else BitVec.allOnes w <<< (w - bits)

def isMasked (p : IpPrefix) : Bool :=
  match p.addr with
  | .v4 a => a &&& netMask 32 p.bits == a
  | .v6 a => a &&& netMask 128 p.bits == a

def parseIp (s : List Char) : Except ParseError IpAddr :=
  okOr (parseIpAddr s) (.invalidIp (String.ofList s))

def parseCidr (s : String) : Except ParseError IpPrefix := do
  let (ipStr, bitsStr) ← okOr (splitOnce '/' s.toList) (.invalidCidr s)
  let ip ← parseIp ipStr
  let bits ← okOr (parseU8 bitsStr) (.invalidPrefixLen (String.ofList bitsStr))
  let maxBits := if ip.isIpv4 then 32 else 128
  ensure (decide (bits ≤ maxBits)) (.invalidPrefixLen (String.ofList bitsStr))
  ensure (isMasked ⟨ip, bits⟩) (.nonNetworkBits s)
  pure ⟨ip, bits⟩

def hostPrefix (addr : IpAddr) : IpPrefix := ⟨addr, if addr.isIpv4 then 32 else 128⟩

def wildcardPrefixes : List IpPrefix := [⟨.v4 0, 0⟩, ⟨.v6 0, 0⟩]

section Containment

theorem v4Contains_iff (net ip : BitVec 32) (bits : ℕ) :
    v4Contains net ip bits = true ↔ bits ≤ 32 ∧ Agree bits (.v4 net) (.v4 ip) := by
  unfold v4Contains
  split_ifs with h0 hlong
  · simp [h0, Agree]
  · simp [not_le.mpr hlong]
  · have hle : bits ≤ 32 := not_lt.mp hlong
    simp only [beq_iff_eq, hle, true_and]
    exact shiftRight_eq_iff net ip bits hle

theorem and_mask_eq_iff (a b : Byte) (n : ℕ) (hn : n ≤ 8) :
    a &&& (255#8 <<< (8 - n)) = b &&& (255#8 <<< (8 - n)) ↔
      ∀ j < n, a.getMsbD j = b.getMsbD j := by
  constructor
  · intro h j hj
    have hbit := congrArg (fun x => BitVec.getMsbD x j) h
    simpa [getMsbD_mask _ n j (by omega), hj] using hbit
  · intro h
    apply byte_ext
    intro j hj
    rw [getMsbD_mask _ _ _ hj, getMsbD_mask _ _ _ hj]
    by_cases hjn : j < n
    · simp [hjn, h j hjn]
    · simp [hjn]

theorem agree_iff_octets (a b : IpAddr) (m r : ℕ) (hr : r < 8) :
    Agree (8 * m + r) a b ↔ (∀ k < m, a.octets k = b.octets k) ∧
      ∀ j < r, (a.octets m).getMsbD j = (b.octets m).getMsbD j := by
  constructor
  · intro h
    refine ⟨fun k hk => h.octet (by omega), fun j hj => ?_⟩
    rw [getMsbD_octets _ _ _ (by omega), getMsbD_octets _ _ _ (by omega)]
    exact h _ (by omega)
  · rintro ⟨hfull, hrem⟩ i hi
    rw [bit_eq_octets a i, bit_eq_octets b i]
    by_cases hlt : i / 8 < m
    · rw [hfull _ hlt]
    · have hm : i / 8 = m := by omega
      rw [hm]
      exact hrem _ (by omega)

/-- The masked comparison of 128-bit addresses is agreement on the prefix. -/
theorem v6Contains_iff (net ip : BitVec 128) (bits : ℕ) :
    v6Contains net ip bits = true ↔ bits ≤ 128 ∧ Agree bits (.v6 net) (.v6 ip) := by
  have hsplit := agree_iff_octets (.v6 net) (.v6 ip) (bits / 8) (bits % 8) (by omega)
  rw [div_add_mod] at hsplit
  have hfull : (range (bits / 8)).map (octet net) = (range (bits / 8)).map (octet ip) ↔
      ∀ k < bits / 8, octet net k = octet ip k := by simp
  unfold v6Contains
  split_ifs with h0 hlong
  · simp [h0, Agree]
  · simp [not_le.mpr hlong]
  · rw [hsplit, and_iff_right (not_lt.mp hlong)]
    dsimp only
    by_cases hbytes : ∀ k < bits / 8, octet net k = octet ip k
    · rw [if_neg fun h => h.2 (hfull.mpr hbytes)]
      by_cases hrem : bits % 8 = 0
      · simp only [hrem, if_true, true_iff]
        exact ⟨hbytes, fun j hj => absurd hj (not_lt_zero j)⟩
      · rw [if_neg hrem, beq_iff_eq, and_mask_eq_iff _ _ _ (by omega)]
        exact ⟨fun h => ⟨hbytes, h⟩, And.right⟩
    · have hpos : 0 < bits / 8 := by
        by_contra h0
        exact hbytes fun k hk => absurd hk (by omega)
      rw [if_pos ⟨hpos, fun h => hbytes (hfull.mp h)⟩]
      exact ⟨fun h => absurd h Bool.false_ne_true, fun h => absurd h.1 hbytes⟩

theorem IpPrefix.contains_iff (p : IpPrefix) (ip : IpAddr) :
    p.contains ip = true ↔
      p.addr.isIpv6 = ip.isIpv6 ∧ p.bits ≤ p.addr.bitLen ∧ Agree p.bits p.addr ip := by
  obtain ⟨addr, bits⟩ := p
  cases addr with
  | v4 a =>
    cases ip with
    | v4 b => simpa [contains, bitLen, familyBits, isIpv6] using v4Contains_iff a b bits
    | v6 b => simp [contains, isIpv6]
  | v6 a =>
    cases ip with
    | v4 b => simp [contains, isIpv6]
    | v6 b => simpa [contains, bitLen, familyBits, isIpv6] using v6Contains_iff a b bits

theorem IpPrefix.contains_self {p : IpPrefix} (hp : p.bits ≤ p.addr.bitLen) :
    p.contains p.addr = true :=
  (contains_iff p p.addr).mpr ⟨rfl, hp, Agree.refl _ _⟩

/-- Prefixes contain together exactly a set of addresses. -/
structure Covers (ps : List IpPrefix) (s : Set IpAddr) : Prop where
  mem : ∀ ip, (∃ p ∈ ps, p.contains ip = true) ↔ ip ∈ s
  self : ∀ p ∈ ps, p.contains p.addr = true

theorem Covers.single {p : IpPrefix} {s : Set IpAddr} (hp : p.bits ≤ p.addr.bitLen)
    (h : ∀ ip, p.contains ip = true ↔ ip ∈ s) : Covers [p] s where
  mem ip := by rw [← h]; simp
  self q hq := by
    rw [mem_singleton.mp hq]
    exact IpPrefix.contains_self hp

theorem hostPrefix_covers (addr : IpAddr) : Covers [hostPrefix addr] {addr} := by
  have hbits : (hostPrefix addr).bits = addr.bitLen := by cases addr <;> rfl
  refine .single hbits.le fun ip => ?_
  rw [IpPrefix.contains_iff, hbits, Set.mem_singleton_iff]
  constructor
  · rintro ⟨hf, -, hagree⟩
    exact (ext_bit hf hagree).symm
  · rintro rfl
    exact ⟨rfl, le_refl _, Agree.refl _ _⟩

theorem wildcardPrefixes_covers : Covers wildcardPrefixes Set.univ where
  mem ip := by
    refine ⟨fun _ => trivial, fun _ => ?_⟩
    cases ip with
    | v4 a => exact ⟨⟨.v4 0, 0⟩, by simp [wildcardPrefixes], rfl⟩
    | v6 a => exact ⟨⟨.v6 0, 0⟩, by simp [wildcardPrefixes], rfl⟩
  self := by decide

end Containment

section Ranges
variable {last : ℕ}

variable {w cur h : ℕ} {f : Bool} {ip : IpAddr} {pick : ℕ → ℕ → ℕ}

theorem maxSize_lt (hw : 0 < w) : maxSize w last cur < w := by
  unfold maxSize
  dsimp only
  split_ifs with h
  · exact hw
  · exact (Nat.log2_lt h).mpr (Nat.mod_lt _ (Nat.two_pow_pos w))

theorem block_fits (hcur : cur ≤ last) (ha : h ≤ maxAlign w cur) (hs : h ≤ maxSize w last cur) :
    2 ^ h ∣ cur ∧ cur + 2 ^ h ≤ last + 1 := by
  constructor
  · unfold maxAlign at ha
    split_ifs at ha with h0
    · exact h0 ▸ dvd_zero _
    · exact two_pow_dvd ha
  · unfold maxSize at hs
    dsimp only at hs
    split_ifs at hs with h0
    · obtain rfl : h = 0 := le_zero.mp hs
      omega
    · have hpow : 2 ^ h ≤ (last - cur + 1) % 2 ^ w :=
        le_trans (Nat.pow_le_pow_right (by norm_num) hs) (Nat.log2_self_le h0)
      have hmod := mod_le (last - cur + 1) (2 ^ w)
      omega

theorem block_contains (hh : h < familyBits f) (hdvd : 2 ^ h ∣ cur) (hcur : cur < 2 ^ familyBits f)
    (hip : ip.isIpv6 = f) :
    IpPrefix.contains ⟨ofNat f cur, familyBits f - h⟩ ip = true ↔
      cur ≤ ip.toNat ∧ ip.toNat < cur + 2 ^ h := by
  have hlen : (ofNat f cur).bitLen = familyBits f := by rw [bitLen, isIpv6_ofNat]
  rw [IpPrefix.contains_iff, ← div_eq_iff hdvd]
  simp only [isIpv6_ofNat, hip, true_and, hlen, sub_le]
  rw [agree_iff_toNat (by simp [hip]) (by rw [hlen]; exact sub_le _ _), hlen, toNat_ofNat,
    Nat.mod_eq_of_lt hcur, Nat.sub_sub_self hh.le]

/-- The prefixes of a range cover exactly the range. -/
theorem rangeFrom_contains (hpick : ∀ a s, s < familyBits f → pick a s = min a s)
    (hlast : last < 2 ^ familyBits f) (hip : ip.isIpv6 = f) (cur : ℕ) :
    (∃ p ∈ rangeFrom f pick last cur, p.contains ip = true) ↔
      cur ≤ ip.toNat ∧ ip.toNat ≤ last := by
  induction cur using rangeFrom.induct f pick last with
  | case1 cur hcur w hostBits next ih =>
    have hsize : maxSize w last cur < w := maxSize_lt (by cases f <;> decide)
    have hh : hostBits = min (maxAlign w cur) (maxSize w last cur) := hpick _ _ hsize
    have hlt : hostBits < w := by omega
    obtain ⟨hdvd, hend⟩ := block_fits (w := w) (h := hostBits) hcur (by omega) (by omega)
    have hblock := block_contains hlt hdvd (lt_of_le_of_lt hcur hlast) hip
    have hpos : 0 < 2 ^ hostBits := Nat.two_pow_pos _
    have hbs : blockSize w hostBits = 2 ^ hostBits := if_pos hlt
    have hnext : next = min (cur + 2 ^ hostBits) (2 ^ w - 1) := by
      rw [← hbs]
      rfl
    have hlast' : last < 2 ^ w := hlast
    rw [rangeFrom, if_pos hcur]
    change (∃ p ∈ (⟨ofNat f cur, w - hostBits⟩ : IpPrefix) ::
      if blockSize w hostBits = 0 ∨ next ≤ cur then [] else rangeFrom f pick last next,
      p.contains ip = true) ↔ _
    rw [exists_mem_cons_iff, hblock]
    split_ifs with hstop
    · -- only the last address of all has no next block
      have hle : next ≤ cur := hstop.resolve_left (by omega)
      simp only [not_mem_nil, false_and, exists_false, or_false]
      omega
    · rw [ih hstop]
      omega
  | case2 cur hcur =>
    rw [rangeFrom, if_neg hcur]
    simp only [not_mem_nil, false_and, exists_false, false_iff]
    omega

theorem rangeFrom_valid (cur : ℕ) :
    ∀ p ∈ rangeFrom f pick last cur, p.addr.isIpv6 = f ∧ p.bits ≤ familyBits f := by
  induction cur using rangeFrom.induct f pick last with
  | case1 cur hcur w hostBits next ih =>
    rw [rangeFrom, if_pos hcur]
    refine forall_mem_cons.mpr ⟨⟨isIpv6_ofNat f cur, sub_le _ _⟩, ?_⟩
    split_ifs with hstop
    · simp
    · exact ih hstop
  | case2 cur hcur => simp [rangeFrom, hcur]

theorem rangeFrom_covers (hpick : ∀ a s, s < familyBits f → pick a s = min a s)
    (hlast : last < 2 ^ familyBits f) (cur : ℕ) : Covers (rangeFrom f pick last cur)
      {ip | f = ip.isIpv6 ∧ cur ≤ ip.toNat ∧ ip.toNat ≤ last} where
  mem ip := by
    by_cases hip : ip.isIpv6 = f
    · rw [rangeFrom_contains hpick hlast hip, Set.mem_ofPred_eq, and_iff_right hip.symm]
    · refine ⟨?_, fun h => absurd h.1.symm hip⟩
      rintro ⟨p, hp, hc⟩
      have hfam := ((IpPrefix.contains_iff p ip).mp hc).1
      exact absurd (hfam.symm.trans (rangeFrom_valid cur p hp).1) hip
  self p hp := by
    obtain ⟨hfam, hbits⟩ := rangeFrom_valid cur p hp
    exact IpPrefix.contains_self (by rwa [bitLen, hfam])

theorem rangeToPrefixesV4_covers {first last : BitVec 32} (h : first.toNat ≤ last.toNat) :
    Covers (rangeToPrefixesV4 first last)
      {ip | false = ip.isIpv6 ∧ first.toNat ≤ ip.toNat ∧ ip.toNat ≤ last.toNat} := by
  rw [rangeToPrefixesV4, if_neg (not_lt.mpr h)]
  exact rangeFrom_covers (fun _ _ _ => rfl) last.isLt _

theorem rangeToPrefixesV6_covers {first last : BitVec 128} (h : first.toNat ≤ last.toNat) :
    Covers (rangeToPrefixesV6 first last)
      {ip | true = ip.isIpv6 ∧ first.toNat ≤ ip.toNat ∧ ip.toNat ≤ last.toNat} := by
  rw [rangeToPrefixesV6, if_neg (not_lt.mpr h)]
  refine rangeFrom_covers (fun a s hs => ?_) last.isLt _
  have hs' : s < 128 := hs
  omega

end Ranges

section Cidr

theorem getMsbD_netMask {w bits : ℕ} (hb : bits ≤ w) (i : ℕ) :
    (netMask w bits).getMsbD i = decide (i < bits) := by
  unfold netMask
  split_ifs with h0
  · simp [h0, BitVec.getMsbD]
  · rw [BitVec.getMsbD_shiftLeft, BitVec.getMsbD_allOnes]
    simp only [decide_eq_decide]
    omega

theorem and_netMask_eq_iff {w bits : ℕ} (hb : bits ≤ w) (a : BitVec w) :
    a &&& netMask w bits = a ↔ ∀ i, bits ≤ i → a.getMsbD i = false := by
  have hbit : ∀ i, (a &&& netMask w bits).getMsbD i = (a.getMsbD i && decide (i < bits)) := by
    intro i
    rw [BitVec.getMsbD_and, getMsbD_netMask hb]
  constructor
  · intro h i hi
    rw [← h, hbit, decide_eq_false (not_lt.mpr hi), Bool.and_false]
  · intro h
    apply BitVec.eq_of_getMsbD_eq
    intro i hi
    rw [hbit]
    by_cases hib : i < bits
    · simp [hib]
    · simp [hib, h i (not_lt.mp hib)]

theorem isMasked_iff {p : IpPrefix} (hp : p.bits ≤ p.addr.bitLen) :
    isMasked p = true ↔ ∀ i, p.bits ≤ i → p.addr.bit i = false := by
  obtain ⟨addr, bits⟩ := p
  cases addr with
  | v4 a | v6 a => exact beq_iff_eq.trans (and_netMask_eq_iff hp a)

theorem parseCidr_eq_ok {s : String} {p : IpPrefix} :
    parseCidr s = .ok p ↔ ∃ ipStr bitsStr, splitOnce '/' s.toList = some (ipStr, bitsStr) ∧
      parseIpAddr ipStr = some p.addr ∧ parseU8 bitsStr = some p.bits ∧
      p.bits ≤ p.addr.bitLen ∧ ∀ i, p.bits ≤ i → p.addr.bit i = false := by
  have hmax : ∀ ip : IpAddr, (if ip.isIpv4 then 32 else 128) = ip.bitLen := by
    intro ip
    cases ip <;> rfl
  simp only [parseCidr, parseIp, hmax, bind_eq_ok, okOr_eq_ok, ensure_eq_ok, exists_unit,
    decide_eq_true_eq, pure, Except.pure, Except.ok.injEq, Prod.exists]
  constructor
  · rintro ⟨ipStr, bitsStr, hsplit, ip, hip, bits, hbits, hle, hmask, rfl⟩
    exact ⟨ipStr, bitsStr, hsplit, hip, hbits, hle, (isMasked_iff hle).mp hmask⟩
  · rintro ⟨ipStr, bitsStr, hsplit, hip, hbits, hle, hmask⟩
    exact ⟨ipStr, bitsStr, hsplit, p.addr, hip, p.bits, hbits, hle, (isMasked_iff hle).mpr hmask,
      rfl⟩

end Cidr

end Rustscale.PacketFilter
