import Rustscale.Art.Table

/-! The invariant of stride trees and the set of routes a tree stands for. -/
namespace Rustscale.Art
open Octets Allotment IpAddr IpPrefix StrideTable Nat Finset

def StrideTable.childCount (t : StrideTable) : ℕ :=
  ((range 256).filter fun i => (t.children (BitVec.ofNat 8 i)).isSome).card

structure StrideOk (fam : Bool) (t : StrideTable) : Prop where
  family : t.pfx.isIpv6 = fam
  normal : t.pfx.Normal
  aligned : 8 ∣ t.pfx.bits
  room : t.pfx.bits + 8 ≤ familyBits fam
  allotted : Allotted firstHostIndex t.entries
  top : t.pfx.bits ≠ 0 → t.entries 1 = none
  routeRefs_eq : t.routeRefs = rootCount firstHostIndex t.entries
  childRefs_eq : t.childRefs = t.childCount

structure Under (p : IpPrefix) (b : Byte) (q : IpPrefix) : Prop where
  bits_lt : p.bits < q.bits
  agree : Agree p.bits p.addr q.addr
  byte : q.byteAt (p.bits / 8) = b

/-- A tree of strides of one family, each below its parent's slot. -/
inductive Wf (fam : Bool) : StrideTable → Prop
  | node {t : StrideTable} (ok : StrideOk fam t)
      (under : ∀ b c, t.children b = some c → Under t.pfx b c.pfx)
      (sub : ∀ b c, t.children b = some c → Wf fam c) : Wf fam t

/-- `q` is stored in a stride with prefix `s`; only the root stores the prefix of length zero. -/
def AtHome (s q : IpPrefix) : Prop :=
  s.contains q.addr = true ∧ q.bits ≤ s.bits + 8 ∧ (s.bits < q.bits ∨ s.bits = 0 ∧ q.bits = 0)

instance (s q : IpPrefix) : Decidable (AtHome s q) := by
  unfold AtHome
  infer_instance

def slot (s q : IpPrefix) : ℕ := prefixIndex (q.byteAt (s.bits / 8)) (q.bits - s.bits)

def find (t : StrideTable) (q : IpPrefix) : Option RouteId :=
  if q.bits ≤ t.pfx.bits + 8 then
    if AtHome t.pfx q then rootAt t.entries (slot t.pfx q) else none
  else match _h : t.children (q.byteAt (t.pfx.bits / 8)) with
    | none => none
    | some c => if c.pfx.contains q.addr then find c q else none
termination_by t
decreasing_by exact ⟨_, _h⟩

def findChild (o : Option StrideTable) (q : IpPrefix) : Option RouteId :=
  match o with
  | none => none
  | some c => if c.pfx.contains q.addr then find c q else none

variable {t : StrideTable} {q : IpPrefix} {fam : Bool} {b : Byte} {c : StrideTable} {p s : IpPrefix}
  {r : RouteId} {t' : StrideTable} {j : ℕ}

theorem find_of_le (h : q.bits ≤ t.pfx.bits + 8) :
    find t q = if AtHome t.pfx q then rootAt t.entries (slot t.pfx q) else none := by
  rw [find, if_pos h]

theorem find_of_gt (h : t.pfx.bits + 8 < q.bits) :
    find t q = findChild (t.children (q.byteAt (t.pfx.bits / 8))) q := by
  rw [find, if_neg (by omega)]
  unfold findChild
  split <;> simp_all

theorem Wf.ok (h : Wf fam t) : StrideOk fam t := by
  cases h with
  | node ok _ _ => exact ok

section
variable (h : Wf fam t) (hc : t.children b = some c)
include h hc

theorem Wf.under : Under t.pfx b c.pfx := by
  cases h with
  | node _ under _ => exact under b c hc

theorem Wf.sub : Wf fam c := by
  cases h with
  | node _ _ sub => exact sub b c hc

theorem Wf.child_bits : t.pfx.bits + 8 ≤ c.pfx.bits := by
  have h1 := (h.under hc).bits_lt
  have h2 := h.ok.aligned
  have h3 := (h.sub hc).ok.aligned
  omega

end

theorem contains_of_agree (hp : p.isIpv6 = fam) (hq : q.isIpv6 = fam)
    (h : Agree p.bits p.addr q.addr) : p.contains q.addr = true :=
  (contains_iff p q.addr).mpr ⟨hp.trans hq.symm, h⟩

theorem agree_of_contains (h : p.contains q.addr = true) :
    Agree p.bits p.addr q.addr := ((contains_iff p q.addr).mp h).2

theorem AtHome.sub_le (h : AtHome s q) : q.bits - s.bits ≤ 8 := by
  have := h.2.1
  omega

theorem AtHome.bits_le (h : AtHome s q) : s.bits ≤ q.bits := by
  have := h.2.2
  omega

theorem slot_pos (s q : IpPrefix) : 0 < slot s q := prefixIndex_pos _ _

theorem AtHome.slot_lt (h : AtHome s q) : slot s q < 2 * firstHostIndex :=
  prefixIndex_lt _ _ h.sub_le

theorem contains_of_slot {a : IpAddr} (hs : 8 ∣ s.bits) (hq : AtHome s q)
    (hsa : s.contains a = true) {n : ℕ} (hn : n ≤ 8)
    (h : slot s q = prefixIndex (a.octets (s.bits / 8)) n) :
    q.contains a = true ∧ q.bits - s.bits = n := by
  have hle := hq.sub_le
  have hbits := hq.bits_le
  obtain ⟨hlen, hagree⟩ := prefixIndex_inj hle hn h
  obtain ⟨hf1, h1⟩ := (contains_iff _ _).mp hsa
  obtain ⟨hf2, h2⟩ := (contains_iff _ _).mp hq.1
  refine ⟨(contains_iff _ _).mpr ⟨hf2.symm.trans hf1, fun i hi => ?_⟩, hlen⟩
  by_cases his : i < s.bits
  · rw [← h2 i his, h1 i his]
  · have := hagree (i - s.bits) (by omega)
    unfold IpPrefix.byteAt IpPrefix.octets at this
    rw [getMsbD_octets _ _ _ (by omega), getMsbD_octets _ _ _ (by omega)] at this
    rwa [show 8 * (s.bits / 8) + (i - s.bits) = i by omega] at this

theorem slot_inj (hs : 8 ∣ s.bits) (hp : p.Normal) (hq : q.Normal) (hf : p.isIpv6 = q.isIpv6)
    (hph : AtHome s p) (hqh : AtHome s q) (h : slot s p = slot s q) : p = q := by
  obtain ⟨hc, hlen⟩ := contains_of_slot hs hph hqh.1 hqh.sub_le h
  have hb1 := hph.bits_le
  have hb2 := hqh.bits_le
  exact IpPrefix.Normal.ext hp hq hf (by omega) (agree_of_contains hc)

theorem slot_ne_one (h : s.bits < q.bits) : slot s q ≠ 1 := by
  have h2 := two_pow_le_prefixIndex (q.byteAt (s.bits / 8)) (q.bits - s.bits)
  have h3 : 2 ^ 1 ≤ 2 ^ (q.bits - s.bits) := Nat.pow_le_pow_right (by norm_num) (by omega)
  unfold slot
  omega

theorem find_contains (h : Wf fam t) (hq : q.isIpv6 = fam) (hr : find t q = some r) :
    t.pfx.contains q.addr = true ∧ (t.pfx.bits < q.bits ∨ t.pfx.bits = 0 ∧ q.bits = 0) := by
  by_cases hle : q.bits ≤ t.pfx.bits + 8
  · rw [find_of_le hle] at hr
    split_ifs at hr with hh
    exact ⟨hh.1, hh.2.2⟩
  · rw [find_of_gt (by omega)] at hr
    unfold findChild at hr
    split at hr
    · cases hr
    · next c hc =>
      split_ifs at hr with hcon
      have hu := h.under hc
      have hb := hu.bits_lt
      refine ⟨contains_of_agree h.ok.family hq ?_, Or.inl (by omega)⟩
      exact hu.agree.trans ((agree_of_contains hcon).mono (by omega))

theorem findChild_some (h : Wf fam c) (hq : q.isIpv6 = fam) : findChild (some c) q = find c q := by
  simp only [findChild]
  split_ifs with hcon
  · rfl
  · cases hf : find c q with
    | none => rfl
    | some r => exact absurd (find_contains h hq hf).1 hcon

theorem find_of_child (h : Wf fam t) (hc : t.children b = some c) (hq : q.isIpv6 = fam)
    (hr : find c q = some r) : find t q = some r := by
  obtain ⟨hcon, hlen⟩ := find_contains (h.sub hc) hq hr
  have hb := h.child_bits hc
  have hbyte : q.byteAt (t.pfx.bits / 8) = b := by
    have hal := h.ok.aligned
    have := (agree_of_contains hcon).octet (j := t.pfx.bits / 8) (by omega)
    rw [← (h.under hc).byte]
    exact this.symm
  rw [find_of_gt (by omega), hbyte, hc]
  simp [findChild, hcon, hr]

theorem find_eq_none_of_short (h : Wf fam t) (hq : q.isIpv6 = fam) (h0 : t.pfx.bits ≠ 0)
    (hle : q.bits ≤ t.pfx.bits) : find t q = none := by
  by_contra hne
  obtain ⟨r, hr⟩ := Option.ne_none_iff_exists'.mp hne
  obtain ⟨-, hlen⟩ := find_contains h hq hr
  omega

theorem find_putChild_of_le {c : Option StrideTable} (h : q.bits ≤ t.pfx.bits + 8) :
    find (t.putChild b c) q = find t q := by
  rw [find_of_le (t := t.putChild b c) h, find_of_le h]
  rfl

theorem find_putChild_of_gt {c : Option StrideTable} (h : t.pfx.bits + 8 < q.bits) :
    find (t.putChild b c) q =
      if q.byteAt (t.pfx.bits / 8) = b then findChild c q else find t q := by
  rw [find_of_gt (t := t.putChild b c) h, find_of_gt h]
  split_ifs with hb
  · simp [hb]
  · simp only [putChild_pfx]
    rw [putChild_children_of_ne _ _ hb]

/-- The reference counts are not part of what a tree holds. -/
theorem find_congr {u : StrideTable} (hp : u.pfx = t.pfx) (he : u.entries = t.entries)
    (hc : u.children = t.children) (q : IpPrefix) : find u q = find t q := by
  by_cases hle : q.bits ≤ t.pfx.bits + 8
  · rw [find_of_le (by rw [hp]; exact hle), find_of_le hle, hp, he]
  · rw [find_of_gt (by rw [hp]; omega), find_of_gt (by omega), hp, hc]

private theorem ofNat_eq_iff (b : Byte) {i : ℕ} (hi : i < 256) :
    BitVec.ofNat 8 i = b ↔ i = b.toNat := by
  rw [← BitVec.toNat_inj, BitVec.toNat_ofNat, mod_eq_of_lt (by simpa using hi)]

theorem childCount_congr (h : ∀ b, (t'.children b).isSome = (t.children b).isSome) :
    t'.childCount = t.childCount := by
  unfold childCount
  simp only [h]

theorem childCount_add (hb : t.children b = none) (hb' : (t'.children b).isSome)
    (h : ∀ a, a ≠ b → t'.children a = t.children a) :
    t'.childCount = t.childCount + 1 := by
  unfold childCount
  rw [← card_insert_of_notMem (a := b.toNat) (by simp [hb])]
  congr 1
  ext i
  simp only [mem_filter, mem_range, mem_insert]
  by_cases hi : i < 256
  · by_cases hib : i = b.toNat
    · have : BitVec.ofNat 8 i = b := (ofNat_eq_iff b hi).mpr hib
      simp [hib, hib ▸ this, hb']
      exact b.isLt
    · have : BitVec.ofNat 8 i ≠ b := fun hc => hib ((ofNat_eq_iff b hi).mp hc)
      simp [hi, hib, h _ this]
  · have : i ≠ b.toNat := fun hc => hi (hc ▸ b.isLt)
    simp [hi, this]

theorem Wf.setSlot (h : Wf fam t) (hp : t'.pfx = t.pfx) (he : t'.entries = t.entries)
    (hr : t'.routeRefs = t.routeRefs) (b : Byte) (hne : ∀ a, a ≠ b → t'.children a = t.children a)
    (hb : ∀ c, t'.children b = some c → Under t.pfx b c.pfx ∧ Wf fam c)
    (hn : t'.childRefs = t'.childCount) : Wf fam t' := by
  refine .node ?_ ?_ ?_
  · obtain ⟨h1, h2, h3, h4, h5, h6, h7, -⟩ := h.ok
    exact ⟨hp ▸ h1, hp ▸ h2, hp ▸ h3, hp ▸ h4, he ▸ h5, hp ▸ he ▸ h6, by rw [hr, he, h7], hn⟩
  · intro a c hc
    by_cases hab : a = b
    · subst hab
      exact hp ▸ (hb c hc).1
    · rw [hne a hab] at hc
      exact hp ▸ h.under hc
  · intro a c hc
    by_cases hab : a = b
    · subst hab
      exact (hb c hc).2
    · rw [hne a hab] at hc
      exact h.sub hc

theorem Wf.putChild (h : Wf fam t) (hb : (t.children b).isSome) (hu : Under t.pfx b c.pfx)
    (hc : Wf fam c) :
    Wf fam (t.putChild b (some c)) := by
  refine h.setSlot rfl rfl rfl b (fun a hab => putChild_children_of_ne _ _ hab) ?_ ?_
  · intro d hd
    rw [putChild_children_self] at hd
    cases hd
    exact ⟨hu, hc⟩
  · rw [putChild_childRefs, h.ok.childRefs_eq]
    symm
    apply childCount_congr
    intro a
    by_cases hab : a = b
    · subst hab
      simp [hb]
    · rw [putChild_children_of_ne _ _ hab]

theorem Wf.addChild (h : Wf fam t) (hb : t.children b = none) (hu : Under t.pfx b c.pfx)
    (hc : Wf fam c) :
    Wf fam { t.putChild b (some c) with childRefs := t.childRefs + 1 } := by
  have hcount : (t.putChild b (some c)).childCount = t.childCount + 1 :=
    childCount_add hb (by simp) fun a hab => putChild_children_of_ne _ _ hab
  refine h.setSlot rfl rfl rfl b (fun a hab => putChild_children_of_ne t _ hab) ?_ ?_
  · intro d hd
    have hd' : some c = some d := (putChild_children_self t b (some c)).symm.trans hd
    cases hd'
    exact ⟨hu, hc⟩
  · exact (h.ok.childRefs_eq ▸ hcount.symm : t.childRefs + 1 = (t.putChild b (some c)).childCount)

theorem Wf.new (hf : s.isIpv6 = fam) (hn : s.Normal) (ha : 8 ∣ s.bits)
    (hr : s.bits + 8 ≤ familyBits fam) : Wf fam (new s) := by
  refine .node ⟨hf, hn, ha, hr, Allotted.empty _, fun _ => rfl, ?_, ?_⟩ ?_ ?_
  · exact (rootCount_empty _).symm
  · simp [StrideTable.new, StrideTable.childCount]
  all_goals
    intro b c hc
    cases hc

theorem find_new (s q : IpPrefix) : find (new s) q = none := by
  by_cases hle : q.bits ≤ s.bits + 8
  · rw [find_of_le hle]
    split_ifs
    · simp [StrideTable.new, rootAt]
    · rfl
  · rw [find_of_gt (show s.bits + 8 < q.bits by omega)]
    rfl

theorem octets_fromOctets (o : ℕ → Byte) (f : Bool) {k : ℕ} (hk : 8 * (k + 1) ≤ familyBits f) :
    (IpAddr.fromOctets o f).octets k = o k := by
  apply byte_ext
  intro j hj
  rw [getMsbD_octets _ _ _ hj, bit_fromOctets _ _ _ (by omega)]
  rw [show (8 * k + j) / 8 = k by omega, show (8 * k + j) % 8 = j by omega]

/-- Every index of the stride is that of some prefix. -/
theorem exists_prefixIndex (hj : 0 < j) (hj2 : j < 2 * firstHostIndex) :
    ∃ b n, n ≤ 8 ∧ prefixIndex b n = j ∧ (j ≠ 1 → 0 < n) := by
  have h8 : firstHostIndex = 2 ^ 8 := rfl
  set n := log2 j with hn
  have hlow : 2 ^ n ≤ j := log2_self_le hj.ne'
  have hhigh : j < 2 ^ (n + 1) := lt_log2_self
  have hn8 : n ≤ 8 := by
    by_contra hgt
    have : 2 ^ 9 ≤ 2 ^ n := Nat.pow_le_pow_right (by norm_num) (by omega)
    omega
  have hfit : (j - 2 ^ n) * 2 ^ (8 - n) < 2 ^ 8 := by
    have h1 : j - 2 ^ n < 2 ^ n := by rw [pow_succ] at hhigh; omega
    calc (j - 2 ^ n) * 2 ^ (8 - n) < 2 ^ n * 2 ^ (8 - n) := by
          exact mul_lt_mul_of_pos_right h1 (by positivity)
      _ = 2 ^ 8 := by rw [← pow_add, Nat.add_sub_cancel' hn8]
  refine ⟨BitVec.ofNat 8 ((j - 2 ^ n) * 2 ^ (8 - n)), n, hn8, ?_, fun hne => ?_⟩
  · unfold prefixIndex
    rw [BitVec.toNat_ofNat, mod_eq_of_lt hfit, shiftRight_eq_div_pow,
      Nat.mul_div_cancel _ (by positivity), Nat.shiftLeft_eq, one_mul, Nat.sub_add_cancel hlow]
  · by_contra h0
    have : n = 0 := by omega
    rw [this] at hhigh
    omega

/-- Every route of a stride is that of a prefix at home there. -/
theorem StrideOk.exists_atHome (h : StrideOk fam t) (hj : 0 < j) (hj2 : j < 2 * firstHostIndex)
    (hr : rootAt t.entries j = some r) :
    ∃ q : IpPrefix, q.Normal ∧ q.isIpv6 = fam ∧ AtHome t.pfx q ∧ slot t.pfx q = j := by
  obtain ⟨b, n, hn8, hidx, hpos⟩ := exists_prefixIndex hj hj2
  have hal := h.aligned
  have hroom := h.room
  set k := t.pfx.bits / 8 with hk
  have hk8 : 8 * k = t.pfx.bits := by omega
  set a := IpAddr.fromOctets (Function.update t.pfx.octets k b) fam with ha
  have hak : a.octets k = b := by
    rw [ha, octets_fromOctets _ _ (by omega), Function.update_self]
  have hagree : Agree t.pfx.bits t.pfx.addr a := by
    intro i hi
    rw [ha, bit_fromOctets _ _ _ (by omega), Function.update_of_ne (by omega), bit_eq_octets]
    rfl
  have hvalid : IpPrefix.Valid ⟨a, t.pfx.bits + n⟩ := by
    change t.pfx.bits + n ≤ a.bitLen
    rw [ha, bitLen_fromOctets]
    omega
  have hmask := masked_agree ⟨a, t.pfx.bits + n⟩
  set q := masked ⟨a, t.pfx.bits + n⟩ with hq
  have hqf : q.isIpv6 = fam := by
    rw [hq, IpPrefix.masked_isIpv6]
    simp [IpPrefix.isIpv6, ha]
  have hqb : q.bits = t.pfx.bits + n := rfl
  have hone : t.pfx.bits < q.bits ∨ t.pfx.bits = 0 ∧ q.bits = 0 := by
    by_cases hj1 : j = 1
    · have he : t.entries 1 = some r := hj1 ▸ (rootAt_eq_some hr).1
      have h0 : t.pfx.bits = 0 := by
        by_contra hne
        rw [h.top hne] at he
        cases he
      have hn0 : n = 0 := by
        by_contra hne
        have h1 := two_pow_le_prefixIndex b n
        have h2 : 2 ^ 1 ≤ 2 ^ n := Nat.pow_le_pow_right (by norm_num) (by omega)
        omega
      exact Or.inr ⟨h0, by omega⟩
    · have := hpos hj1
      exact Or.inl (by omega)
  refine ⟨q, masked_normal hvalid, hqf, ⟨?_, by omega, hone⟩, ?_⟩
  · exact contains_of_agree h.family hqf
      (hagree.trans (hmask.symm.mono (show t.pfx.bits ≤ t.pfx.bits + n by omega)))
  · rw [← hidx]
    unfold slot
    rw [hqb, Nat.add_sub_cancel_left]
    apply prefixIndex_congr hn8
    intro i hi
    rw [← hak]
    unfold IpPrefix.byteAt IpPrefix.octets
    rw [getMsbD_octets _ _ _ (by omega), getMsbD_octets _ _ _ (by omega)]
    exact hmask _ (show 8 * k + i < t.pfx.bits + n by omega)

end Rustscale.Art
