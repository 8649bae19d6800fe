import Rustscale.Art.Delete

/-! The lookup walk finds the longest stored prefix of an address. -/
namespace Rustscale.Art
open Octets Allotment IpAddr Option IpPrefix

/-- `o` is the id a tree holds for the longest of its prefixes that contains `a`. -/
def LongestIn (fam : Bool) (t : StrideTable) (a : IpAddr) (o : Option RouteId) : Prop :=
  match o with
  | none => ∀ q : IpPrefix, q.Normal → q.contains a = true → find t q = none
  | some r => ∃ p : IpPrefix, p.Normal ∧ p.isIpv6 = fam ∧ find t p = some r ∧
      p.contains a = true ∧
      ∀ q : IpPrefix, q.Normal → q.contains a = true → p.bits < q.bits → find t q = none

variable {q : IpPrefix} {a : IpAddr} {s : IpPrefix} {fam : Bool} {t : StrideTable}

theorem isIpv6_of_contains (h : q.contains a = true) :
    q.isIpv6 = a.isIpv6 := ((contains_iff q a).mp h).1

theorem slot_of_contains (hs : 8 ∣ s.bits) (hq : AtHome s q) (hc : q.contains a = true) :
    slot s q = prefixIndex (a.octets (s.bits / 8)) (q.bits - s.bits) := by
  have hle := hq.sub_le
  apply prefixIndex_congr hle
  intro j hj
  unfold IpPrefix.byteAt IpPrefix.octets
  rw [getMsbD_octets _ _ _ (by omega), getMsbD_octets _ _ _ (by omega)]
  exact ((contains_iff q a).mp hc).2 _ (by omega)

/-- The host entry holds the id of the longest prefix of the address in the stride. -/
theorem hostEntry_longest (ht : Wf fam t) (hta : t.pfx.contains a = true) :
    match t.entries (hostIndex (a.octets (t.pfx.bits / 8))) with
    | none => ∀ q : IpPrefix, AtHome t.pfx q → q.contains a = true → find t q = none
    | some r => ∃ p : IpPrefix, p.Normal ∧ p.isIpv6 = fam ∧ AtHome t.pfx p ∧ find t p = some r ∧
        p.contains a = true ∧ ∀ q : IpPrefix, AtHome t.pfx q → q.contains a = true →
          p.bits < q.bits → find t q = none := by
  set b := a.octets (t.pfx.bits / 8) with hb
  have hal := ht.ok.aligned
  have habove : ∀ q : IpPrefix, AtHome t.pfx q → q.contains a = true →
      slot t.pfx q = hostIndex b / 2 ^ (8 - (q.bits - t.pfx.bits)) := fun q hq hc => by
    rw [slot_of_contains hal hq hc, prefixIndex_eq_div _ _ hq.sub_le]
  have hhost : hostIndex b < 2 * firstHostIndex := hostIndex_lt b
  have hpos : 0 < hostIndex b := by
    unfold hostIndex
    have : firstHostIndex = 256 := rfl
    omega
  split
  · next he =>
    intro q hq hc
    rw [find_of_le hq.2.1, if_pos hq]
    by_contra hne
    obtain ⟨r, hr⟩ := ne_none_iff_exists'.mp hne
    have hbelow : Below (slot t.pfx q) (hostIndex b) := ⟨_, (habove q hq hc).symm⟩
    exact ht.ok.allotted.covered_below (slot_pos _ _) hhost hbelow
      (by rw [(rootAt_eq_some hr).1]; simp) he
  · next r he =>
    obtain ⟨i, hi, ⟨k, hk⟩, hroot, hnone⟩ := Allotted.nearest t.entries hpos he
    have hk8 : k ≤ 8 := by
      by_contra hgt
      have h1 : 2 ^ 9 ≤ 2 ^ k := Nat.pow_le_pow_right (by norm_num) (by omega)
      have h2 : firstHostIndex = 2 ^ 8 := rfl
      rw [Nat.div_eq_of_lt (by omega)] at hk
      omega
    have hidx : i = prefixIndex b (8 - k) := by
      rw [prefixIndex_eq_div _ _ (by omega), ← hk]
      congr 2
      omega
    have hile : i ≤ hostIndex b := hk ▸ Nat.div_le_self _ _
    obtain ⟨p, hp, hpf, hph, hslot⟩ := ht.ok.exists_atHome hi (by omega) hroot
    obtain ⟨hpa, hplen⟩ := contains_of_slot hal hph hta (by omega) (hslot.trans hidx)
    refine ⟨p, hp, hpf, hph, ?_, hpa, fun q hq hc hlt => ?_⟩
    · rw [find_of_le hph.2.1, if_pos hph, hslot, hroot]
    · rw [find_of_le hq.2.1, if_pos hq]
      refine hnone _ ⟨_, (habove q hq hc).symm⟩ ?_
      rw [slot_of_contains hal hq hc, hidx, ← hb]
      have h1 := prefixIndex_lt_two_pow b (8 - k) (by omega)
      have h2 := two_pow_le_prefixIndex b (q.bits - t.pfx.bits)
      have hqb := hph.bits_le
      exact lt_of_lt_of_le h1 (le_trans (Nat.pow_le_pow_right (by norm_num) (by omega)) h2)

theorem addrByteAt_of_lt {k : ℕ} (h : 8 * k + 8 ≤ familyBits a.isIpv6) :
    addrByteAt a k = some (a.octets k) := by
  unfold addrByteAt
  rw [if_pos]
  change k < familyBits a.isIpv6 / 8
  omega

def selected (a : IpAddr) (found : List (IpPrefix × RouteId)) : Option RouteId :=
  (found.reverse.find? fun m => m.1.contains a).map Prod.snd

theorem selected_append (a : IpAddr) (xs ys : List (IpPrefix × RouteId)) :
    selected a (xs ++ ys) = (selected a ys).or (selected a xs) := by
  unfold selected
  rw [List.reverse_append, List.find?_append]
  cases ys.reverse.find? fun m => m.1.contains a <;> simp

def ownMatch (a : IpAddr) (t : StrideTable) : List (IpPrefix × RouteId) :=
  match t.entries (hostIndex (a.octets (t.pfx.bits / 8))) with
  | none => []
  | some r => [(t.pfx, r)]

theorem pushMatch_eq {found : List (IpPrefix × RouteId)} (h : found.length < 16) (s : IpPrefix)
    (o : Option RouteId) :
    pushMatch found s o = .ok (found ++ match o with | none => [] | some r => [(s, r)]) := by
  cases o with
  | none => simp [pushMatch]
  | some r => simp [pushMatch, h]

theorem find_below_of_contains (ht : Wf fam t) (hc : q.contains a = true)
    (hgt : t.pfx.bits + 8 < q.bits) :
    find t q = findChild (t.children (a.octets (t.pfx.bits / 8))) q := by
  have hal := ht.ok.aligned
  rw [find_of_gt hgt]
  have : q.byteAt (t.pfx.bits / 8) = a.octets (t.pfx.bits / 8) :=
    ((contains_iff q a).mp hc).2.octet (by omega)
  rw [this]

theorem contains_of_find (ht : Wf fam t) (hqf : q.isIpv6 = fam) (hc : q.contains a = true)
    {r : RouteId} (hr : find t q = some r) : t.pfx.contains a = true := by
  obtain ⟨h1, h2⟩ := find_contains ht hqf hr
  obtain ⟨hf, hag⟩ := (contains_iff q a).mp hc
  exact (contains_iff _ _).mpr ⟨ht.ok.family.trans (hqf.symm.trans hf),
    (agree_of_contains h1).trans (hag.mono (by omega))⟩

/-- A match below a table is longer than the table's own. -/
theorem LongestIn.step (ht : Wf fam t) (haf : a.isIpv6 = fam) {o : Option RouteId}
    (hchild : match t.children (a.octets (t.pfx.bits / 8)) with
      | none => o = none
      | some c => LongestIn fam c a o) :
    LongestIn fam t a (o.or (selected a (ownMatch a t))) := by
  have hfam : ∀ q : IpPrefix, q.contains a = true → q.isIpv6 = fam :=
    fun q hc => (isIpv6_of_contains hc).trans haf
  -- the prefixes of the child are longer than those the stride stores
  have hbelow : ∀ q : IpPrefix, q.Normal → q.contains a = true → ∀ r, find t q = some r →
      AtHome t.pfx q ∨ t.pfx.bits + 8 < q.bits := by
    intro q _ hc r hr
    by_cases hgt : t.pfx.bits + 8 < q.bits
    · exact Or.inr hgt
    · rw [find_of_le (by omega)] at hr
      split_ifs at hr with hh
      exact Or.inl hh
  cases o with
  | some r =>
    rw [some_or]
    cases hc : t.children (a.octets (t.pfx.bits / 8)) with
    | none =>
      rw [hc] at hchild
      cases hchild
    | some c =>
      rw [hc] at hchild
      obtain ⟨p, hp, hpf, hr, hpa, hmax⟩ := hchild
      have hcw := ht.sub hc
      have hcb := ht.child_bits hc
      refine ⟨p, hp, hpf, find_of_child ht hc hpf hr, hpa, fun q hq hqa hlt => ?_⟩
      have hplen := (find_contains hcw hpf hr).2
      rw [find_below_of_contains ht hqa (by omega), hc, findChild_some hcw (hfam q hqa)]
      exact hmax q hq hqa hlt
  | none =>
    rw [none_or]
    have hdeep : ∀ q : IpPrefix, q.Normal → q.contains a = true → t.pfx.bits + 8 < q.bits →
        find t q = none := by
      intro q hq hqa hgt
      rw [find_below_of_contains ht hqa hgt]
      cases hc : t.children (a.octets (t.pfx.bits / 8)) with
      | none => rfl
      | some c =>
        rw [hc] at hchild
        rw [findChild_some (ht.sub hc) (hfam q hqa)]
        exact hchild q hq hqa
    by_cases hta : t.pfx.contains a = true
    · have hhost := hostEntry_longest ht hta
      unfold ownMatch
      split at hhost
      · next he =>
        intro q hq hqa
        by_contra hne
        obtain ⟨r, hr⟩ := ne_none_iff_exists'.mp hne
        rcases hbelow q hq hqa r hr with hh | hgt
        · exact hne (hhost q hh hqa)
        · exact hne (hdeep q hq hqa hgt)
      · next r he =>
        have hsel : selected a [(t.pfx, r)] = some r := by simp [selected, hta]
        rw [hsel]
        obtain ⟨p, hp, hpf, hph, hr, hpa, hmax⟩ := hhost
        refine ⟨p, hp, hpf, hr, hpa, fun q hq hqa hlt => ?_⟩
        by_contra hne
        obtain ⟨r', hr'⟩ := ne_none_iff_exists'.mp hne
        rcases hbelow q hq hqa r' hr' with hh | hgt
        · exact hne (hmax q hh hqa hlt)
        · exact hne (hdeep q hq hqa hgt)
    · have hsel : selected a (ownMatch a t) = none := by
        unfold ownMatch
        split <;> simp [selected, hta]
      rw [hsel]
      intro q hq hqa
      by_contra hne
      obtain ⟨r, hr⟩ := ne_none_iff_exists'.mp hne
      exact hta (contains_of_find ht (hfam q hqa) hqa hr)

/-- The last match collected on the way down is the longest. -/
theorem collectMatches_spec (haf : a.isIpv6 = fam) (t : StrideTable) :
    ∀ found : List (IpPrefix × RouteId), Wf fam t → found.length ≤ t.pfx.bits / 8 →
      ∃ ms, collectMatches a t (t.pfx.bits / 8) found = .ok (found ++ ms) ∧
        LongestIn fam t a (selected a ms) := by
  induction t using StrideTable.isChild_wf.induction with
  | _ t ih =>
  intro found ht hlen
  have hal := ht.ok.aligned
  have hroom := ht.ok.room
  have hfb := familyBits_le fam
  have hown : (ownMatch a t).length ≤ 1 := by
    unfold ownMatch
    split <;> simp
  have hstep : collectMatches a t (t.pfx.bits / 8) found =
      match t.children (a.octets (t.pfx.bits / 8)) with
      | none => .ok (found ++ ownMatch a t)
      | some c => collectMatches a c (c.pfx.bits / 8) (found ++ ownMatch a t) := by
    rw [collectMatches, addrByteAt_of_lt (by rw [haf]; omega)]
    simp only [StrideTable.getValAndChild]
    rw [pushMatch_eq (by omega)]
    unfold ownMatch
    simp only
    split <;> simp_all
  rw [hstep]
  cases hc : t.children (a.octets (t.pfx.bits / 8)) with
  | none =>
    refine ⟨ownMatch a t, rfl, ?_⟩
    have := LongestIn.step ht haf (by rw [hc])
    rwa [none_or] at this
  | some c =>
    have hcb := ht.child_bits hc
    obtain ⟨ms, hrun, hms⟩ := ih c ⟨_, hc⟩ (found ++ ownMatch a t) (ht.sub hc)
      (by rw [List.length_append]; omega)
    refine ⟨ownMatch a t ++ ms, by rw [← List.append_assoc]; exact hrun, ?_⟩
    rw [selected_append]
    exact LongestIn.step ht haf (by rw [hc]; exact hms)

end Rustscale.Art
