import Rustscale.Art.Invariant

/-! Insertion into a stride tree adds exactly the given route. -/
namespace Rustscale.Art
open Octets Allotment IpAddr StrideTable Nat

def Fresh (fam : Bool) (r : RouteId) (t : StrideTable) : Prop :=
  ∀ q : IpPrefix, q.Normal → q.isIpv6 = fam → find t q ≠ some r

variable {fam : Bool} {r : RouteId} {t : StrideTable} {b : Byte} {c : StrideTable} {p : IpPrefix}
  {n i : ℕ}

theorem Fresh.child (h : Fresh fam r t) (ht : Wf fam t) (hc : t.children b = some c) :
    Fresh fam r c :=
  fun q hq hf hr => h q hq hf (find_of_child ht hc hf hr)

theorem Fresh.entries (h : Fresh fam r t) (ht : Wf fam t) :
    ∀ j, 0 < j → j < 2 * firstHostIndex → t.entries j ≠ some r := by
  intro j hj hj2 hr
  obtain ⟨a, ha, hab, har, -⟩ := Allotted.nearest t.entries hj hr
  have hle := hab.le
  obtain ⟨q, hq, hf, hh, hs⟩ := ht.ok.exists_atHome ha (by omega) har
  apply h q hq hf
  rw [find_of_le hh.2.1, if_pos hh, hs, har]

structure Inserted (fam : Bool) (p : IpPrefix) (r : RouteId) (t : StrideTable)
    (out : StrideTable × Option RouteId) : Prop where
  fresh : out.2 = none
  wf : Wf fam out.1
  pfx : out.1.pfx = t.pfx
  find_eq : ∀ q : IpPrefix, q.Normal → q.isIpv6 = fam →
    find out.1 q = if q = p then some r else find t q

/-- Entries in which only the root at the slot of `p` changed differ at `p` only. -/
theorem update_atHome (ht : Wf fam t) (hp : p.Normal) (hpf : p.isIpv6 = fam) (hh : AtHome t.pfx p)
    {e : ℕ → Option RouteId} {v : Option RouteId} {refs : ℕ} (hall : Allotted firstHostIndex e)
    (hroot : ∀ j, 0 < j → j < 2 * firstHostIndex →
      rootAt e j = if j = slot t.pfx p then v else rootAt t.entries j)
    (hrefs : refs = rootCount firstHostIndex e) :
    Wf fam { t with entries := e, routeRefs := refs } ∧
    ∀ q : IpPrefix, q.Normal → q.isIpv6 = fam →
      find { t with entries := e, routeRefs := refs } q = if q = p then v else find t q := by
  constructor
  · obtain ⟨h1, h2, h3, h4, -, h6, -, h8⟩ := ht.ok
    refine .node ⟨h1, h2, h3, h4, hall, fun h0 => ?_, hrefs, h8⟩
      (fun b c hc => ht.under hc) (fun b c hc => ht.sub hc)
    -- the first entry is the node of the default route only
    have hlt : t.pfx.bits < p.bits := hh.2.2.resolve_right fun hz => h0 hz.1
    have h1' := hroot 1 (by norm_num) (by decide)
    rw [if_neg (slot_ne_one hlt).symm, rootAt_of_ne (Or.inl rfl), rootAt_of_ne (Or.inl rfl)] at h1'
    exact h1'.trans (h6 h0)
  · intro q hq hqf
    set t' : StrideTable := { t with entries := e, routeRefs := refs }
    have hqp (hne : ¬ AtHome t.pfx q) : q ≠ p := by
      rintro rfl
      exact hne hh
    by_cases hle : q.bits ≤ t.pfx.bits + 8
    · rw [find_of_le hle, find_of_le (t := t') hle]
      by_cases hqh : AtHome t.pfx q
      · rw [if_pos hqh, if_pos hqh, hroot _ (slot_pos _ _) hqh.slot_lt]
        exact if_congr ⟨slot_inj ht.ok.aligned hq hp (hqf.trans hpf.symm) hqh hh,
          fun h => by rw [h]⟩ rfl rfl
      · rw [if_neg hqh, if_neg hqh, if_neg (hqp hqh)]
    · rw [if_neg (hqp fun h => hle h.2.1), find_of_gt (not_le.mp hle),
        find_of_gt (t := t') (not_le.mp hle)]

/-- Inserting a prefix in the stride where it belongs. -/
theorem insert_atHome (ht : Wf fam t) (hp : p.Normal) (hpf : p.isIpv6 = fam) (hh : AtHome t.pfx p)
    (hfresh : Fresh fam r t) (hnone : find t p = none) :
    Inserted fam p r t (t.insert (p.byteAt (t.pfx.bits / 8)) (p.bits - t.pfx.bits) r) := by
  have hfree : rootAt t.entries (slot t.pfx p) = none := by
    rwa [find_of_le hh.2.1, if_pos hh] at hnone
  have hprev : t.hasPrefixRootedAt (slot t.pfx p) = false := by
    rw [hasPrefixRootedAt_eq, hfree]
    rfl
  obtain ⟨hall, hroot⟩ := ht.ok.allotted.install (slot_pos t.pfx p) (hfresh.entries ht)
  have hcount := rootCount_install (slot_pos t.pfx p) hh.slot_lt hfree hroot
  obtain ⟨hwf, hfind⟩ := update_atHome ht hp hpf hh hall hroot
    (show t.routeRefs + 1 = _ by rw [hcount, ht.ok.routeRefs_eq])
  have hins : t.insert (p.byteAt (t.pfx.bits / 8)) (p.bits - t.pfx.bits) r =
      (⟨t.pfx, allot firstHostIndex t.entries (slot t.pfx p) (t.entries (slot t.pfx p)) (some r),
        t.children, t.routeRefs + 1, t.childRefs⟩, none) := by
    unfold slot at hprev ⊢
    simp [StrideTable.insert, hprev]
  rw [hins]
  exact ⟨rfl, hwf, rfl, hfind⟩

/-- The last stride of the way to `p`, made for it alone. -/
def leaf (p : IpPrefix) (r : RouteId) : StrideTable × Option RouteId :=
  (new (prefixAtByteBoundary p ((p.bits - 1) / 8 * 8))).insert
    (p.byteAt ((p.bits - 1) / 8)) (p.bits - (p.bits - 1) / 8 * 8) r

theorem leaf_inserted (hp : p.Normal) (hpf : p.isIpv6 = fam) (h0 : 0 < p.bits) (r : RouteId) :
    Inserted fam p r (.new (prefixAtByteBoundary p ((p.bits - 1) / 8 * 8))) (leaf p r) := by
  have hle := hp.bits_le
  rw [hpf] at hle
  have hdvd := familyBits_dvd fam
  have hsf : (prefixAtByteBoundary p ((p.bits - 1) / 8 * 8)).isIpv6 = fam := by simpa using hpf
  have hhome : AtHome (prefixAtByteBoundary p ((p.bits - 1) / 8 * 8)) p := by
    have hag := prefixAtByteBoundary_agree p ((p.bits - 1) / 8 * 8) hp.1 (by omega)
    refine ⟨contains_of_agree hsf hpf hag, ?_, Or.inl ?_⟩ <;>
      (rw [prefixAtByteBoundary_bits]; omega)
  have := insert_atHome (r := r) (.new hsf (prefixAtByteBoundary_normal p _ (by rw [hpf]; omega))
    (dvd_mul_left 8 _) (by rw [prefixAtByteBoundary_bits]; omega)) hp hpf hhome
    (fun q _ _ => by simp [find_new]) (find_new _ p)
  rwa [new_pfx, prefixAtByteBoundary_bits, Nat.mul_div_cancel _ (by norm_num)] at this

/-- Replacing one child changes the prefixes below that child only. -/
theorem find_update_slot {t' : StrideTable} {v : Option RouteId} (hgt : t.pfx.bits + 8 < p.bits)
    (hpfx : t'.pfx = t.pfx) (hent : t'.entries = t.entries)
    (hself : t'.children (p.byteAt (t.pfx.bits / 8)) = some c)
    (hne : ∀ a, a ≠ p.byteAt (t.pfx.bits / 8) → t'.children a = t.children a)
    (hc : ∀ q : IpPrefix, q.Normal → q.isIpv6 = fam → findChild (some c) q =
      if q = p then v else findChild (t.children (p.byteAt (t.pfx.bits / 8))) q) :
    ∀ q : IpPrefix, q.Normal → q.isIpv6 = fam →
      find t' q = if q = p then v else find t q := by
  intro q hq hqf
  by_cases hle : q.bits ≤ t.pfx.bits + 8
  · have hqp : q ≠ p := by
      rintro rfl
      omega
    rw [if_neg hqp, find_of_le (by rw [hpfx]; exact hle), find_of_le hle, hpfx, hent]
  · rw [find_of_gt (by rw [hpfx]; omega), find_of_gt (by omega), hpfx]
    by_cases hbyte : q.byteAt (t.pfx.bits / 8) = p.byteAt (t.pfx.bits / 8)
    · rw [hbyte, hself, hc q hq hqf]
    · have hqp : q ≠ p := by
        rintro rfl
        exact hbyte rfl
      rw [if_neg hqp, hne _ hbyte]

/-- What `compute_prefix_split` returns for prefixes in one slot of which none contains the other.
-/
theorem computePrefixSplit_spec {a : IpPrefix} (ha : a.Normal) (hp : p.Normal)
    (haf : a.isIpv6 = fam) (hpf : p.isIpv6 = fam) (hn : 8 ∣ n) (hal : 8 ∣ a.bits) (hna : n ≤ a.bits)
    (hnp : n < p.bits) (hag : Agree n a.addr p.addr) (hnot : prefixStrictlyContains a p = false) :
    ∃ m, (computePrefixSplit a p).1.bits = 8 * m ∧ (computePrefixSplit a p).1.Normal ∧
      (computePrefixSplit a p).1.isIpv6 = fam ∧ n ≤ 8 * m ∧ 8 * m < a.bits ∧ 8 * m < p.bits ∧
      Agree (8 * m) (computePrefixSplit a p).1.addr a.addr ∧
      Agree (8 * m) (computePrefixSplit a p).1.addr p.addr ∧
      (computePrefixSplit a p).2.1 = a.byteAt m ∧ (computePrefixSplit a p).2.2 = p.byteAt m ∧
      (p.bits ≤ 8 * m + 8 ∨ a.byteAt m ≠ p.byteAt m) := by
  have hlea : n < a.bits := by
    rcases lt_or_ge n a.bits with h | h
    · exact h
    · have hna' : a.bits = n := by omega
      have : prefixStrictlyContains a p = true :=
        (prefixStrictlyContains_iff a p).mpr ⟨by omega, haf.trans hpf.symm, hna' ▸ hag⟩
      rw [this] at hnot
      cases hnot
  set low := min a.bits p.bits with hlow
  set shared0 := commonBits a p low with hs0
  have hs0le : shared0 ≤ low := commonBits_le a p low
  have hs0n : n ≤ shared0 := (le_commonBits_iff a p low n).mpr ⟨by omega, hag⟩
  have hs0ag : Agree shared0 a.addr p.addr := ((le_commonBits_iff a p low shared0).mp le_rfl).2
  set shared := if shared0 = low then shared0 - 1 else shared0 with hs
  have hsle : shared ≤ shared0 := by rw [hs]; split_ifs <;> omega
  have hslow : shared < low := by rw [hs]; split_ifs <;> omega
  have hsn : n ≤ shared := by rw [hs]; split_ifs <;> omega
  set m := shared / 8 with hm
  have hsplit : computePrefixSplit a p =
      (prefixAtByteBoundary a (m * 8), a.byteAt m, p.byteAt m) := by
    unfold computePrefixSplit
    simp only [ha.masked_eq, hp.masked_eq]
    rfl
  have hma : 8 * m < a.bits := by omega
  have hmp : 8 * m < p.bits := by omega
  have hag1 : Agree (8 * m) (prefixAtByteBoundary a (m * 8)).addr a.addr := by
    rw [mul_comm 8 m]
    exact prefixAtByteBoundary_agree a _ ha.1 (by omega)
  refine ⟨m, ?_⟩
  rw [hsplit]
  refine ⟨by simp [mul_comm], ?_, by simpa using haf, by omega, hma, hmp, hag1, ?_, rfl, rfl, ?_⟩
  · have hbits := ha.bits_le
    exact prefixAtByteBoundary_normal a _ (by omega)
  · exact hag1.trans (hs0ag.mono (by omega))
  · by_cases hshort : p.bits ≤ 8 * m + 8
    · exact Or.inl hshort
    · right
      intro hbyte
      -- equal bytes would make the common part longer than `common_bits` found it
      have hext : Agree (8 * (m + 1)) a.addr p.addr :=
        Agree.extend (hs0ag.mono (by omega)) hbyte
      have hmore : min (8 * (m + 1)) low ≤ shared0 :=
        (le_commonBits_iff a p low _).mpr ⟨by omega, hext.mono (by omega)⟩
      have hfull : shared0 = low := by
        by_contra hne
        rw [if_neg hne] at hs
        omega
      rw [if_pos hfull] at hs
      have hap : a.bits < p.bits := by omega
      have : prefixStrictlyContains a p = true :=
        (prefixStrictlyContains_iff a p).mpr ⟨hap, haf.trans hpf.symm, hs0ag.mono (by omega)⟩
      rw [this] at hnot
      cases hnot

theorem getOrCreateChild_of_none (h : t.children b = none) :
    t.getOrCreateChild b =
      ({ t.putChild b (some (.new (childPrefixOf t.pfx b))) with childRefs := t.childRefs + 1 },
        .new (childPrefixOf t.pfx b), true) := by
  simp [getOrCreateChild, h]

/-- Where no child is on the way, a new one is made for the prefix. -/
theorem inserted_newChild (ht : Wf fam t) (hp : p.Normal) (hpf : p.isIpv6 = fam)
    (hag : Agree t.pfx.bits t.pfx.addr p.addr) (hgt : t.pfx.bits + 8 < p.bits) (r : RouteId)
    (hnone : t.children (p.byteAt (t.pfx.bits / 8)) = none) :
    Inserted fam p r t ((t.getOrCreateChild (p.byteAt (t.pfx.bits / 8))).1.putChild
      (p.byteAt (t.pfx.bits / 8)) (some (leaf p r).1), (leaf p r).2) := by
  have hl := leaf_inserted hp hpf (by omega) r
  have hsag := prefixAtByteBoundary_agree p ((p.bits - 1) / 8 * 8) hp.1 (by omega)
  have hu : Under t.pfx (p.byteAt (t.pfx.bits / 8)) (leaf p r).1.pfx := by
    rw [hl.pfx]
    refine ⟨by rw [new_pfx, prefixAtByteBoundary_bits]; omega,
      hag.trans (hsag.symm.mono (by omega)), ?_⟩
    exact hsag.octet (by omega)
  have heq : (t.getOrCreateChild (p.byteAt (t.pfx.bits / 8))).1.putChild
      (p.byteAt (t.pfx.bits / 8)) (some (leaf p r).1) =
      { t.putChild (p.byteAt (t.pfx.bits / 8)) (some (leaf p r).1) with
        childRefs := t.childRefs + 1 } := by
    simp [getOrCreateChild_of_none hnone, putChild]
  rw [heq]
  refine ⟨hl.fresh, ht.addChild hnone hu hl.wf, rfl, ?_⟩
  refine find_update_slot hgt rfl rfl (putChild_children_self t _ _)
    (fun a hab => putChild_children_of_ne t _ hab) fun q hq hqf => ?_
  rw [findChild_some hl.wf hqf, hl.find_eq q hq hqf, find_new, hnone]
  rfl

theorem Inserted.lift {x : StrideTable} {out : StrideTable × Option RouteId}
    (hx : Inserted fam p r x out) (ht : Wf fam t) (hgt : t.pfx.bits + 8 < p.bits)
    (hsome : (t.children (p.byteAt (t.pfx.bits / 8))).isSome)
    (hu : Under t.pfx (p.byteAt (t.pfx.bits / 8)) x.pfx) (hfind : ∀ q : IpPrefix, q.isIpv6 = fam →
      find x q = findChild (t.children (p.byteAt (t.pfx.bits / 8))) q) :
    Inserted fam p r t (t.putChild (p.byteAt (t.pfx.bits / 8)) (some out.1), out.2) := by
  refine ⟨hx.fresh, ht.putChild hsome (hx.pfx ▸ hu) hx.wf, rfl, ?_⟩
  refine find_update_slot hgt rfl rfl (putChild_children_self t _ _)
    (fun _ hab => putChild_children_of_ne t _ hab) fun q hq hqf => ?_
  rw [findChild_some hx.wf hqf, hx.find_eq q hq hqf, hfind q hqf]

/-- A table put between two others finds what the lower one finds. -/
theorem intermediate_spec (hc : Wf fam c) {s : IpPrefix} {m : ℕ} (hs : s.Normal)
    (hsf : s.isIpv6 = fam) (hsb : s.bits = 8 * m) (hlt : 8 * m < c.pfx.bits)
    (hag : Agree (8 * m) s.addr c.pfx.addr) :
    Wf fam ((new s).setChild (c.pfx.byteAt m) c) ∧
      ∀ q : IpPrefix, q.isIpv6 = fam →
        find ((new s).setChild (c.pfx.byteAt m) c) q = find c q := by
  have hroom := hc.ok.room
  have hal := hc.ok.aligned
  have hk : s.bits / 8 = m := by omega
  have hnew : Wf fam (new s) := .new hsf hs (by omega) (by omega)
  have heq : (new s).setChild (c.pfx.byteAt m) c =
      { (new s).putChild (c.pfx.byteAt m) (some c) with
        childRefs := (new s).childRefs + 1 } := by
    simp [setChild, new]
  have hwf : Wf fam ((new s).setChild (c.pfx.byteAt m) c) := by
    refine hnew.addChild rfl ⟨?_, ?_, ?_⟩ hc
    · change s.bits < c.pfx.bits
      omega
    · change Agree s.bits s.addr c.pfx.addr
      rw [hsb]
      exact hag
    · change c.pfx.byteAt (s.bits / 8) = c.pfx.byteAt m
      rw [hk]
  refine ⟨hwf, fun q hqf => ?_⟩
  rw [find_congr (t := (new s).putChild (c.pfx.byteAt m) (some c))
    (u := (new s).setChild (c.pfx.byteAt m) c) rfl rfl rfl]
  by_cases hle : q.bits ≤ s.bits + 8
  · rw [find_putChild_of_le hle, find_new, find_eq_none_of_short hc hqf (by omega) (by omega)]
  · rw [find_putChild_of_gt (show s.bits + 8 < q.bits by omega), find_new, ← findChild_some hc hqf]
    simp only [new_pfx, hk, findChild]
    split_ifs with hbyte hcon hcon
    · rfl
    · rfl
    · exact absurd ((agree_of_contains hcon).octet (by omega)).symm hbyte
    · rfl

theorem insertFrom_of_le (h : n ≤ 8) :
    insertFrom p r t i n =
      t.insert (p.byteAt ((p.bits - 1) / 8)) (p.bits - (p.bits - 1) / 8 * 8) r := by
  rw [insertFrom, if_pos h]

theorem insertFrom_of_none (h : ¬ n ≤ 8) (hc : t.children (p.byteAt i) = none) :
    insertFrom p r t i n =
      ((t.getOrCreateChild (p.byteAt i)).1.putChild (p.byteAt i) (some (leaf p r).1),
        (leaf p r).2) := by
  rw [insertFrom, if_neg h]
  simp only
  split
  · rw [getOrCreateChild_of_none hc]
    rfl
  · simp_all

theorem insertFrom_of_contains (h : ¬ n ≤ 8) (hc : t.children (p.byteAt i) = some c)
    (hin : prefixStrictlyContains c.pfx p = true) :
    insertFrom p r t i n =
      let child := insertFrom p r c (c.pfx.bits / 8) (p.bits - c.pfx.bits)
      (t.putChild (p.byteAt i) (some child.1), child.2) := by
  rw [insertFrom, if_neg h]
  simp only
  split <;> simp_all

/-- The stride that takes the place of the child `c` when it has to be split. -/
def splitChild (p : IpPrefix) (r : RouteId) (c : StrideTable) : StrideTable × Option RouteId :=
  let split := computePrefixSplit c.pfx p
  let intermediate := (new split.1).setChild split.2.1 c
  if p.bits - intermediate.pfx.bits ≤ 8 then
    intermediate.insert (p.byteAt ((p.bits - 1) / 8)) (p.bits - (p.bits - 1) / 8 * 8) r
  else
    let child := (new (prefixAtByteBoundary p ((p.bits - 1) / 8 * 8))).insert
      (p.byteAt ((p.bits - 1) / 8)) (p.bits - (p.bits - 1) / 8 * 8) r
    ((intermediate.getOrCreateChild split.2.2).1.putChild split.2.2 (some child.1), child.2)

theorem insertFrom_of_split (h : ¬ n ≤ 8) (hc : t.children (p.byteAt i) = some c)
    (hnot : prefixStrictlyContains c.pfx p = false)
    (hfree : p.bits - (computePrefixSplit c.pfx p).1.bits ≤ 8 ∨
      (computePrefixSplit c.pfx p).2.2 ≠ (computePrefixSplit c.pfx p).2.1) :
    insertFrom p r t i n =
      (t.putChild (p.byteAt i) (some (splitChild p r c).1), (splitChild p r c).2) := by
  rw [insertFrom, if_neg h]
  simp only
  split
  · simp_all
  · next d hd =>
    obtain rfl := Option.mem_unique hc hd
    rw [if_pos (by simp [hnot])]
    unfold splitChild
    simp only
    split_ifs with hshort
    · rfl
    · have hslot : ((new (computePrefixSplit c.pfx p).1).setChild
          (computePrefixSplit c.pfx p).2.1 c).children (computePrefixSplit c.pfx p).2.2 = none :=
        putChild_children_of_ne _ _ (hfree.resolve_left hshort)
      rw [getOrCreateChild_of_none hslot]
      rfl

/-- Where the child is for another prefix, a table for their common part goes between. -/
theorem inserted_split (ht : Wf fam t) (hp : p.Normal) (hpf : p.isIpv6 = fam)
    (hag : Agree t.pfx.bits t.pfx.addr p.addr) (hgt : t.pfx.bits + 8 < p.bits)
    (hfresh : Fresh fam r t) (hnone : find t p = none)
    (hc : t.children (p.byteAt (t.pfx.bits / 8)) = some c)
    (hnot : prefixStrictlyContains c.pfx p = false) :
    Inserted fam p r t (insertFrom p r t (t.pfx.bits / 8) (p.bits - t.pfx.bits)) := by
  have hcw := ht.sub hc
  have hu := ht.under hc
  have hcb := ht.child_bits hc
  have halt := ht.ok.aligned
  have hagc : Agree (t.pfx.bits + 8) c.pfx.addr p.addr := by
    have := Agree.extend ((hu.agree.symm.trans hag).mono (by omega)) hu.byte
    exact this.mono (by omega)
  obtain ⟨m, hsb, hsn, hsf, hnm, hmc, hmp, hagsc, hagsp, he1, he2, hsep⟩ :=
    computePrefixSplit_spec hcw.ok.normal hp hcw.ok.family hpf (by omega) hcw.ok.aligned hcb
      hgt hagc hnot
  obtain ⟨hiw, hifind⟩ := intermediate_spec hcw hsn hsf hsb hmc hagsc
  rw [insertFrom_of_split (by omega) hc hnot
    (by rw [he1, he2, hsb]; exact hsep.imp (by omega) Ne.symm)]
  unfold splitChild
  simp only [he1, he2]
  set s := (computePrefixSplit c.pfx p).1 with hs
  have hipfx : ((new s).setChild (c.pfx.byteAt m) c).pfx = s := rfl
  set x := (new s).setChild (c.pfx.byteAt m) c with hx
  have hm8 : x.pfx.bits / 8 = m := by rw [hipfx]; omega
  have hux : Under t.pfx (p.byteAt (t.pfx.bits / 8)) x.pfx := by
    refine ⟨by rw [hipfx]; omega, ?_, ?_⟩
    · rw [hipfx]
      exact hag.trans (hagsp.symm.mono (by omega))
    · rw [hipfx]
      exact hagsp.octet (by omega)
  have hfx : ∀ q : IpPrefix, q.isIpv6 = fam →
      find x q = findChild (t.children (p.byteAt (t.pfx.bits / 8))) q := by
    intro q hqf
    rw [hifind q hqf, hc, findChild_some hcw hqf]
  refine Inserted.lift ?_ ht hgt (by rw [hc]; rfl) hux hfx
  split_ifs with hshort
  · -- the intermediate stride stores the prefix itself
    have hhome : AtHome x.pfx p := by
      refine ⟨contains_of_agree hsf hpf ?_, by omega, Or.inl (by rw [hipfx]; omega)⟩
      rw [hipfx, hsb]
      exact hagsp
    have hfreshx : Fresh fam r x := fun q hq hqf => by
      rw [hifind q hqf]
      exact hfresh.child ht hc q hq hqf
    have hnonex : find x p = none := by
      rw [hfx p hpf, ← find_of_gt hgt, hnone]
    rw [hipfx, hsb] at hshort
    have hb : (p.bits - 1) / 8 = m := by omega
    have := insert_atHome hiw hp hpf hhome hfreshx hnonex
    rwa [hm8, hipfx, hsb, ← hb, mul_comm] at this
  · rw [hipfx, hsb] at hshort
    have hne : c.pfx.byteAt m ≠ p.byteAt m := hsep.resolve_left (by omega)
    have hfree : x.children (p.byteAt m) = none :=
      putChild_children_of_ne (.new s) _ hne.symm
    have := inserted_newChild hiw hp hpf (by rw [hipfx, hsb]; exact hagsp)
      (by rw [hipfx, hsb]; omega) r (by rw [hm8]; exact hfree)
    rwa [hm8] at this

/-- The descent inserts the prefix, by induction on the tables below. -/
theorem insertFrom_inserted (hp : p.Normal) (hpf : p.isIpv6 = fam) (t : StrideTable) :
    Wf fam t → t.pfx.contains p.addr = true →
    t.pfx.bits < p.bits → Fresh fam r t → find t p = none →
    Inserted fam p r t (insertFrom p r t (t.pfx.bits / 8) (p.bits - t.pfx.bits)) := by
  induction t using isChild_wf.induction with
  | _ t ih =>
  intro ht hcon hlt hfresh hnone
  have hag := agree_of_contains hcon
  have halt := ht.ok.aligned
  by_cases hle : p.bits - t.pfx.bits ≤ 8
  · rw [insertFrom_of_le hle]
    have hb : (p.bits - 1) / 8 = t.pfx.bits / 8 := by omega
    have hb8 : t.pfx.bits / 8 * 8 = t.pfx.bits := by omega
    rw [hb, hb8]
    exact insert_atHome ht hp hpf ⟨hcon, by omega, Or.inl hlt⟩ hfresh hnone
  have hgt : t.pfx.bits + 8 < p.bits := by omega
  cases hslot : t.children (p.byteAt (t.pfx.bits / 8)) with
  | none =>
    rw [insertFrom_of_none hle hslot]
    exact inserted_newChild ht hp hpf hag hgt r hslot
  | some c =>
    by_cases hin : prefixStrictlyContains c.pfx p = true
    · rw [insertFrom_of_contains hle hslot hin]
      obtain ⟨hb, hf, hagc⟩ := (prefixStrictlyContains_iff _ _).mp hin
      have hnc : find c p = none := by
        rw [← findChild_some (ht.sub hslot) hpf, ← hslot, ← find_of_gt hgt, hnone]
      have := ih c ⟨_, hslot⟩ (ht.sub hslot) ((IpPrefix.contains_iff _ _).mpr ⟨hf, hagc⟩) hb
        (hfresh.child ht hslot) hnc
      refine this.lift ht hgt (by rw [hslot]; rfl) (ht.under hslot) fun q hqf => ?_
      rw [hslot, findChild_some (ht.sub hslot) hqf]
    · exact inserted_split ht hp hpf hag hgt hfresh hnone hslot (by simpa using hin)

theorem insertInto_inserted (ht : Wf fam t) (h0 : t.pfx.bits = 0) (hp : p.Normal)
    (hpf : p.isIpv6 = fam) (hfresh : Fresh fam r t) (hnone : find t p = none) :
    Inserted fam p r t (insertInto t p r) := by
  have hcon : t.pfx.contains p.addr = true :=
    contains_of_agree ht.ok.family hpf fun i hi => by omega
  unfold insertInto
  split_ifs with hz
  · have := insert_atHome ht hp hpf ⟨hcon, by omega, Or.inr ⟨h0, hz⟩⟩ hfresh hnone
    rwa [hp.byteAt_zero hz, hz, Nat.zero_sub] at this
  · have := insertFrom_inserted hp hpf t ht hcon (by omega) hfresh hnone
    rwa [h0] at this

end Rustscale.Art
