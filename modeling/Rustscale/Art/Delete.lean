import Rustscale.Art.Insert

/-! Deletion removes exactly the given route, and the clean-up of empty strides none. -/
namespace Rustscale.Art
open Octets Allotment IpAddr StrideTable Finset Option

structure Deleted (fam : Bool) (p : IpPrefix) (t t' : StrideTable) : Prop where
  wf : Wf fam t'
  pfx : t'.pfx = t.pfx
  find_eq : ∀ q : IpPrefix, q.Normal → q.isIpv6 = fam →
    find t' q = if q = p then none else find t q

variable {fam : Bool} {t : StrideTable} {p : IpPrefix} {r : RouteId} {q : IpPrefix}
  {c : StrideTable} {b : Byte}

/-- Deleting a prefix in the stride that holds it. -/
theorem delete_atHome (ht : Wf fam t) (hp : p.Normal) (hpf : p.isIpv6 = fam) (hh : AtHome t.pfx p)
    (hr : find t p = some r) :
    ∃ t', t.delete (p.byteAt (t.pfx.bits / 8)) (p.bits - t.pfx.bits) = .ok (some (t', r)) ∧
      Deleted fam p t t' := by
  have hroot : rootAt t.entries (slot t.pfx p) = some r := by
    rwa [find_of_le hh.2.1, if_pos hh] at hr
  have hentry := (rootAt_eq_some hroot).1
  obtain ⟨hall, hroots⟩ := ht.ok.allotted.remove (slot_pos t.pfx p) hh.slot_lt hroot rfl
  have hcount := rootCount_remove (slot_pos t.pfx p) hh.slot_lt hroot hroots
  have hparent : (parentIndex (slot t.pfx p)).bind t.entries =
      if slot t.pfx p = 1 then none else t.entries (slot t.pfx p / 2) := by
    unfold parentIndex
    split_ifs with h1
    · rfl
    · rw [Nat.shiftRight_one]
      rfl
  obtain ⟨hwf, hfind⟩ := update_atHome ht hp hpf hh hall hroots
    (show t.routeRefs - 1 = _ by rw [ht.ok.routeRefs_eq]; omega)
  refine ⟨_, ?_, hwf, rfl, hfind⟩
  have hslot : prefixIndex (p.byteAt (t.pfx.bits / 8)) (p.bits - t.pfx.bits) = slot t.pfx p := rfl
  unfold delete
  simp [hslot, hasPrefixRootedAt_eq, hroot, hentry, hparent]

def PathOk (t : StrideTable) : List Byte → Prop
  | [] => True
  | b :: rest => ∃ c, t.children b = some c ∧ PathOk c rest

/-- The descent deletes the prefix and records the path it took. -/
theorem deleteDescend_deleted (hp : p.Normal) (hpf : p.isIpv6 = fam) (t : StrideTable) :
    Wf fam t → t.pfx.bits < p.bits → find t p = some r →
    ∃ t' path, deleteDescend p t (t.pfx.bits / 8) (p.bits - t.pfx.bits) =
      .ok (some (t', path, r)) ∧ Deleted fam p t t' ∧ PathOk t' path := by
  induction t using isChild_wf.induction with
  | _ t ih =>
  intro ht hlt hr
  obtain ⟨hcon, -⟩ := find_contains ht hpf hr
  by_cases hgt : 8 < p.bits - t.pfx.bits
  · have hgt' : t.pfx.bits + 8 < p.bits := by omega
    have hfind := find_of_gt hgt'
    cases hslot : t.children (p.byteAt (t.pfx.bits / 8)) with
    | none =>
      rw [hr, hslot] at hfind
      cases hfind
    | some c =>
      have hcw := ht.sub hslot
      rw [hr, hslot, findChild_some hcw hpf] at hfind
      have hcb := ht.child_bits hslot
      have hclt : c.pfx.bits < p.bits := by
        have := (find_contains hcw hpf hfind.symm).2
        omega
      obtain ⟨c', path, hrun, hdel, hpath⟩ := ih c ⟨_, hslot⟩ hcw hclt hfind.symm
      refine ⟨t.putChild (p.byteAt (t.pfx.bits / 8)) (some c'), p.byteAt (t.pfx.bits / 8) :: path,
        ?_, ⟨?_, rfl, ?_⟩, c', by simp, hpath⟩
      · rw [deleteDescend, if_pos hgt]
        simp only
        split
        · simp_all
        · next d hd =>
          obtain rfl := mem_unique hslot hd
          rw [if_neg (by omega), hrun]
      · exact ht.putChild (by rw [hslot]; rfl) (hdel.pfx ▸ ht.under hslot) hdel.wf
      · refine find_update_slot hgt' rfl rfl (putChild_children_self t _ _)
          (fun a hab => putChild_children_of_ne t _ hab) fun q hq hqf => ?_
        rw [findChild_some hdel.wf hqf, hdel.find_eq q hq hqf, hslot, findChild_some hcw hqf]
  · have hhome : AtHome t.pfx p := ⟨hcon, by omega, Or.inl hlt⟩
    obtain ⟨t', hdel, hspec⟩ := delete_atHome ht hp hpf hhome hr
    refine ⟨t', [], ?_, hspec, trivial⟩
    have hin : prefixStrictlyContains t.pfx p = true := by
      simp [prefixStrictlyContains, hlt, hcon]
    rw [deleteDescend, if_neg hgt, if_neg (by simp [hin]), hdel]

section
variable (ht : Wf fam t)
include ht

theorem find_of_no_routes (h : t.routeRefs = 0) (hle : q.bits ≤ t.pfx.bits + 8) :
    find t q = none := by
  rw [find_of_le hle]
  split_ifs with hh
  · rw [ht.ok.routeRefs_eq] at h
    exact (rootCount_eq_zero_iff.mp h) _ (slot_pos _ _) hh.slot_lt
  · rfl

theorem children_of_childRefs_zero (h : t.childRefs = 0) (b : Byte) : t.children b = none := by
  rw [ht.ok.childRefs_eq, childCount, card_eq_zero, filter_eq_empty_iff] at h
  have := h (mem_range.mpr b.isLt)
  simpa using this

/-- The child taken from a table of one child is the only one. -/
theorem takeFirstChild_of_one (h : t.childRefs = 1) :
    ∃ b c, t.takeFirstChild = .ok c ∧ t.children b = some c ∧ ∀ a, a ≠ b → t.children a = none := by
  rw [ht.ok.childRefs_eq, childCount, card_eq_one] at h
  obtain ⟨i, hi⟩ := h
  have hmem : ∀ b : Byte, (t.children b).isSome ↔ b.toNat = i := by
    intro b
    have := Finset.ext_iff.mp hi b.toNat
    have hlt : b.toNat < 256 := b.isLt
    simpa [hlt] using this
  have hi256 : i < 256 := by
    have := (Finset.ext_iff.mp hi i).mpr (Finset.mem_singleton_self i)
    exact mem_range.mp (mem_filter.mp this).1
  have hself : (BitVec.ofNat 8 i).toNat = i := by
    rw [BitVec.toNat_ofNat, Nat.mod_eq_of_lt (by simpa using hi256)]
  obtain ⟨c, hc⟩ := isSome_iff_exists.mp ((hmem _).mpr hself)
  refine ⟨BitVec.ofNat 8 i, c, ?_, hc, fun a hab => ?_⟩
  · unfold takeFirstChild
    cases hf : (List.range 256).findSome? fun i => t.children (BitVec.ofNat 8 i) with
    | none =>
      rw [List.findSome?_eq_none_iff] at hf
      have := hf i (List.mem_range.mpr hi256)
      rw [hc] at this
      cases this
    | some d =>
      obtain ⟨k, hk, hd⟩ := List.exists_of_findSome?_eq_some hf
      have hk256 : k < 256 := List.mem_range.mp hk
      have hki := (hmem (BitVec.ofNat 8 k)).mp (by rw [hd]; rfl)
      rw [BitVec.toNat_ofNat, Nat.mod_eq_of_lt (by simpa using hk256)] at hki
      rw [hki, hc] at hd
      rw [some.inj hd]
  · by_contra hne
    have := (hmem a).mp (isSome_iff_ne_none.mpr hne)
    apply hab
    rw [← BitVec.toNat_inj, hself, this]

theorem find_of_sole_child (h : t.routeRefs = 0) (hb : t.children b = some c)
    (hother : ∀ a, a ≠ b → t.children a = none) (hq : q.isIpv6 = fam) : find c q = find t q := by
  have hcb := ht.child_bits hb
  by_cases hle : q.bits ≤ t.pfx.bits + 8
  · rw [find_of_no_routes ht h hle, find_eq_none_of_short (ht.sub hb) hq (by omega) (by omega)]
  · cases hf : find c q with
    | some r => exact (find_of_child ht hb hq hf).symm
    | none =>
      rw [find_of_gt (by omega)]
      by_cases hqb : q.byteAt (t.pfx.bits / 8) = b
      · rw [hqb, hb, findChild_some (ht.sub hb) hq, hf]
      · rw [hother _ hqb]
        rfl

theorem find_putChild_same (hb : t.children b = some c) {d : Option StrideTable}
    (hq : q.isIpv6 = fam) (hd : findChild d q = find c q) : find (t.putChild b d) q = find t q := by
  by_cases hle : q.bits ≤ t.pfx.bits + 8
  · exact find_putChild_of_le hle
  · rw [find_putChild_of_gt (by omega)]
    split_ifs with hqb
    · rw [find_of_gt (by omega), hqb, hb, findChild_some (ht.sub hb) hq, hd]
    · rfl

end

theorem Wf.deleteChild (h : Wf fam t) (hb : (t.children b).isSome) : Wf fam (t.deleteChild b) := by
  have hself : (t.deleteChild b).children b = none := putChild_children_self t b none
  have hne : ∀ a, a ≠ b → (t.deleteChild b).children a = t.children a :=
    fun a hab => putChild_children_of_ne t _ hab
  have hcount : t.childCount = (t.deleteChild b).childCount + 1 :=
    childCount_add hself hb fun a hab => (hne a hab).symm
  refine h.setSlot rfl rfl rfl b hne (fun c hc => ?_) ?_
  · rw [hself] at hc
    cases hc
  · have hrefs : (t.deleteChild b).childRefs = t.childRefs - 1 := by
      simp [StrideTable.deleteChild, hb]
    rw [hrefs, h.ok.childRefs_eq]
    omega

/-- The clean-up along an occupied path succeeds and keeps every route. -/
theorem cleanEmptyStrides_spec (path : List Byte) : ∀ t : StrideTable, Wf fam t →
    PathOk t path → ∃ t', cleanEmptyStrides t path = .ok t' ∧ Wf fam t' ∧ t'.pfx = t.pfx ∧
      ∀ q : IpPrefix, q.isIpv6 = fam → find t' q = find t q := by
  induction path with
  | nil => exact fun t ht _ => ⟨t, rfl, ht, rfl, fun _ _ => rfl⟩
  | cons b rest ih =>
    rintro t ht ⟨c, hc, hrest⟩
    have hcw := ht.sub hc
    obtain ⟨c', hrun, hw, hpfx, hfind⟩ := ih c hcw hrest
    have hu : Under t.pfx b c'.pfx := hpfx ▸ ht.under hc
    set t1 := t.putChild b (some c') with ht1
    have hw1 : Wf fam t1 := ht.putChild (by rw [hc]; rfl) hu hw
    have hslot : t1.children b = some c' := putChild_children_self t b (some c')
    have hf1 : ∀ q : IpPrefix, q.isIpv6 = fam → find t1 q = find t q := fun q hq =>
      find_putChild_same ht hc hq (by rw [findChild_some hw hq, hfind q hq])
    have hstep : cleanEmptyStrides t (b :: rest) =
        if c'.routeRefs ≠ 0 ∨ c'.childRefs > 1 then .ok t1
        else if c'.childRefs = 0 then .ok (t1.deleteChild b)
        else c'.takeFirstChild >>= fun d => .ok (t1.setChild b d) := by
      rw [cleanEmptyStrides, hc]
      simp only [hrun]
      rfl
    rw [hstep]
    split_ifs with hkeep hempty
    · exact ⟨t1, rfl, hw1, rfl, hf1⟩
    · refine ⟨t1.deleteChild b, rfl, hw1.deleteChild (by rw [hslot]; rfl), rfl, fun q hq => ?_⟩
      have hnone : find c' q = none := by
        by_cases hle : q.bits ≤ c'.pfx.bits + 8
        · exact find_of_no_routes hw (by omega) hle
        · rw [find_of_gt (by omega), children_of_childRefs_zero hw hempty]
          rfl
      rw [← hf1 q hq, find_congr (t := t1.putChild b none) (u := t1.deleteChild b) rfl rfl rfl]
      exact find_putChild_same hw1 hslot hq hnone.symm
    · obtain ⟨a, d, htake, hd, hother⟩ := takeFirstChild_of_one hw (by omega)
      have hud := hw.under hd
      have hbits := hw1.child_bits hslot
      have hsame : t1.setChild b d = t1.putChild b (some d) := by
        simp [setChild, hslot, putChild]
      have halt := ht.ok.aligned
      have hudt : Under t.pfx b d.pfx := by
        refine ⟨hu.bits_lt.trans hud.bits_lt, hu.agree.trans (hud.agree.mono hu.bits_lt.le), ?_⟩
        rw [← hu.byte]
        have hbits' : t.pfx.bits + 8 ≤ c'.pfx.bits := hbits
        exact (hud.agree.octet (by omega)).symm
      refine ⟨t1.setChild b d, by rw [htake]; rfl, ?_, rfl, fun q hq => ?_⟩
      · rw [hsame]
        exact hw1.putChild (by rw [hslot]; rfl) hudt (hw.sub hd)
      · rw [hsame, ← hf1 q hq]
        refine find_putChild_same hw1 hslot hq ?_
        rw [findChild_some (hw.sub hd) hq]
        exact find_of_sole_child hw (by omega) hd hother hq

/-- Deletion from the root, with the empty strides pruned. -/
theorem deleteFrom_deleted (ht : Wf fam t) (h0 : t.pfx.bits = 0) (hp : p.Normal)
    (hpf : p.isIpv6 = fam) (hr : find t p = some r) :
    ∃ t', deleteFrom t p = .ok (t', some r) ∧ Deleted fam p t t' := by
  unfold deleteFrom
  split_ifs with hz
  · have hhome : AtHome t.pfx p := ⟨(find_contains ht hpf hr).1, by omega, Or.inr ⟨h0, hz⟩⟩
    obtain ⟨t', hdel, hspec⟩ := delete_atHome ht hp hpf hhome hr
    rw [hp.byteAt_zero hz, hz, Nat.zero_sub] at hdel
    refine ⟨t', ?_, hspec⟩
    rw [hdel]
    rfl
  · obtain ⟨t1, path, hrun, hdel, hpath⟩ := deleteDescend_deleted hp hpf t ht (by omega) hr
    obtain ⟨t', hclean, hw, hpfx, hfind⟩ := cleanEmptyStrides_spec path t1 hdel.wf hpath
    refine ⟨t', ?_, hw, hpfx.trans hdel.pfx, fun q hq hqf => ?_⟩
    · rw [h0] at hrun
      have hrun' : deleteDescend p t 0 p.bits = .ok (some (t1, path, r)) := hrun
      rw [hrun']
      simp only [bind, Except.bind, hclean]
      rfl
    · rw [hfind q hqf, hdel.find_eq q hq hqf]

end Rustscale.Art
