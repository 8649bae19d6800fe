import Rustscale.Art.Refinement

/-! IP-in-prefix-set predicates: every representation answers as the list of prefixes does. -/
namespace Rustscale.Ipset
open IpAddr Art List

abbrev SetPrefix := {p : IpPrefix // p.Valid}

def SetPrefix.new (addr : IpAddr) (bits : ℕ) : Option SetPrefix :=
  if h : bits ≤ addr.bitLen then some ⟨⟨addr, bits⟩, h⟩ else none

def SetPrefix.host (addr : IpAddr) : SetPrefix := ⟨⟨addr, addr.bitLen⟩, Nat.le_refl _⟩

def isSingleIp (p : SetPrefix) : Bool := p.val.bits == if p.val.addr.isIpv4 then 32 else 128

/-- The representation of a set. A hash set of addresses is the list of them. -/
inductive Strategy where
  | empty
  | onePrefix (p : SetPrefix)
  | linear (ps : List SetPrefix)
  | table (t : Table Unit)
  | oneIp (first : IpAddr)
  | twoIp (first second : IpAddr)
  | ipMap (ips : List IpAddr)

def Strategy.contains (ip : IpAddr) : Strategy → Except Panic Bool
  | .empty => .ok false
  | .onePrefix p => .ok (p.val.contains ip)
  | .linear ps => .ok (ps.any fun p => p.val.contains ip)
  | .table t => do
    let value ← t.get ip
    pure value.isSome
  | .oneIp first => .ok (ip == first)
  | .twoIp first second => .ok (ip == first || ip == second)
  | .ipMap ips => .ok (ips.contains ip)

def insertAll (t : Table Unit) : List SetPrefix → Except Panic (Table Unit)
  | [] => .ok t
  | p :: ps => do
    let (t, _) ← t.insert p.val ()
    insertAll t ps

def newContainsIpFunc (ps : List SetPrefix) : Except Panic Strategy :=
  if ps.isEmpty then .ok .empty
  else if ps.any fun p => !isSingleIp p then
    match ps with
    | [p] => .ok (.onePrefix p)
    | ps =>
      if ps.length ≤ 6 then .ok (.linear ps)
      else do
        let t ← insertAll .new ps
        pure (.table t)
  else
    match ps with
    | [p] => .ok (.oneIp p.val.addr)
    | [p, q] => .ok (.twoIp p.val.addr q.val.addr)
    | ps => .ok (.ipMap (ps.map fun p => p.val.addr))

theorem isSingleIp_iff {p : SetPrefix} : isSingleIp p ↔ p.val.bits = p.val.addr.bitLen := by
  cases h : p.val.addr <;> simp [isSingleIp, h, isIpv4, isIpv6, bitLen, familyBits]

theorem contains_of_isSingleIp {p : SetPrefix} (h : isSingleIp p) (ip : IpAddr) :
    p.val.contains ip = (ip == p.val.addr) := by
  rw [Bool.eq_iff_iff, IpPrefix.contains_iff, isSingleIp_iff.mp h, beq_iff_eq]
  constructor
  · rintro ⟨hf, hagree⟩
    exact (IpAddr.ext_bit hf hagree).symm
  · rintro rfl
    exact ⟨rfl, Agree.refl _ _⟩

theorem insertAll_spec (ps : List SetPrefix) {t : Table Unit} (ht : t.Inv) :
    ∃ t', insertAll t ps = .ok t' ∧ t'.Inv ∧
      ∀ q, (t'.abs q).isSome ↔ (t.abs q).isSome ∨ ∃ p ∈ ps, p.val.masked = q := by
  induction ps generalizing t with
  | nil => exact ⟨t, rfl, ht, fun q => by simp⟩
  | cons p ps ih =>
    obtain ⟨t1, hrun, ht1, habs⟩ := ht.insert p.2 ()
    obtain ⟨t', hrun', ht', habs'⟩ := ih ht1
    refine ⟨t', by simp [insertAll, hrun, hrun', bind, Except.bind], ht', fun q => ?_⟩
    rw [habs', habs, exists_mem_cons_iff]
    simp only [RouteMap.insert]
    by_cases hq : q = p.val.masked
    · simp [hq]
    · simp [Function.update_of_ne hq, Ne.symm hq]

theorem masked_contains (p : IpPrefix) (ip : IpAddr) : p.masked.contains ip = p.contains ip := by
  rw [Bool.eq_iff_iff, IpPrefix.contains_iff, IpPrefix.contains_iff, IpPrefix.masked_isIpv6,
    IpPrefix.masked_bits]
  have hagree := p.masked_agree
  exact and_congr_right fun _ => ⟨fun h => hagree.symm.trans h, fun h => hagree.trans h⟩

/-- Each specialised lookup decides membership in the prefixes. -/
theorem newContainsIpFunc_spec (ps : List SetPrefix) : ∃ f, newContainsIpFunc ps = .ok f ∧
    ∀ ip, f.contains ip = .ok (ps.any fun p => p.val.contains ip) := by
  unfold newContainsIpFunc
  split_ifs with hempty hany
  · exact ⟨_, rfl, fun ip => by simp [Strategy.contains, isEmpty_iff.mp hempty]⟩
  · split
    · exact ⟨_, rfl, fun ip => by simp [Strategy.contains]⟩
    · split_ifs with hlen
      · exact ⟨_, rfl, fun ip => rfl⟩
      · obtain ⟨t, hrun, ht, habs⟩ := insertAll_spec ps Table.new_inv
        refine ⟨.table t, by simp [hrun, bind, Except.bind, pure, Except.pure], fun ip => ?_⟩
        obtain ⟨o, hget, hlong⟩ := ht.get ip
        have hiff : o.isSome = ps.any fun p => p.val.contains ip := by
          rw [Bool.eq_iff_iff, RouteMap.isLongestMatch_isSome hlong, any_eq_true]
          constructor
          · rintro ⟨q, hq, hsome⟩
            rw [habs, Table.new_abs] at hsome
            obtain ⟨p, hp, rfl⟩ := hsome.resolve_left (by simp [RouteMap.empty])
            exact ⟨p, hp, by rwa [masked_contains] at hq⟩
          · rintro ⟨p, hp, hc⟩
            exact ⟨p.val.masked, by rwa [masked_contains], (habs _).mpr (Or.inr ⟨p, hp, rfl⟩)⟩
        simp [Strategy.contains, hget, bind, Except.bind, pure, Except.pure, hiff]
  · have hall : ∀ p ∈ ps, isSingleIp p := by simpa using hany
    have hscan : ∀ ip, (ps.any fun p => p.val.contains ip) =
        ps.any fun p => ip == p.val.addr := fun ip => by
      rw [Bool.eq_iff_iff, any_eq_true, any_eq_true]
      exact exists_congr fun p => and_congr_right fun hp => by
        rw [contains_of_isSingleIp (hall p hp)]
    simp only [hscan]
    split
    iterate 2 · exact ⟨_, rfl, fun ip => by simp [Strategy.contains]⟩
    · refine ⟨_, rfl, fun ip => ?_⟩
      simp only [Strategy.contains, Except.ok.injEq]
      rw [Bool.eq_iff_iff, any_eq_true, contains_iff_mem, mem_map]
      exact exists_congr fun p => and_congr_right fun _ => by rw [beq_iff_eq, eq_comm]

end Rustscale.Ipset
