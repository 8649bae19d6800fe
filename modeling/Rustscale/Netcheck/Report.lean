import Rustscale.Udprelay.Server
import Std.Data.TreeMap.Lemmas

/-! The report of a netcheck: what it says about the probes that were answered. -/
namespace Rustscale.Netcheck
open List Std Option TreeMap
open Udprelay (SocketAddr)

inductive ProbeProto where
  | v4
  | v6
  deriving DecidableEq

/-- An answer to a STUN probe. -/
structure ProbeOutcome where
  regionId : ℤ
  proto : ProbeProto
  latency : ℕ
  reflexive : SocketAddr

abbrev Latencies := TreeMap ℤ ℕ

/-- The report of a check, with the defaults that hold without any answer. -/
structure Report where
  udp : Bool := false
  ipv4 : Bool := false
  ipv6 : Bool := false
  icmpv4 : Bool := false
  mappingVariesByDestIp : Option Bool := none
  preferredDerp : ℤ := 0
  regionLatency : Latencies := ∅
  regionV4Latency : Latencies := ∅
  regionV6Latency : Latencies := ∅
  globalV4 : Option SocketAddr := none
  globalV6 : Option SocketAddr := none

def updateLatency (m : Latencies) (regionId : ℤ) (latency : ℕ) : Latencies :=
  m.alter regionId fun
    | some prev => some (if latency < prev then latency else prev)
    | none => some latency

def Report.updateLatencies (r : Report) (regionId : ℤ) (proto : ProbeProto) (latency : ℕ) :
    Report :=
  let r := { r with regionLatency := updateLatency r.regionLatency regionId latency }
  match proto with
  | .v4 => { r with
      regionV4Latency := updateLatency r.regionV4Latency regionId latency, ipv4 := true }
  | .v6 => { r with
      regionV6Latency := updateLatency r.regionV6Latency regionId latency, ipv6 := true }

/-- The body of the loop of `applyOutcomes`, with the first IPv4 address seen. -/
def applyOutcome : Option SocketAddr × Report → ProbeOutcome → Option SocketAddr × Report
  | (firstV4, r), o =>
    let r := { r with udp := true }.updateLatencies o.regionId o.proto o.latency
    match o.reflexive, o.proto with
    | .v4 .., .v4 =>
      match firstV4 with
      | none => (some o.reflexive, { r with globalV4 := some o.reflexive })
      | some prev =>
        let varies := if prev ≠ o.reflexive then some true
          else r.mappingVariesByDestIp.or (some false)
        (firstV4, { r with mappingVariesByDestIp := varies })
    | .v6 .., .v6 => (firstV4, { r with globalV6 := r.globalV6.or (some o.reflexive) })
    | _, _ => (firstV4, r)

def applyOutcomes (r : Report) (outcomes : List ProbeOutcome) : Report :=
  (outcomes.foldl applyOutcome (none, r)).2

/-- The region of the least latency, the first one in the order of the regions. -/
def pickPreferred (m : Latencies) : ℤ := ((m.toList.argmin Prod.snd).map Prod.fst).getD 0

/-- Ten milliseconds. -/
def preferredDerpAbsoluteDiff : ℕ := 10000000

def pickWithHysteresis (m : Latencies) (previous : ℤ) : ℤ :=
  let best := pickPreferred m
  if best = 0 then previous
  else if previous = 0 ∨ best = previous then best
  else match m[best]?, m[previous]? with
    | some bestD, some prevD =>
      if prevD ≤ bestD + preferredDerpAbsoluteDiff then previous else best
    | _, _ => best

/-- The answers to the ICMP probes are asked for only if no STUN probe was answered. -/
def runInner (outcomes : List ProbeOutcome) (icmp : List (ℤ × ℕ)) (previous : ℤ) : Report :=
  let r := applyOutcomes {} outcomes
  let r := if r.udp then r
    else icmp.foldl (fun r (regionId, latency) =>
      { r.updateLatencies regionId .v4 latency with icmpv4 := true }) r
  { r with preferredDerp := pickWithHysteresis r.regionLatency previous }

def minima (samples : List (ℤ × ℕ)) : Latencies :=
  samples.foldl (fun m s => updateLatency m s.1 s.2) ∅

variable {m : Latencies} {samples : List (ℤ × ℕ)} {outcomes : List ProbeOutcome}
  {icmp : List (ℤ × ℕ)} {region previous : ℤ} {d : ℕ}

theorem minima_concat (s : ℤ × ℕ) :
    minima (samples ++ [s]) = updateLatency (minima samples) s.1 s.2 := by
  simp [minima]

/-- The map has the least latency observed of each region. -/
def Lowest (samples : List (ℤ × ℕ)) (m : Latencies) : Prop :=
  ∀ (region : ℤ) (d : ℕ), m[region]? = some d ↔ IsLeast {l | (region, l) ∈ samples} d

/-- The fold keeps the lowest sample of each region. -/
theorem minima_lowest (samples : List (ℤ × ℕ)) : Lowest samples (minima samples) := by
  induction samples using reverseRecOn with
  | nil => simp [Lowest, minima, IsLeast]
  | append_singleton samples s ih =>
    obtain ⟨r, l⟩ := s
    intro region d
    simp only [minima_concat, updateLatency, getElem?_alter, LawfulEqCmp.compare_eq_iff_eq]
    split_ifs with hr
    · subst hr
      have hset : {x | (r, x) ∈ samples ++ [(r, l)]} = insert l {x | (r, x) ∈ samples} := by
        ext x
        simp [or_comm]
      -- the latency kept is the least of the set with the new one
      have hkept {v : ℕ} (h : IsLeast (insert l {x | (r, x) ∈ samples}) v) :
          v = d ↔ IsLeast (insert l {x | (r, x) ∈ samples}) d :=
        ⟨fun hv => hv ▸ h, h.unique⟩
      rw [hset]
      cases hm : (minima samples)[r]? with
      | none =>
        have hnone : {x | (r, x) ∈ samples} = ∅ := by
          by_contra hne
          have hex : ∃ x, (r, x) ∈ samples := Set.nonempty_iff_ne_empty.mpr hne
          rw [(ih r _).mpr ⟨Nat.find_spec hex, fun _ => Nat.find_min' hex⟩] at hm
          cases hm
        rw [some_inj, hkept (by simp [hnone])]
      | some prev => rw [some_inj, ← min_def_lt, hkept (((ih r prev).mp hm).insert l)]
    · rw [ih region d]
      simp [Ne.symm hr]

/-- A region measured within the given difference of the best one. -/
def Within (m : Latencies) (diff : ℕ) (region : ℤ) : Prop :=
  ∃ d, m[region]? = some d ∧ ∀ (r : ℤ) (d' : ℕ), m[r]? = some d' → d ≤ d' + diff

theorem Within.mono {diff : ℕ} (h : Within m 0 region) : Within m diff region := by
  obtain ⟨d, hd, hle⟩ := h
  exact ⟨d, hd, fun r d' h' => (hle r d' h').trans (Nat.le_add_right _ _)⟩

theorem pickPreferred_spec (m : Latencies) :
    (∀ r : ℤ, m[r]? = none) ∧ pickPreferred m = 0 ∨ Within m 0 (pickPreferred m) := by
  rw [pickPreferred]
  cases h : m.toList.argmin Prod.snd with
  | none =>
    refine .inl ⟨fun r => eq_none_iff_forall_ne_some.mpr fun d hd => ?_, rfl⟩
    have hmem := mem_toList_iff_getElem?_eq_some.mpr hd
    rw [argmin_eq_none.mp h] at hmem
    cases hmem
  | some best =>
    refine .inr ⟨best.2, mem_toList_iff_getElem?_eq_some.mp (argmin_mem h), fun r d' h' => ?_⟩
    exact le_of_mem_argmin (mem_toList_iff_getElem?_eq_some.mpr h') h

/-- The previous region is near the best one, or none was measured. -/
def Stays (m : Latencies) (previous : ℤ) : Prop :=
  Within m preferredDerpAbsoluteDiff previous ∨ ∀ r : ℤ, m[r]? = none

def Preferred (m : Latencies) (previous region : ℤ) : Prop :=
  (Stays m previous → region = previous) ∧ (¬Stays m previous → Within m 0 region)

/-- The number zero stands for no region, so a region of that number is not told from none. -/
theorem pickWithHysteresis_iff : Preferred m previous (pickWithHysteresis m previous) ↔
    (pickPreferred m = 0 → Stays m previous) ∧
      (previous = 0 → Within m preferredDerpAbsoluteDiff 0 → pickPreferred m = 0) := by
  have hspec := pickPreferred_spec m
  simp only [Preferred, Stays, pickWithHysteresis]
  generalize pickPreferred m = best at hspec ⊢
  obtain ⟨hnone, rfl⟩ | hbest := hspec
  · simp [hnone]
  · have hnear : Within m preferredDerpAbsoluteDiff best := hbest.mono
    obtain ⟨d, hd, hle⟩ := id hbest
    have hsome : ¬∀ r : ℤ, m[r]? = none := fun h => by simp [h] at hd
    have hmono : Within m 0 previous → Within m preferredDerpAbsoluteDiff previous := Within.mono
    simp only [hsome, or_false]
    split_ifs with hzero hkeep
    · tauto
    · rcases hkeep with rfl | rfl <;> tauto
    · have hprev : Within m preferredDerpAbsoluteDiff previous ↔
          ∃ d', m[previous]? = some d' ∧ d' ≤ d + preferredDerpAbsoluteDiff := by
        refine exists_congr fun d' => and_congr_right fun _ =>
          ⟨fun h => h best d hd, fun h r e he => ?_⟩
        have := hle r e he
        omega
      rw [hd, hprev]
      cases hm : m[previous]? with
      | none => simp [hzero, (not_or.mp hkeep).1, hbest]
      | some d' =>
        by_cases hd' : d' ≤ d + preferredDerpAbsoluteDiff <;>
          simp [hd', hzero, (not_or.mp hkeep).1, hbest]

/-- An answer of the family with an address of the same family in it. -/
def ProbeOutcome.isOf : ProbeProto → ProbeOutcome → Bool
  | .v4, ⟨_, .v4, _, .v4 ..⟩ | .v6, ⟨_, .v6, _, .v6 ..⟩ => true
  | _, _ => false

def ProbeOutcome.sample (o : ProbeOutcome) : ℤ × ℕ := (o.regionId, o.latency)

def samplesOf (proto : ProbeProto) (outcomes : List ProbeOutcome) : List (ℤ × ℕ) :=
  (outcomes.filter (·.proto = proto)).map (·.sample)

def outcomesOf (proto : ProbeProto) (outcomes : List ProbeOutcome) : List ProbeOutcome :=
  outcomes.filter (·.isOf proto)

def addrsOf (proto : ProbeProto) (outcomes : List ProbeOutcome) : List SocketAddr :=
  (outcomesOf proto outcomes).map (·.reflexive)

/-- Whether the addresses differ, unless there are fewer than two. -/
def varies : List SocketAddr → Option Bool
  | [] | [_] => none
  | a :: rest => some (rest.any (· ≠ a))

/-- What a report says about the outcomes and the ICMP answers taken into it. -/
structure Reported (outcomes : List ProbeOutcome) (icmp : List (ℤ × ℕ)) (r : Report) : Prop where
  udp : r.udp = !outcomes.isEmpty
  icmpv4 : r.icmpv4 = !icmp.isEmpty
  ipv4 : r.ipv4 = (outcomes.any (·.proto = .v4) || !icmp.isEmpty)
  ipv6 : r.ipv6 = outcomes.any (·.proto = .v6)
  latency : r.regionLatency = minima (outcomes.map (·.sample) ++ icmp)
  v4Latency : r.regionV4Latency = minima (samplesOf .v4 outcomes ++ icmp)
  v6Latency : r.regionV6Latency = minima (samplesOf .v6 outcomes)
  globalV4 : r.globalV4 = (addrsOf .v4 outcomes).head?
  globalV6 : r.globalV6 = (addrsOf .v6 outcomes).head?
  mapping : r.mappingVariesByDestIp = varies (addrsOf .v4 outcomes)

theorem varies_concat {first b : SocketAddr} {rest : List SocketAddr} :
    varies (first :: (rest ++ [b])) = if first ≠ b then some true
      else (varies (first :: rest)).or (some false) := by
  by_cases h : first = b
  · cases rest <;> simp [varies, h]
  · cases rest <;> simp [varies, h, Ne.symm h]

theorem addrsOf_concat (proto : ProbeProto) (seen : List ProbeOutcome) (o : ProbeOutcome) :
    addrsOf proto (seen ++ [o]) =
      addrsOf proto seen ++ if o.isOf proto then [o.reflexive] else [] := by
  cases h : o.isOf proto <;> simp [addrsOf, outcomesOf, h]

theorem Reported.applyOutcome {seen : List ProbeOutcome} {r : Report} (h : Reported seen [] r)
    (o : ProbeOutcome) :
    let x := applyOutcome ((addrsOf .v4 seen).head?, r) o
    x.1 = (addrsOf .v4 (seen ++ [o])).head? ∧ Reported (seen ++ [o]) [] x.2 := by
  obtain ⟨region, proto, latency, reflexive⟩ := o
  obtain ⟨hudp, hicmp, hipv4, hipv6, hlatency, hv4, hv6, hglobal, hglobal6, hmapping⟩ := h
  generalize haddrs : addrsOf .v4 seen = addrs at hglobal hmapping ⊢
  cases proto <;> cases reflexive <;> cases addrs <;> refine ⟨?_, ?_⟩ <;> try constructor
  all_goals simp_all [Netcheck.applyOutcome, Report.updateLatencies, samplesOf,
    ProbeOutcome.sample, addrsOf_concat, ProbeOutcome.isOf, minima_concat, varies_concat]
  all_goals rfl

theorem applyOutcomes_reported (outcomes : List ProbeOutcome) :
    Reported outcomes [] (applyOutcomes {} outcomes) := by
  have h : (outcomes.foldl applyOutcome (none, {})).1 = (addrsOf .v4 outcomes).head? ∧
      Reported outcomes [] (applyOutcomes {} outcomes) := by
    induction outcomes using reverseRecOn with
    | nil => exact ⟨rfl, rfl, rfl, rfl, rfl, rfl, rfl, rfl, rfl, rfl, rfl⟩
    | append_singleton outcomes o ih =>
      obtain ⟨hfirst, ih⟩ := ih
      have hstep := ih.applyOutcome o
      rw [← hfirst] at hstep
      simpa [applyOutcomes] using hstep
  exact h.2

/-- The answers to ICMP probes that are taken into the report. -/
def icmpTaken (outcomes : List ProbeOutcome) (icmp : List (ℤ × ℕ)) : List (ℤ × ℕ) :=
  if outcomes = [] then icmp else []

theorem runInner_reported (outcomes : List ProbeOutcome) (icmp : List (ℤ × ℕ)) (previous : ℤ) :
    Reported outcomes (icmpTaken outcomes icmp) (runInner outcomes icmp previous) := by
  have h := applyOutcomes_reported outcomes
  cases outcomes with
  | nil =>
    have h : Reported [] icmp (icmp.foldl (fun r (regionId, latency) =>
        { r.updateLatencies regionId .v4 latency with icmpv4 := true }) {}) := by
      induction icmp using reverseRecOn with
      | nil => exact h
      | append_singleton icmp s ih =>
        obtain ⟨hudp, hicmp, hipv4, hipv6, hlatency, hv4, hv6, hglobal, hglobal6, hmapping⟩ := ih
        rw [foldl_concat]
        constructor <;> simp_all [Report.updateLatencies, samplesOf, minima_concat]
    exact { h with }
  | cons o outcomes =>
    rw [runInner, h.udp]
    exact { h with }

/-- What a report is to say about the probes that were answered. -/
structure Faithful (outcomes : List ProbeOutcome) (icmp : List (ℤ × ℕ)) (previous : ℤ)
    (r : Report) : Prop where
  globalV4 : r.globalV4 = none ∧ outcomesOf .v4 outcomes = [] ∨ ∃ o ∈ outcomesOf .v4 outcomes,
    r.globalV4 = some o.reflexive ∧ ∀ o' ∈ outcomesOf .v4 outcomes, o.latency ≤ o'.latency
  mapping : r.mappingVariesByDestIp = varies (addrsOf .v4 outcomes)
  ipv4 : r.ipv4 = true ↔ ∃ o ∈ outcomes, o.proto = .v4
  ipv6 : r.ipv6 = true ↔ ∃ o ∈ outcomes, o.proto = .v6
  latency : Lowest (outcomes.map (·.sample) ++ icmpTaken outcomes icmp) r.regionLatency
  v4Latency : Lowest (samplesOf .v4 outcomes ++ icmpTaken outcomes icmp) r.regionV4Latency
  v6Latency : Lowest (samplesOf .v6 outcomes) r.regionV6Latency
  preferred : Preferred r.regionLatency previous r.preferredDerp

/-- When the report says what the probes measured. -/
theorem faithful_iff : Faithful outcomes icmp previous (runInner outcomes icmp previous) ↔
    (∀ o ∈ (outcomesOf .v4 outcomes).head?, ∃ o' ∈ outcomesOf .v4 outcomes,
      o'.reflexive = o.reflexive ∧ ∀ o'' ∈ outcomesOf .v4 outcomes, o'.latency ≤ o''.latency) ∧
    (outcomes = [] → icmp = []) ∧
    let m := minima (outcomes.map (·.sample) ++ icmpTaken outcomes icmp)
    (pickPreferred m = 0 → Stays m previous) ∧
      (previous = 0 → Within m preferredDerpAbsoluteDiff 0 → pickPreferred m = 0) := by
  have h := runInner_reported outcomes icmp previous
  have hpreferred : (runInner outcomes icmp previous).preferredDerp =
      pickWithHysteresis (runInner outcomes icmp previous).regionLatency previous := rfl
  rw [← pickWithHysteresis_iff, ← h.latency, ← hpreferred]
  have hglobal := h.globalV4
  rw [addrsOf, head?_map] at hglobal
  constructor
  · intro hf
    refine ⟨fun o ho => ?_, fun hnil => ?_, hf.preferred⟩
    · rw [mem_def.mp ho] at hglobal
      obtain ⟨hnone, -⟩ | ⟨o', ho', heq, hle⟩ := hf.globalV4
      · simp [hnone] at hglobal
      · exact ⟨o', ho', mem_unique heq hglobal, hle⟩
    · have hipv4 := hf.ipv4
      rw [h.ipv4, hnil] at hipv4
      simpa [icmpTaken] using hipv4
  · rintro ⟨hfirst, hicmp, hpref⟩
    have hnone : icmpTaken outcomes icmp = [] := by
      rw [icmpTaken]
      split_ifs with hnil
      · exact hicmp hnil
      · rfl
    refine ⟨?_, h.mapping, by simp [h.ipv4, hnone], by simp [h.ipv6],
      h.latency ▸ minima_lowest _, h.v4Latency ▸ minima_lowest _, h.v6Latency ▸ minima_lowest _,
      hpref⟩
    cases hv4 : outcomesOf .v4 outcomes with
    | nil => exact .inl ⟨by rw [hglobal, hv4]; rfl, rfl⟩
    | cons o rest =>
      rw [hv4] at hglobal hfirst
      obtain ⟨o', ho', heq, hle⟩ := hfirst o rfl
      exact .inr ⟨o', ho', by rw [hglobal, heq]; rfl, hle⟩

/-- The same report, up to how the maps of latencies are built. -/
structure Report.Same (r r' : Report) : Prop where
  udp : r.udp = r'.udp
  ipv4 : r.ipv4 = r'.ipv4
  ipv6 : r.ipv6 = r'.ipv6
  icmpv4 : r.icmpv4 = r'.icmpv4
  mapping : r.mappingVariesByDestIp = r'.mappingVariesByDestIp
  preferred : r.preferredDerp = r'.preferredDerp
  latency : r.regionLatency.Equiv r'.regionLatency
  v4Latency : r.regionV4Latency.Equiv r'.regionV4Latency
  v6Latency : r.regionV6Latency.Equiv r'.regionV6Latency
  globalV4 : r.globalV4 = r'.globalV4
  globalV6 : r.globalV6 = r'.globalV6

/-- The report does not depend on the order in which the answers came. -/
def OrderIndependent (outcomes : List ProbeOutcome) (icmp : List (ℤ × ℕ)) (previous : ℤ) : Prop :=
  ∀ outcomes' icmp', outcomes' ~ outcomes → icmp' ~ icmp →
    (runInner outcomes' icmp' previous).Same (runInner outcomes icmp previous)

def Agree (addrs : List SocketAddr) : Prop := ∀ a ∈ addrs, ∀ b ∈ addrs, a = b

theorem minima_equiv {samples' : List (ℤ × ℕ)} (h : samples ~ samples') :
    (minima samples).Equiv (minima samples') :=
  .of_forall_constGet?_eq fun r => Option.ext fun d => by
    rw [minima_lowest samples r d, minima_lowest samples' r d]
    simp only [h.mem_iff]

theorem pickWithHysteresis_equiv {m' : Latencies} (h : m.Equiv m') :
    pickWithHysteresis m previous = pickWithHysteresis m' previous := by
  have hbest : pickPreferred m = pickPreferred m' := by rw [pickPreferred, h.toList_eq]; rfl
  rw [pickWithHysteresis, hbest, h.getElem?_eq, h.getElem?_eq]
  rfl

theorem Agree.varies_eq {addrs : List SocketAddr} (h : Agree addrs) :
    varies addrs = if addrs.length < 2 then none else some false := by
  match addrs with
  | [] | [_] => rfl
  | a :: b :: rest =>
    have hrest : ∀ c ∈ b :: rest, c = a := fun c hc => h c (.tail _ hc) a (.head _)
    simpa [varies] using hrest

/-- The first address is the same in every order exactly if all are the same. -/
theorem agree_iff_head (proto : ProbeProto) : Agree (addrsOf proto outcomes) ↔
    ∀ outcomes', outcomes' ~ outcomes →
      (addrsOf proto outcomes').head? = (addrsOf proto outcomes).head? := by
  constructor
  · intro hagree outcomes' hperm
    have haddrs : addrsOf proto outcomes' ~ addrsOf proto outcomes := (hperm.filter _).map _
    cases h : addrsOf proto outcomes' with
    | nil => rw [h] at haddrs; rw [haddrs.nil_eq]
    | cons a rest =>
      cases h' : addrsOf proto outcomes with
      | nil => rw [h, h'] at haddrs; cases haddrs.eq_nil
      | cons b rest' =>
        have ha : a ∈ addrsOf proto outcomes := haddrs.subset (by simp [h])
        have hb : b ∈ addrsOf proto outcomes := by simp [h']
        rw [head?_cons, head?_cons, hagree a ha b hb]
  · -- any outcome of the family can come first
    intro hhead
    have hfirst : ∀ a ∈ addrsOf proto outcomes, (addrsOf proto outcomes).head? = some a := by
      intro a ha
      obtain ⟨o, ho, rfl⟩ := mem_map.mp ha
      obtain ⟨hmem, hproto⟩ := mem_filter.mp ho
      obtain ⟨before, after, rfl⟩ := append_of_mem hmem
      rw [← hhead _ perm_middle.symm, addrsOf, outcomesOf, filter_cons_of_pos hproto, map_cons,
        head?_cons]
    exact fun a ha b hb => some.inj ((hfirst a ha).symm.trans (hfirst b hb))

theorem icmpTaken_perm {outcomes' : List ProbeOutcome} {icmp' : List (ℤ × ℕ)}
    (h : outcomes' ~ outcomes) (hicmp : icmp' ~ icmp) :
    icmpTaken outcomes' icmp' ~ icmpTaken outcomes icmp := by
  have hnil : outcomes' = [] ↔ outcomes = [] := by rw [← length_eq_zero_iff, h.length_eq,
    length_eq_zero_iff]
  simp only [icmpTaken, hnil]
  split_ifs
  · exact hicmp
  · rfl

/-- The order of the probes is irrelevant exactly when they agree on each address. -/
theorem orderIndependent_iff : OrderIndependent outcomes icmp previous ↔
    Agree (addrsOf .v4 outcomes) ∧ Agree (addrsOf .v6 outcomes) := by
  have hrun := runInner_reported outcomes icmp previous
  constructor
  · intro h
    simp only [agree_iff_head]
    constructor <;> intro outcomes' hperm
    · have hsame := (h outcomes' icmp hperm .rfl).globalV4
      rwa [hrun.globalV4, (runInner_reported outcomes' icmp previous).globalV4] at hsame
    · have hsame := (h outcomes' icmp hperm .rfl).globalV6
      rwa [hrun.globalV6, (runInner_reported outcomes' icmp previous).globalV6] at hsame
  · rintro ⟨hv4, hv6⟩ outcomes' icmp' hperm hicmp
    have hrun' := runInner_reported outcomes' icmp' previous
    have htaken := icmpTaken_perm hperm hicmp
    have haddrs : addrsOf .v4 outcomes' ~ addrsOf .v4 outcomes := (hperm.filter _).map _
    have hagree : Agree (addrsOf .v4 outcomes') := fun a ha b hb =>
      hv4 a (haddrs.subset ha) b (haddrs.subset hb)
    have hlatency : (runInner outcomes' icmp' previous).regionLatency.Equiv
        (runInner outcomes icmp previous).regionLatency := by
      rw [hrun.latency, hrun'.latency]
      exact minima_equiv ((hperm.map _).append htaken)
    constructor
    case latency => exact hlatency
    case preferred => exact pickWithHysteresis_equiv hlatency
    case mapping =>
      rw [hrun.mapping, hrun'.mapping, hv4.varies_eq, hagree.varies_eq, haddrs.length_eq]
    case v4Latency =>
      rw [hrun.v4Latency, hrun'.v4Latency]
      exact minima_equiv (((hperm.filter _).map _).append htaken)
    case v6Latency =>
      rw [hrun.v6Latency, hrun'.v6Latency]
      exact minima_equiv ((hperm.filter _).map _)
    case globalV4 =>
      rw [hrun.globalV4, hrun'.globalV4, (agree_iff_head .v4).mp hv4 outcomes' hperm]
    case globalV6 =>
      rw [hrun.globalV6, hrun'.globalV6, (agree_iff_head .v6).mp hv6 outcomes' hperm]
    case udp => rw [hrun.udp, hrun'.udp, hperm.isEmpty_eq]
    case icmpv4 => rw [hrun.icmpv4, hrun'.icmpv4, htaken.isEmpty_eq]
    case ipv4 => rw [hrun.ipv4, hrun'.ipv4, hperm.any_eq, htaken.isEmpty_eq]
    case ipv6 => rw [hrun.ipv6, hrun'.ipv6, hperm.any_eq]

/-- The report is faithful exactly if the first IPv4 address is also one of the least latency, no
ICMP answer stands in for STUN, and no region of number zero is in play. It is the same in every
order of the answers exactly if the addresses of each family agree. -/
theorem runInner_faithful_iff : (Faithful outcomes icmp previous (runInner outcomes icmp previous) ↔
    (∀ o ∈ (outcomesOf .v4 outcomes).head?, ∃ o' ∈ outcomesOf .v4 outcomes,
      o'.reflexive = o.reflexive ∧ ∀ o'' ∈ outcomesOf .v4 outcomes, o'.latency ≤ o''.latency) ∧
    (outcomes = [] → icmp = []) ∧
    let m := minima (outcomes.map (·.sample) ++ icmpTaken outcomes icmp)
    (pickPreferred m = 0 → Stays m previous) ∧
      (previous = 0 → Within m preferredDerpAbsoluteDiff 0 → pickPreferred m = 0)) ∧
    (OrderIndependent outcomes icmp previous ↔
      Agree (addrsOf .v4 outcomes) ∧ Agree (addrsOf .v6 outcomes)) :=
  ⟨faithful_iff, orderIndependent_iff⟩

/-- Of two addresses the first is reported, though the second one took less time; an ICMP answer
is reported as IPv4; a measured region of number zero is passed over; and of two addresses that
took the same time the report has the one that came first. -/
theorem first_address_reported :
    ¬Faithful [⟨1, .v4, 50, .v4 0x01020304 1⟩, ⟨2, .v4, 20, .v4 0x01020304 2⟩] [] 0
      (runInner [⟨1, .v4, 50, .v4 0x01020304 1⟩, ⟨2, .v4, 20, .v4 0x01020304 2⟩] [] 0) ∧
    ¬Faithful [] [(1, 20)] 0 (runInner [] [(1, 20)] 0) ∧
    ¬Faithful [⟨0, .v4, 20, .v4 0x01020304 1⟩] [] 5
      (runInner [⟨0, .v4, 20, .v4 0x01020304 1⟩] [] 5) ∧
    ¬OrderIndependent [⟨1, .v4, 20, .v4 0x01020304 1⟩, ⟨2, .v4, 20, .v4 0x01020304 2⟩] [] 0 := by
  refine ⟨fun h => ?_, fun h => ?_, fun h => ?_, fun h => ?_⟩
  · have hfirst := (faithful_iff.mp h).1 _ rfl
    simp [outcomesOf, ProbeOutcome.isOf] at hfirst
  · cases (faithful_iff.mp h).2.1 rfl
  · obtain ⟨d, hd, -⟩ | hnone := (faithful_iff.mp h).2.2.1 rfl
    · cases hd
    · cases hnone 0
  · have hagree := (orderIndependent_iff.mp h).1
    simp [Agree, addrsOf, outcomesOf, ProbeOutcome.isOf] at hagree

end Rustscale.Netcheck
