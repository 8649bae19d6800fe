import Rustscale.Art.Lookup

/-! The routing table refines the plain map from masked prefixes to values. -/
namespace Rustscale.Art
open IpAddr List AList Function IpPrefix

abbrev RouteMap (V : Type) : Type := IpPrefix → Option V

namespace RouteMap
variable {V : Type}

def empty : RouteMap V := fun _ => none

variable (m : RouteMap V)

def insert (p : IpPrefix) (v : V) : RouteMap V × Option V :=
  (update m p.masked (some v), m p.masked)

def delete (p : IpPrefix) : RouteMap V × Option V :=
  (update m p.masked none, m p.masked)

def exec : Op V → RouteMap V × Option V
  | .insert pfx value => m.insert pfx value
  | .delete pfx => m.delete pfx
  | .clear => (empty, none)

def run (m : RouteMap V) : List (Op V) → RouteMap V × List (Option V)
  | [] => (m, [])
  | op :: ops => (((m.exec op).1.run ops).1, (m.exec op).2 :: ((m.exec op).1.run ops).2)

/-- The value of the longest installed prefix that contains `a`, if there is one. -/
def IsLongestMatch (a : IpAddr) (o : Option V) : Prop :=
  match o with
  | none => ∀ q : IpPrefix, q.contains a = true → m q = none
  | some v => ∃ p : IpPrefix, p.Normal ∧ p.isIpv6 = a.isIpv6 ∧ p.contains a = true ∧
      m p = some v ∧ ∀ q : IpPrefix, q.contains a = true → p.bits < q.bits → m q = none

theorem IsLongestMatch.unique {m : RouteMap V} {a : IpAddr} {o o' : Option V}
    (h : m.IsLongestMatch a o) (h' : m.IsLongestMatch a o') : o = o' := by
  cases o with
  | none =>
    cases o' with
    | none => rfl
    | some v =>
      obtain ⟨p, -, -, hp, hv, -⟩ := h'
      rw [h p hp] at hv
      cases hv
  | some v =>
    obtain ⟨p, hn, hf, hp, hv, hmax⟩ := h
    cases o' with
    | none =>
      rw [h' p hp] at hv
      cases hv
    | some v' =>
      obtain ⟨p', hn', hf', hp', hv', hmax'⟩ := h'
      have hle : ¬ p.bits < p'.bits := fun hlt => by
        rw [hmax p' hp' hlt] at hv'
        cases hv'
      have hle' : ¬ p'.bits < p.bits := fun hlt => by
        rw [hmax' p hp hlt] at hv
        cases hv
      have hagree : Agree p.bits p.addr p'.addr :=
        ((contains_iff p a).mp hp).2.trans (((contains_iff p' a).mp hp').2.symm.mono (by omega))
      have hpp : p = p' := hn.ext hn' (hf.trans hf'.symm) (by omega) hagree
      rw [← hv, ← hv', hpp]

theorem isLongestMatch_isSome {m : RouteMap V} {a : IpAddr} {o : Option V}
    (h : m.IsLongestMatch a o) :
    o.isSome ↔ ∃ q : IpPrefix, q.contains a = true ∧ (m q).isSome := by
  cases o with
  | none =>
    simp only [Option.isSome_none, Bool.false_eq_true, false_iff, not_exists, not_and]
    intro q hq
    rw [h q hq]
    simp
  | some v =>
    obtain ⟨p, -, -, hp, hv, -⟩ := h
    exact ⟨fun _ => ⟨p, hp, by rw [hv]; rfl⟩, fun _ => rfl⟩

end RouteMap

namespace Table
variable {V : Type}

def tree (t : Table V) (isIpv6 : Bool) : StrideTable := if isIpv6 then t.v6 else t.v4

/-- Both trees hold what the route map says, and the arena a value for each installed id only. -/
structure Inv (t : Table V) : Prop where
  wf : ∀ f, Wf f (t.tree f)
  root : ∀ f, (t.tree f).pfx.bits = 0
  find_eq : ∀ p : IpPrefix, p.Normal → find (t.tree p.isIpv6) p = t.routes.lookup p
  normal : ∀ p r, t.routes.lookup p = some r → p.Normal
  live : ∀ p r, t.routes.lookup p = some r → ∃ v, t.values[r]? = some (some v)
  inj : ∀ p q r, t.routes.lookup p = some r → t.routes.lookup q = some r → p = q
  free : ∀ r ∈ t.freeValues, t.values[r]? = some none
  nodup : t.freeValues.Nodup

def abs (t : Table V) : RouteMap V :=
  fun p => (t.routes.lookup p).bind fun r => t.values[r]?.join

theorem new_inv : (new : Table V).Inv where
  wf := fun f => by
    cases f <;>
      exact .new rfl ⟨Nat.zero_le _, fun i _ => BitVec.getMsbD_zero⟩ (by decide) (by decide)
  root := fun f => by cases f <;> rfl
  find_eq := fun p _ => by
    have hl : (new : Table V).routes.lookup p = none := lookup_empty p
    rw [hl]
    cases hf : p.isIpv6 <;> exact find_new _ _
  normal := fun p r h => by cases (lookup_empty p).symm.trans h
  live := fun p r h => by cases (lookup_empty p).symm.trans h
  inj := fun p q r h _ => by cases (lookup_empty p).symm.trans h
  free := nofun
  nodup := nodup_nil

theorem new_abs : (new : Table V).abs = RouteMap.empty := by
  funext p
  have hl : (new : Table V).routes.lookup p = none := lookup_empty p
  simp [abs, hl, RouteMap.empty]

variable {t t' : Table V} {p : IpPrefix} {r : RouteId}

section
variable (h : t.Inv)
include h

/-- A value is stored under a fresh id, from the free list when it has one. -/
theorem Inv.allocate (v : V) :
    ∃ t' r, t.allocate v = (t', r) ∧ t'.v4 = t.v4 ∧ t'.v6 = t.v6 ∧ t'.routes = t.routes ∧
      t'.values[r]? = some (some v) ∧ (∀ p, t.routes.lookup p ≠ some r) ∧
      (∀ s w, s ≠ r → t.values[s]? = some w → t'.values[s]? = some w) ∧
      (∀ s ∈ t'.freeValues, t'.values[s]? = some none) ∧ t'.freeValues.Nodup := by
  unfold Table.allocate
  cases hf : t.freeValues with
  | nil =>
    refine ⟨_, _, rfl, rfl, rfl, rfl, by simp, fun p hp => ?_, fun s w hs hw => ?_, ?_, ?_⟩
    · obtain ⟨w, hw⟩ := h.live p _ hp
      simp at hw
    · have hlt : s < t.values.length := (List.getElem?_eq_some_iff.mp hw).1
      rw [← hw]
      exact getElem?_append_left hlt
    · nofun
    · exact nodup_nil
  | cons r rest =>
    have hr := h.free r (by rw [hf]; exact mem_cons_self)
    have hnd := h.nodup
    rw [hf, nodup_cons] at hnd
    have hlt : r < t.values.length := (List.getElem?_eq_some_iff.mp hr).1
    refine ⟨_, _, rfl, rfl, rfl, rfl, by simp [hlt], fun p hp => ?_, fun s w hs hw => ?_, ?_, hnd.2⟩
    · obtain ⟨w, hw⟩ := h.live p _ hp
      rw [hr] at hw
      cases hw
    · rw [← hw]
      exact getElem?_set_ne (Ne.symm hs)
    · intro s hs
      have hsr : r ≠ s := fun he => hnd.1 (he ▸ hs)
      rw [getElem?_set_ne hsr]
      exact h.free s (by rw [hf]; exact mem_cons_of_mem _ hs)

/-- The invariant over a prefix that enters the trees and the map. -/
theorem Inv.install (hp : p.Normal) {v : V} (hfree : ∀ q, t.routes.lookup q ≠ some r)
    {out : StrideTable × Option RouteId} (hout : Inserted p.isIpv6 p r (t.tree p.isIpv6) out)
    (htree : ∀ f, t'.tree f = if f = p.isIpv6 then out.1 else t.tree f)
    (hroutes : t'.routes = t.routes.insert p r) (hval : t'.values[r]? = some (some v))
    (hkeep : ∀ s w, s ≠ r → t.values[s]? = some w → t'.values[s]? = some w)
    (hfv : ∀ s ∈ t'.freeValues, t'.values[s]? = some none) (hnd : t'.freeValues.Nodup) :
    t'.Inv ∧ t'.abs = update t.abs p (some v) := by
  have hself : t'.routes.lookup p = some r := by rw [hroutes, lookup_insert]
  have hother : ∀ q, q ≠ p → t'.routes.lookup q = t.routes.lookup q := fun q hq => by
    rw [hroutes, lookup_insert_ne hq]
  have hcases : ∀ q s, t'.routes.lookup q = some s →
      q = p ∧ s = r ∨ q ≠ p ∧ s ≠ r ∧ t.routes.lookup q = some s := by
    intro q s hs
    by_cases hq : q = p
    · subst hq
      rw [hself] at hs
      exact Or.inl ⟨rfl, (Option.some.inj hs).symm⟩
    · rw [hother q hq] at hs
      exact Or.inr ⟨hq, fun he => hfree q (he ▸ hs), hs⟩
  refine ⟨⟨fun f => ?_, fun f => ?_, fun q hq => ?_, fun q s hs => ?_, fun q s hs => ?_,
    fun q q' s hs hs' => ?_, hfv, hnd⟩, ?_⟩
  · rw [htree]
    split_ifs with hf
    · exact hf ▸ hout.wf
    · exact h.wf f
  · rw [htree]
    split_ifs with hf
    · rw [hout.pfx]
      exact h.root _
    · exact h.root f
  · rw [htree]
    split_ifs with hf
    · rw [hout.find_eq q hq hf]
      by_cases hqp : q = p
      · rw [if_pos hqp, hqp, hself]
      · rw [if_neg hqp, hother q hqp, ← hf]
        exact h.find_eq q hq
    · rw [hother q fun he => hf (he ▸ rfl)]
      exact h.find_eq q hq
  · rcases hcases q s hs with ⟨rfl, -⟩ | ⟨-, -, hs⟩
    · exact hp
    · exact h.normal q s hs
  · rcases hcases q s hs with ⟨-, rfl⟩ | ⟨-, hne, hs⟩
    · exact ⟨v, hval⟩
    · obtain ⟨w, hw⟩ := h.live q s hs
      exact ⟨w, hkeep s _ hne hw⟩
  · rcases hcases q s hs with ⟨rfl, rfl⟩ | ⟨-, hne, hs⟩
    · rcases hcases q' s hs' with ⟨rfl, -⟩ | ⟨-, hne, -⟩
      · rfl
      · exact absurd rfl hne
    · rcases hcases q' s hs' with ⟨-, rfl⟩ | ⟨-, -, hs'⟩
      · exact absurd rfl hne
      · exact h.inj q q' s hs hs'
  · funext q
    by_cases hq : q = p
    · subst hq
      simp [abs, hself, hval]
    · rw [update_of_ne hq]
      unfold abs
      rw [hother q hq]
      cases hl : t.routes.lookup q with
      | none => rfl
      | some s =>
        obtain ⟨w, hw⟩ := h.live q s hl
        have hne : s ≠ r := fun he => hfree q (he ▸ hl)
        simp [hw, hkeep s _ hne hw]

/-- Insertion refines that of the abstract table. -/
theorem Inv.insert (hp : p.Valid) (v : V) :
    ∃ t', t.insert p v = .ok (t', (t.abs.insert p v).2) ∧ t'.Inv ∧
      t'.abs = (t.abs.insert p v).1 := by
  have hn := masked_normal hp
  unfold Table.insert
  simp only
  cases hl : t.routes.lookup p.masked with
  | some r =>
    obtain ⟨old, hold⟩ := h.live _ _ hl
    have hlt : r < t.values.length := (List.getElem?_eq_some_iff.mp hold).1
    have habs : t.abs p.masked = some old := by simp [abs, hl, hold]
    have hself : (t.values.set r (some v))[r]? = some (some v) := by simp [hlt]
    have hne : ∀ s, s ≠ r → (t.values.set r (some v))[s]? = t.values[s]? :=
      fun s hs => getElem?_set_ne hs.symm
    refine ⟨{ t with values := t.values.set r (some v) }, ?_, ⟨h.wf, h.root, h.find_eq, h.normal,
      fun q s hs => ?_, h.inj, fun s hs => ?_, h.nodup⟩, ?_⟩
    · simp only [hold, RouteMap.insert, habs]
    · by_cases hsr : s = r
      · exact ⟨v, by rw [hsr]; exact hself⟩
      · obtain ⟨w, hw⟩ := h.live q s hs
        exact ⟨w, (hne s hsr).trans hw⟩
    · have hfree := h.free s hs
      have hsr : s ≠ r := by
        rintro rfl
        rw [hold] at hfree
        cases hfree
      exact (hne s hsr).trans hfree
    · funext q
      by_cases hq : q = p.masked
      · subst hq
        simp [abs, hl, hlt, RouteMap.insert]
      · simp only [RouteMap.insert, update_of_ne hq, abs]
        cases hlq : t.routes.lookup q with
        | none => rfl
        | some s =>
          have hsr : s ≠ r := fun he => hq (h.inj q _ r (he ▸ hlq) hl)
          simp [getElem?_set_ne hsr.symm]
  | none =>
    obtain ⟨t1, r, halloc, h4, h6, hroutes, hval, hfree, hkeep, hfv, hnd⟩ := h.allocate v
    have htree : ∀ f, t1.tree f = t.tree f := fun f => by simp [tree, h4, h6]
    have hfresh : Fresh p.masked.isIpv6 r (t.tree p.masked.isIpv6) := by
      intro q hq hqf hr
      rw [← hqf, h.find_eq q hq] at hr
      exact hfree q hr
    have hnone : find (t.tree p.masked.isIpv6) p.masked = none := by
      rw [h.find_eq _ hn, hl]
    have hins := insertInto_inserted (h.wf _) (h.root _) hn rfl hfresh hnone
    have habs : t.abs p.masked = none := by simp [abs, hl]
    simp only [halloc, RouteMap.insert, habs]
    -- the two families differ only in the tree that changes
    cases hf : p.masked.isIpv6
    all_goals
      have hnew := hins.fresh
      rw [← htree, hf] at hnew
      refine ⟨_, if_pos (Option.isNone_iff_eq_none.mpr hnew), ?_⟩
      refine h.install hn hfree hins (fun f => ?_) (congrArg (AList.insert _ r) hroutes) hval hkeep
        hfv hnd
      rw [hf]
      cases f <;> simp [tree, h4, h6]

/-- The invariant over a prefix that leaves the trees and the map. -/
theorem Inv.uninstall (hl : t.routes.lookup p = some r) {tr : StrideTable}
    (hdel : Deleted p.isIpv6 p (t.tree p.isIpv6) tr)
    (htree : ∀ f, t'.tree f = if f = p.isIpv6 then tr else t.tree f)
    (hroutes : t'.routes = t.routes.erase p) (hvalues : t'.values = t.values.set r none)
    (hfv : t'.freeValues = r :: t.freeValues) : t'.Inv ∧ t'.abs = update t.abs p none := by
  obtain ⟨v, hv⟩ := h.live p r hl
  have hlt : r < t.values.length := (List.getElem?_eq_some_iff.mp hv).1
  have hself : t'.routes.lookup p = none := by rw [hroutes, lookup_erase]
  have hother : ∀ q, q ≠ p → t'.routes.lookup q = t.routes.lookup q := fun q hq => by
    rw [hroutes, lookup_erase_ne hq]
  have hcases : ∀ q s, t'.routes.lookup q = some s →
      q ≠ p ∧ s ≠ r ∧ t.routes.lookup q = some s := by
    intro q s hs
    have hq : q ≠ p := by
      rintro rfl
      rw [hself] at hs
      cases hs
    rw [hother q hq] at hs
    exact ⟨hq, fun he => hq (h.inj q p r (he ▸ hs) hl), hs⟩
  have hkeep : ∀ s, s ≠ r → t'.values[s]? = t.values[s]? := fun s hs => by
    rw [hvalues, getElem?_set_ne hs.symm]
  refine ⟨⟨fun f => ?_, fun f => ?_, fun q hq => ?_, fun q s hs => ?_, fun q s hs => ?_,
    fun q q' s hs hs' => ?_, fun s hs => ?_, ?_⟩, ?_⟩
  · rw [htree]
    split_ifs with hf
    · exact hf ▸ hdel.wf
    · exact h.wf f
  · rw [htree]
    split_ifs with hf
    · rw [hdel.pfx]
      exact h.root _
    · exact h.root f
  · rw [htree]
    split_ifs with hf
    · rw [hdel.find_eq q hq hf]
      by_cases hqp : q = p
      · rw [if_pos hqp, hqp, hself]
      · rw [if_neg hqp, hother q hqp, ← hf]
        exact h.find_eq q hq
    · rw [hother q fun he => hf (he ▸ rfl)]
      exact h.find_eq q hq
  · exact h.normal q s (hcases q s hs).2.2
  · obtain ⟨-, hne, hs⟩ := hcases q s hs
    rw [hkeep s hne]
    exact h.live q s hs
  · exact h.inj q q' s (hcases q s hs).2.2 (hcases q' s hs').2.2
  · rw [hfv, mem_cons] at hs
    by_cases hsr : s = r
    · rw [hsr, hvalues]
      simp [hlt]
    · rw [hkeep s hsr]
      exact h.free s (hs.resolve_left hsr)
  · rw [hfv, nodup_cons]
    refine ⟨fun hmem => ?_, h.nodup⟩
    have := h.free r hmem
    rw [hv] at this
    cases this
  · funext q
    by_cases hq : q = p
    · subst hq
      simp [abs, hself]
    · rw [update_of_ne hq]
      unfold abs
      rw [hother q hq]
      cases hlq : t.routes.lookup q with
      | none => rfl
      | some s =>
        have hne : s ≠ r := fun he => hq (h.inj q p r (he ▸ hlq) hl)
        simp [hkeep s hne]

/-- Deletion refines that of the abstract table. -/
theorem Inv.delete (hp : p.Valid) :
    ∃ t', t.delete p = .ok (t', (t.abs.delete p).2) ∧ t'.Inv ∧ t'.abs = (t.abs.delete p).1 := by
  have hn := masked_normal hp
  unfold Table.delete
  simp only
  cases hl : t.routes.lookup p.masked with
  | none =>
    have habs : t.abs p.masked = none := by simp [abs, hl]
    refine ⟨t, ?_, h, ?_⟩
    · simp only [RouteMap.delete, habs]
    · rw [RouteMap.delete, ← habs, update_eq_self]
  | some r =>
    obtain ⟨v, hv⟩ := h.live _ _ hl
    have habs : t.abs p.masked = some v := by simp [abs, hl, hv]
    obtain ⟨tr, hrun, hdel⟩ := deleteFrom_deleted (h.wf _) (h.root _) hn rfl
      ((h.find_eq _ hn).trans hl)
    cases hf : p.masked.isIpv6
    all_goals
      rw [hf] at hrun
      refine ⟨{ t with
        v4 := if p.masked.isIpv6 then t.v4 else tr, v6 := if p.masked.isIpv6 then tr else t.v6
        routes := t.routes.erase p.masked, values := t.values.set r none
        freeValues := r :: t.freeValues }, ?_, ?_⟩
      · simp only [tree, Bool.false_eq_true, if_false, if_true] at hrun
        simp [hf, hrun, bind, Except.bind, pure, Except.pure, release, hv, RouteMap.delete, habs]
      · refine h.uninstall hl hdel (fun f => ?_) rfl rfl rfl
        rw [hf]
        cases f <;> rfl

theorem Inv.getPrefix (p : IpPrefix) : t.getPrefix p = .ok (t.abs p.masked) := by
  unfold Table.getPrefix abs
  cases hl : t.routes.lookup p.masked with
  | none => rfl
  | some r =>
    obtain ⟨v, hv⟩ := h.live _ _ hl
    simp [value, hv, Except.map]

/-- The lookup returns a longest match of the abstract table. -/
theorem Inv.get (a : IpAddr) : ∃ o, t.get a = .ok o ∧ t.abs.IsLongestMatch a o := by
  obtain ⟨ms, hrun, hlong⟩ := collectMatches_spec rfl (t.tree a.isIpv6) [] (h.wf _) (Nat.zero_le _)
  rw [h.root] at hrun
  have hnone : ∀ q : IpPrefix, q.contains a = true →
      (q.Normal → find (t.tree a.isIpv6) q = none) → t.abs q = none := by
    intro q hq hfind
    cases hl : t.routes.lookup q with
    | none => simp [abs, hl]
    | some r =>
      have hn := h.normal q r hl
      have := h.find_eq q hn
      rw [isIpv6_of_contains hq, hfind hn, hl] at this
      cases this
  have hget : t.get a = (selected a ms).elim (.ok none) fun r => (t.value r).map some := by
    have hrun' : collectMatches a (if a.isIpv6 then t.v6 else t.v4) 0 [] = .ok ms := hrun
    simp only [Table.get, hrun', selected, bind, Except.bind]
    cases ms.reverse.find? fun m => m.1.contains a with
    | none => rfl
    | some m =>
      simp only [Option.map_some, Option.elim_some]
      cases t.value m.2 <;> rfl
  rw [hget]
  cases hsel : selected a ms with
  | none =>
    rw [hsel] at hlong
    exact ⟨none, rfl, fun q hq => hnone q hq fun hn => hlong q hn hq⟩
  | some r =>
    rw [hsel] at hlong
    obtain ⟨p, hp, hpf, hr, hpa, hmax⟩ := hlong
    have hl : t.routes.lookup p = some r := by
      rw [← h.find_eq p hp, hpf, hr]
    obtain ⟨v, hv⟩ := h.live p r hl
    refine ⟨some v, by simp [value, hv, Except.map], p, hp, hpf, hpa, by simp [abs, hl, hv], ?_⟩
    exact fun q hq hlt => hnone q hq fun hn => hmax q hn hq hlt

theorem Inv.exec (op : Op V) :
    ∃ t', t.exec op = .ok (t', (t.abs.exec op).2) ∧ t'.Inv ∧ t'.abs = (t.abs.exec op).1 := by
  cases op with
  | insert p v => exact h.insert p.2 v
  | delete p => exact h.delete p.2
  | clear => exact ⟨new, rfl, new_inv, new_abs⟩

theorem Inv.run (ops : List (Op V)) :
    ∃ t', t.run ops = .ok (t', (t.abs.run ops).2) ∧ t'.Inv ∧ t'.abs = (t.abs.run ops).1 := by
  induction ops generalizing t with
  | nil => exact ⟨t, rfl, h, rfl⟩
  | cons op ops ih =>
    obtain ⟨t1, hexec, h1, habs⟩ := h.exec op
    obtain ⟨t2, hrun, h2, habs2⟩ := ih h1
    rw [habs] at hrun habs2
    refine ⟨t2, ?_, h2, habs2⟩
    rw [run, hexec]
    simp only [bind, Except.bind, hrun]
    rfl

end

/-- Every run returns what the map returns, no assertion fails, and each lookup is the longest
match. -/
theorem run_refines_routeMap (ops : List (Op V)) :
    ∃ t : Table V, new.run ops = .ok (t, (RouteMap.empty.run ops).2) ∧
      ∀ a : IpAddr, ∃ o, t.get a = .ok o ∧ (RouteMap.empty.run ops).1.IsLongestMatch a o := by
  obtain ⟨t, hrun, hinv, habs⟩ := (new_inv).run ops
  rw [new_abs] at hrun habs
  refine ⟨t, hrun, fun a => ?_⟩
  rw [← habs]
  exact hinv.get a

/-- After every run the reference counts are exact, and routes have ids of their own. -/
theorem run_counted (ops : List (Op V)) :
    ∃ t out, (new : Table V).run ops = .ok (t, out) ∧ t.Inv := by
  obtain ⟨t, hrun, hinv, -⟩ := new_inv.run ops
  exact ⟨t, _, hrun, hinv⟩

end Table

end Rustscale.Art
