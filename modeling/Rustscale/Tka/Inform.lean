import Rustscale.Tka.Open

/-! `inform` accepts exactly the batches that extend the verified chains in storage, and leaves it
sound. -/
namespace Rustscale.Tka
open Checks ForkChoice LawfulChonk List Contents Function

section Rooted
variable [Crypto] {m : Contents} {g : Aum}

/-- Each message has a valid chain from the genesis. -/
structure Rooted (m : Contents) (g : Aum) : Prop where
  genesis : g ∈ m
  valid : ∀ a, a ∈ m → ∃ l st, Chain m g (a :: l) st

theorem Sound.rooted (h : Sound m g) : Rooted m g := ⟨h.genesis, h.valid⟩

theorem Rooted.sound (h : Rooted m g) (ha : Anchored m g) : Sound m g := ⟨h.genesis, ha, h.valid⟩

variable {st st' : State} {a : Aum} {l : List Aum} {u : Aum}

theorem Rooted.parent_of_not_anchored (h : Rooted m g) (hn : ¬ Anchored m g) (ha : a ∈ m) :
    ∃ p, p ∈ m ∧ a.parent = some p.hash := by
  obtain ⟨l, st, hl⟩ := h.valid a ha
  cases hl with
  | genesis =>
    simp only [Anchored, not_forall] at hn
    obtain ⟨x, hx, hget⟩ := hn
    obtain ⟨p, hp⟩ := Option.ne_none_iff_exists'.mp hget
    exact ⟨p, mem_of_get hp, by rw [hx, m.keyed x p hp]⟩
  | @step p _ _ _ _ hc _ hp => exact ⟨p, hc.mem mem_cons_self, hp⟩

/-- A way up from child to parent through stored AUMs. -/
inductive Ancestry (m : Contents) : List Aum → Prop
  | single {a : Aum} (ha : a ∈ m) : Ancestry m [a]
  | cons {a p : Aum} {l : List Aum} (h : Ancestry m (p :: l)) (ha : a ∈ m)
      (hp : a.parent = some p.hash) : Ancestry m (a :: p :: l)

theorem Ancestry.mem (h : Ancestry m l) (ha : a ∈ l) : a ∈ m := by
  induction h with
  | single hm => rwa [mem_singleton.mp ha]
  | cons _ hm _ ih =>
    rcases mem_cons.mp ha with rfl | ha
    · exact hm
    · exact ih ha

def Short (m : Contents) : Prop := ∀ l, Ancestry m l → l.length ≤ maxScanIterations

theorem Chain.ancestry (h : Chain m g l st) : Ancestry m l := by
  induction h with
  | genesis hg => exact .single hg
  | step _ ha hp _ _ ih => exact .cons ih ha hp

theorem Short.bounded (h : Short m) : Bounded m g := fun l _ hl => h l hl.ancestry

theorem exists_ancestry (h : ∀ a, a ∈ m → ∃ p, p ∈ m ∧ a.parent = some p.hash) (n : ℕ) :
    ∀ a, a ∈ m → ∃ l, Ancestry m (a :: l) ∧ l.length = n := by
  induction n with
  | zero => exact fun a ha => ⟨[], .single ha, rfl⟩
  | succ n ih =>
    intro a ha
    obtain ⟨p, hp, hpar⟩ := h a ha
    obtain ⟨l, hl, hlen⟩ := ih p hp
    exact ⟨p :: l, .cons hl ha hpar, by rw [length_cons, hlen]⟩

theorem Short.anchored (h : Short m) (hr : Rooted m g) : Anchored m g := by
  by_contra hn
  obtain ⟨l, hl, hlen⟩ := exists_ancestry (fun a ha => hr.parent_of_not_anchored hn ha)
    maxScanIterations g hr.genesis
  have := h _ hl
  rw [length_cons] at this
  omega

theorem Ancestry.length_le (hs : Sound m g) (h : Ancestry m l) :
    ∃ a t u st, l = a :: t ∧ Chain m g (a :: u) st ∧ t.length ≤ u.length := by
  induction h with
  | @single a ha =>
    obtain ⟨u, st, hu⟩ := hs.valid a ha
    exact ⟨a, [], u, st, rfl, hu, Nat.zero_le _⟩
  | @cons a p l _ ha hp ih =>
    obtain ⟨_, _, u, st, hl, hu, hle⟩ := ih
    obtain ⟨rfl, rfl⟩ := cons.inj hl
    obtain ⟨st', hu', -⟩ := hs.extend hu ha hp
    exact ⟨a, _, _, st', rfl, hu', Nat.succ_le_succ hle⟩

theorem Bounded.short (hs : Sound m g) (h : Bounded m g) : Short m := by
  intro l hl
  obtain ⟨a, t, u, st, rfl, hu, hle⟩ := hl.length_le hs
  have := h _ _ hu
  rw [length_cons] at this ⊢
  omega

/-- Each update is stored already or extends a verified chain of what precedes it. -/
def Extends (m : Contents) (g : Aum) : List Aum → Prop
  | [] => True
  | u :: us =>
    (u ∈ m ∨ ∃ p l st st', Chain m g (p :: l) st ∧ u.parent = some p.hash ∧
      verifyAum u st false = .ok () ∧ st.applyVerified u = .ok st') ∧ Extends (m.add u) g us

theorem Rooted.add (h : Rooted m g) {p : Aum} (hc : Chain m g (p :: l) st)
    (hp : u.parent = some p.hash) (hv : verifyAum u st false = .ok ())
    (happ : st.applyVerified u = .ok st') : Rooted (m.add u) g := by
  have hle := le_add m u
  refine ⟨hle _ h.genesis, fun a ha => ?_⟩
  rcases mem_add.mp ha with ham | ⟨rfl, -⟩
  · obtain ⟨l', st1, hl⟩ := h.valid a ham
    exact ⟨l', st1, hl.mono hle⟩
  · exact ⟨_, _, .step (hc.mono hle) ha hp hv happ⟩

theorem Contents.add_eq_self (hu : u ∈ m) : m.add u = m := by
  ext a
  rw [mem_add, mem_iff.mp hu]
  simp

theorem Rooted.addAll (h : Rooted m g) {us : List Aum} (hx : Extends m g us) :
    Rooted (m.addAll us) g := by
  induction us generalizing m with
  | nil => exact h
  | cons u us ih =>
    obtain ⟨hu | ⟨p, l, st, st', hc, hp, hv, happ⟩, hrest⟩ := hx
    · rw [add_eq_self hu] at hrest
      rw [addAll_cons, add_eq_self hu]
      exact ih h hrest
    · exact ih (h.add hc hp hv happ) hrest

theorem Contents.mem_addAll {W : Set Aum} (hW : Set.InjOn Aum.hash W) (hm : ∀ a, a ∈ m → a ∈ W)
    {as : List Aum} (has : ∀ a ∈ as, a ∈ W) {b : Aum} : b ∈ m.addAll as ↔ b ∈ m ∨ b ∈ as := by
  induction as generalizing m with
  | nil => simp
  | cons a as ih =>
    have haW := has a mem_cons_self
    have hadd : ∀ c, c ∈ m.add a ↔ c ∈ m ∨ c = a := by
      intro c
      rw [mem_add]
      refine or_congr_right' fun hc => ⟨fun h => h.1, fun h => ⟨h, ?_⟩⟩
      cases hg : m.get a.hash with
      | none => rfl
      | some d =>
        have hd := mem_of_get hg
        have hda := hW (hm d hd) haW (m.keyed _ _ hg)
        exact absurd (h ▸ hda ▸ hd) hc
    rw [addAll_cons, ih (fun c hc => ?_) fun c hc => has c (mem_cons_of_mem _ hc),
      hadd, mem_cons, or_assoc]
    rcases (hadd c).mp hc with hc | rfl
    · exact hm c hc
    · exact haW

end Rooted

section Stage
variable [Crypto] {σ : Type} [LawfulChonk σ] {s : σ} {g : Aum} {W : Set Aum}

/-- Invariant of staging: what the contents will be, and the states known from this batch. -/
structure Staging (s : σ) (g : Aum) (W : Set Aum) (m : Contents)
    (states : AumHash → Option State) (staged : List Aum) : Prop where
  contents_eq : (contents s).addAll staged = m
  fresh : ∀ u ∈ staged, (contents s).get u.hash = none
  within : ∀ a, a ∈ m → a ∈ W
  rooted : Rooted m g
  states_chain : ∀ h st, states h = some st → ∃ p l, p.hash = h ∧ Chain m g (p :: l) st
  known : ∀ a, a ∈ m → a ∉ contents s → (states a.hash).isSome

variable {m : Contents} {states : AumHash → Option State} {staged : List Aum} {st : State} {p : Aum}
  {l : List Aum} {u : Aum}

section
variable (h : Staging s g W m states staged)
include h

theorem Staging.le : contents s ≤ m :=
  h.contents_eq ▸ le_addAll _ _

theorem Staging.parentState (hs : Sound (contents s) g) {x : AumHash}
    (hx : parentState s states x = .ok st) : ∃ p l, p.hash = x ∧ Chain m g (p :: l) st := by
  unfold Tka.parentState at hx
  cases hst : states x with
  | some st' =>
    rw [hst] at hx
    cases hx
    exact h.states_chain x st hst
  | none =>
    rw [hst] at hx
    have hx' := hx
    simp only [stateAt, bind_eq_ok, mapError_eq_ok] at hx'
    obtain ⟨p, hp, -⟩ := hx'
    obtain ⟨hpm, rfl⟩ := mem_of_aum hp
    obtain ⟨l, st', hl⟩ := hs.valid p hpm
    simp only [stateAt_eq hs.anchored hl] at hx
    split_ifs at hx
    cases hx
    exact ⟨p, l, rfl, hl.mono h.le⟩

theorem Staging.parentState_eq (hs : Sound (contents s) g) (hb : Bounded (contents s) g)
    (hc : Chain m g (p :: l) st) : Tka.parentState s states p.hash = .ok st := by
  have hpm := hc.mem mem_cons_self
  unfold Tka.parentState
  cases hst : states p.hash with
  | some st' =>
    obtain ⟨q, l', hq, hc'⟩ := h.states_chain _ _ hst
    obtain rfl := eq_of_hash (hc'.mem mem_cons_self) hpm hq
    simp only [(hc.unique hc').1]
  | none =>
    have hps : p ∈ contents s := by
      by_contra hn
      have := h.known p hpm hn
      rw [hst] at this
      cases this
    obtain ⟨l', st', hl⟩ := hs.valid p hps
    simp only [stateAt_eq hs.anchored hl, if_pos (hb _ _ hl), (hc.unique (hl.mono h.le)).1]

/-- Staging one more verified update extends the virtual contents by it. -/
theorem Staging.push (hW : Set.InjOn Aum.hash W) (huW : u ∈ W)
    (hnew : (contents s).get u.hash = none) {st' : State} (hc : Chain m g (p :: l) st)
    (hp : u.parent = some p.hash) (hv : verifyAum u st false = .ok ())
    (happ : st.applyVerified u = .ok st') :
    Staging s g W (m.add u) (update states u.hash (some st')) (staged ++ [u]) := by
  have hle := le_add m u
  have hmem : ∀ a, a ∈ m.add u ↔ a ∈ m ∨ a = u := fun a => by
    have := mem_addAll (b := a) hW h.within (fun c (hc : c ∈ [u]) => by rwa [mem_singleton.mp hc])
    rwa [mem_singleton] at this
  have hu : u ∈ m.add u := (hmem u).mpr (Or.inr rfl)
  refine ⟨?_, fun a ha => ?_, fun a ha => ?_, h.rooted.add hc hp hv happ, fun x st1 hx => ?_,
    fun a ha hn => ?_⟩
  · rw [← h.contents_eq]
    simp [addAll, foldl_append]
  · rcases mem_append.mp ha with ha | ha
    · exact h.fresh a ha
    · rwa [mem_singleton.mp ha]
  · rcases (hmem a).mp ha with ha | rfl
    · exact h.within a ha
    · exact huW
  · by_cases hxu : x = u.hash
    · rw [hxu, update_self] at hx
      cases hx
      exact ⟨u, p :: l, hxu.symm, .step (hc.mono hle) hu hp hv happ⟩
    · rw [update_of_ne hxu] at hx
      obtain ⟨q, l', hq, hc'⟩ := h.states_chain x st1 hx
      exact ⟨q, l', hq, hc'.mono hle⟩
  · by_cases hau : a.hash = u.hash
    · rw [hau, update_self]
      rfl
    · rw [update_of_ne hau]
      rcases (hmem a).mp ha with ha | rfl
      · exact h.known a ha hn
      · exact absurd rfl hau

end

theorem stage_cons_new (hnew : (contents s).get u.hash = none) (index : ℕ)
    (states : AumHash → Option State) (staged rest out : List Aum) :
    stage s index states staged (u :: rest) = .ok out ↔
      ∃ x st st', u.parent = some x ∧ parentState s states x = .ok st ∧
        verifyAum u st false = .ok () ∧ st.applyVerified u = .ok st' ∧
        stage s (index + 1) (update states u.hash (some st')) (staged ++ [u]) rest = .ok out := by
  rw [stage, aum_of_get_none hnew]
  simp only [ChonkError.isNotFound, if_true, bind_eq_ok, okOr_eq_ok, mapError_eq_ok]
  constructor
  · rintro ⟨x, hx, st, hst, _, hv, st', happ, hrest⟩
    exact ⟨x, st, st', hx, hst, hv, happ, hrest⟩
  · rintro ⟨x, st, st', hx, hst, hv, happ, hrest⟩
    exact ⟨x, hx, st, hst, (), hv, st', happ, hrest⟩

def fresh (s : σ) (us : List Aum) : List Aum :=
  us.filter fun u => ((contents s).get u.hash).isNone

theorem stage_eq_fresh (us : List Aum) {index : ℕ} {states : AumHash → Option State}
    {staged out : List Aum} (h : stage s index states staged us = .ok out) :
    out = staged ++ fresh s us := by
  induction us generalizing index states staged with
  | nil =>
    cases h
    simp [fresh]
  | cons u us ih =>
    cases hget : (contents s).get u.hash with
    | some b =>
      have haum : Chonk.aum s u.hash = .ok b := by rw [aum_eq, hget]
      rw [stage, haum] at h
      rw [ih h]
      simp [fresh, hget]
    | none =>
      obtain ⟨x, st, st', -, -, -, -, hrest⟩ := (stage_cons_new hget ..).mp h
      rw [ih hrest]
      simp [fresh, hget]

/-- The staging loop succeeds exactly when the updates extend the tree, and stages the new ones. -/
theorem stage_iff (hs : Sound (contents s) g) (hb : Bounded (contents s) g)
    (hW : Set.InjOn Aum.hash W) (us : List Aum) : ∀ (index : ℕ) {states : AumHash → Option State}
      {staged : List Aum} {m : Contents}, Staging s g W m states staged → (∀ u ∈ us, u ∈ W) →
      (∀ out, stage s index states staged us = .ok out → Extends m g us ∧
        (contents s).addAll out = m.addAll us ∧ ∀ u ∈ out, (contents s).get u.hash = none) ∧
      (Extends m g us → ∃ out, stage s index states staged us = .ok out) := by
  induction us with
  | nil =>
    intro index states staged m h _
    refine ⟨fun out hout => ?_, fun _ => ⟨staged, rfl⟩⟩
    cases hout
    exact ⟨trivial, h.contents_eq, h.fresh⟩
  | cons u us ih =>
    intro index states staged m h huW
    have hu := huW u mem_cons_self
    have hus : ∀ v ∈ us, v ∈ W := fun v hv => huW v (mem_cons_of_mem _ hv)
    cases hget : (contents s).get u.hash with
    | some b =>
      have hbs := mem_of_get hget
      obtain rfl : b = u := hW (h.within b (h.le b hbs)) hu ((contents s).keyed _ _ hget)
      have hself := add_eq_self (h.le b hbs)
      have hstage : stage s index states staged (b :: us) =
          stage s (index + 1) states staged us := by
        rw [stage, aum_of_mem hbs]
      obtain ⟨hto, hfrom⟩ := ih (index + 1) h hus
      rw [hstage, addAll_cons, hself]
      refine ⟨fun out hout => ?_, fun hx => hfrom ?_⟩
      · obtain ⟨hx, hrest⟩ := hto out hout
        exact ⟨⟨Or.inl (h.le b hbs), by rwa [hself]⟩, hrest⟩
      · have := hx.2
        rwa [hself] at this
    | none =>
      refine ⟨fun out hout => ?_, fun hx => ?_⟩
      · obtain ⟨x, st, st', hpar, hst, hv, happ, hrest⟩ := (stage_cons_new hget ..).mp hout
        obtain ⟨p, l, rfl, hc⟩ := h.parentState hs hst
        obtain ⟨hx, heq, hfresh⟩ := (ih _ (h.push hW hu hget hc hpar hv happ) hus).1 out hrest
        exact ⟨⟨Or.inr ⟨p, l, st, st', hc, hpar, hv, happ⟩, hx⟩, heq, hfresh⟩
      · -- an update of a new hash that is in `m` was staged before, and extends a chain too
        obtain ⟨p, l, st, st', hc, hpar, hv, happ⟩ : ∃ p l st st', Chain m g (p :: l) st ∧
            u.parent = some p.hash ∧ verifyAum u st false = .ok () ∧
            st.applyVerified u = .ok st' := by
          rcases hx.1 with hum | hex
          · obtain ⟨l, st, hl⟩ := h.rooted.valid u hum
            cases hl with
            | genesis =>
              rw [mem_iff.mp hs.genesis] at hget
              cases hget
            | @step p _ l st1 _ hc _ hp hv happ => exact ⟨p, l, st1, _, hc, hp, hv, happ⟩
          · exact hex
        obtain ⟨out, hout⟩ := (ih (index + 1) (h.push hW hu hget hc hpar hv happ) hus).2 hx.2
        exact ⟨out, (stage_cons_new hget ..).mpr
          ⟨p.hash, st, st', hpar, h.parentState_eq hs hb hc, hv, happ, hout⟩⟩

end Stage

end Rustscale.Tka
