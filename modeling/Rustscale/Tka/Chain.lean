import Rustscale.Tka.Candidates
import Rustscale.Lib.ForkChoice

/-! Verified chains of AUMs, which the traversals follow where all stored AUMs end one from the
genesis. -/
namespace Rustscale.Tka
open Checks ForkChoice List Contents Chain
variable [Crypto]

theorem verifyAum_of_parts {a : Aum} {st : State} {genesis : Bool} (hval : a.validate = .ok ())
    (hparent : checkParent a st genesis = .ok ()) (hne : a.signatures.isEmpty = false)
    (hsig : verifySignatures st a.sigHash 0 a.signatures = .ok ())
    (hlast : checkLastKey a st = .ok ()) : verifyAum a st genesis = .ok () := by
  simp [verifyAum, hval, hparent, hne, hsig, hlast, mapError_ok, ok_bind, ensure_true]

theorem applyVerified_eq_ok {st st' : State} {a : Aum} (h : st.applyVerified a = .ok st') :
    ∃ out, st.checkFollows a = .ok () ∧ st.applyKind a = .ok out ∧ st' = out.withLastAum a := by
  simp only [State.applyVerified, bind_eq_ok] at h
  obtain ⟨_, hf, out, hout, h⟩ := h
  cases h
  exact ⟨out, hf, hout, rfl⟩

/-- A checkpoint fixes the state after it, whatever came before. -/
theorem applyVerified_checkpoint {st st' gs : State} {a : Aum} (hk : a.messageKind = .checkpoint)
    (hs : a.state = some gs) (h : st.applyVerified a = .ok st') : st' = gs.withLastAum a := by
  simp only [State.applyVerified, State.applyKind, hk, hs, bind_eq_ok, okOr_some, ok_bind] at h
  obtain ⟨-, -, out, ⟨-, -, hout⟩, h⟩ := h
  cases hout
  cases h
  rfl

theorem applyVerified_lastAumHash {s s' : State} {a : Aum} (h : s.applyVerified a = .ok s') :
    s'.lastAumHash = some a.hash.bytes := by
  obtain ⟨out, -, -, rfl⟩ := applyVerified_eq_ok h
  rfl

theorem anchorState_eq_ok {g : Aum} {st : State} (h : anchorState g = .ok st) :
    g.messageKind = .checkpoint ∧ ∃ s, g.state = some s ∧ st = s.withLastAum g := by
  simp only [anchorState, bind_eq_ok, ensure_eq_ok, okOr_eq_ok, beq_iff_eq] at h
  obtain ⟨-, hk, s, hs, -, -, h⟩ := h
  cases h
  exact ⟨hk, s, hs, rfl⟩

namespace Contents

instance : LE Contents := ⟨fun m n => ∀ a, a ∈ m → a ∈ n⟩

theorem le_refl (m : Contents) : m ≤ m := fun _ h => h

theorem le_trans {m n k : Contents} (h : m ≤ n) (h' : n ≤ k) : m ≤ k := fun a ha => h' a (h a ha)

theorem le_add (m : Contents) (a : Aum) : m ≤ m.add a := fun _ hb => mem_add.mpr (Or.inl hb)

theorem le_addAll (m : Contents) (as : List Aum) : m ≤ m.addAll as := by
  induction as generalizing m with
  | nil => exact le_refl m
  | cons a as ih => exact le_trans (le_add m a) (ih (m.add a))

end Contents

/-- A verified chain, newest AUM first, and the state after it. -/
inductive Chain (m : Contents) (g : Aum) : List Aum → State → Prop
  | genesis {st : State} (hg : g ∈ m) (h : anchorState g = .ok st) : Chain m g [g] st
  | step {p a : Aum} {l : List Aum} {st st' : State} (hc : Chain m g (p :: l) st) (ha : a ∈ m)
      (hp : a.parent = some p.hash) (hv : verifyAum a st false = .ok ())
      (happ : st.applyVerified a = .ok st') : Chain m g (a :: p :: l) st'

/-- The parent of the genesis, if it names one, is not stored. -/
def Anchored (m : Contents) (g : Aum) : Prop := ∀ h, g.parent = some h → m.get h = none

/-- A store with one genesis, from which each message has a valid chain. -/
structure Sound (m : Contents) (g : Aum) : Prop where
  genesis : g ∈ m
  anchored : Anchored m g
  valid : ∀ a, a ∈ m → ∃ l st, Chain m g (a :: l) st

def Bounded (m : Contents) (g : Aum) : Prop :=
  ∀ l st, Chain m g l st → l.length ≤ maxScanIterations

namespace Chain
variable {m n : Contents} {g : Aum}

variable {l : List Aum} {st : State} {a b : Aum}

theorem mem (h : Chain m g l st) (ha : a ∈ l) : a ∈ m := by
  induction h with
  | genesis hg => rwa [mem_singleton.mp ha]
  | step _ hm _ _ _ ih =>
    rcases mem_cons.mp ha with rfl | ha
    · exact hm
    · exact ih ha

theorem mono (hmn : m ≤ n) (h : Chain m g l st) : Chain n g l st := by
  induction h with
  | genesis hg h => exact .genesis (hmn _ hg) h
  | step _ ha hp hv happ ih => exact .step ih (hmn _ ha) hp hv happ

theorem lastAumHash (h : Chain m g (a :: l) st) : st.lastAumHash = some a.hash.bytes := by
  cases h with
  | genesis _ h =>
    obtain ⟨-, s, -, rfl⟩ := anchorState_eq_ok h
    rfl
  | step _ _ _ _ happ => exact applyVerified_lastAumHash happ

theorem not_child_of_anchored (ha : Anchored m g) {p : Aum} (hp : p ∈ m) :
    g.parent ≠ some p.hash := by
  intro h
  have := ha _ h
  rw [mem_iff.mp hp] at this
  cases this

/-- The way up fixes the state; from an anchored genesis there is only one. -/
theorem unique (h : Chain m g (a :: l) st) : ∀ {l' : List Aum} {st' : State},
    Chain m g (a :: l') st' → st = st' ∧ (Anchored m g → l = l') := by
  generalize hal : a :: l = al at h
  have hgen : ∀ {st0 st1 st2 : State}, anchorState g = .ok st0 → st1.applyVerified g = .ok st2 →
      st0 = st2 := by
    intro st0 st1 st2 hs happ
    obtain ⟨hk, gs, hgs, rfl⟩ := anchorState_eq_ok hs
    exact (applyVerified_checkpoint hk hgs happ).symm
  induction h generalizing a l with
  | genesis hg hs =>
    intro l' st' h'
    obtain ⟨rfl, rfl⟩ := cons.inj hal
    cases h' with
    | genesis _ hs' => exact ⟨Except.ok.inj (hs.symm.trans hs'), fun _ => rfl⟩
    | step hc' _ hp' _ happ' =>
      exact ⟨hgen hs happ', fun hanch =>
        absurd hp' (not_child_of_anchored hanch (hc'.mem mem_cons_self))⟩
  | @step p b l1 st1 st2 hc hb hp hv happ ih =>
    intro l' st' h'
    obtain ⟨rfl, rfl⟩ := cons.inj hal
    cases h' with
    | genesis _ hs' =>
      exact ⟨(hgen hs' happ).symm, fun hanch =>
        absurd hp (not_child_of_anchored hanch (hc.mem mem_cons_self))⟩
    | @step q _ l2 st3 _ hc' _ hp' hv' happ' =>
      have hpq : p = q := eq_of_hash (hc.mem mem_cons_self)
        (hc'.mem mem_cons_self) (Option.mem_unique hp hp')
      subst hpq
      obtain ⟨rfl, hl⟩ := ih rfl hc'
      exact ⟨Except.ok.inj (happ.symm.trans happ'), fun hanch => by rw [hl hanch]⟩

theorem of_cons (h : Chain m g (a :: b :: l) st) :
    ∃ st', Chain m g (b :: l) st' ∧ a.parent = some b.hash ∧ verifyAum a st' false = .ok () ∧
      st'.applyVerified a = .ok st := by
  cases h with
  | step hc _ hp hv happ => exact ⟨_, hc, hp, hv, happ⟩

theorem of_append {u : List Aum} (h : Chain m g (u ++ b :: l) st) :
    ∃ st', Chain m g (b :: l) st' := by
  induction u generalizing st with
  | nil => exact ⟨st, h⟩
  | cons a u ih =>
    cases u with
    | nil | cons =>
      obtain ⟨st', h', -⟩ := of_cons h
      exact ih h'

theorem suffix (h : Chain m g l st) (hb : b ∈ l) :
    ∃ l' st', Chain m g (b :: l') st' ∧ (b :: l') <:+ l := by
  obtain ⟨u, l', rfl⟩ := append_of_mem hb
  obtain ⟨st', h'⟩ := h.of_append
  exact ⟨l', st', h', suffix_append _ _⟩

theorem nodup (hanch : Anchored m g) (h : Chain m g l st) : l.Nodup := by
  induction h with
  | genesis => exact nodup_singleton _
  | step hc ha hp hv happ ih =>
    refine nodup_cons.mpr ⟨fun hmem => ?_, ih⟩
    obtain ⟨l', st', h', hs⟩ := hc.suffix hmem
    have := (unique (.step hc ha hp hv happ) h').2 hanch
    have hlen := hs.length_le
    rw [← this] at hlen
    simp at hlen

theorem getLast (h : Chain m g l st) (d : Aum) : l.getLastD d = g := by
  induction h with
  | genesis => rfl
  | step _ _ _ _ _ ih => simpa using ih

end Chain

section Forest
variable {m : Contents} {g : Aum}

theorem Sound.extend (h : Sound m g) {p c : Aum} {l : List Aum} {st : State}
    (hp : Chain m g (p :: l) st) (hc : c ∈ m) (hpar : c.parent = some p.hash) :
    ∃ st', Chain m g (c :: p :: l) st' ∧ verifyAum c st false = .ok () ∧
      st.applyVerified c = .ok st' := by
  have hpm := hp.mem mem_cons_self
  obtain ⟨l', st', h'⟩ := h.valid c hc
  cases h' with
  | genesis => exact absurd hpar (Chain.not_child_of_anchored h.anchored hpm)
  | @step q _ _ st1 _ hq hc hpq hv happ =>
    have hqp : q = p := eq_of_hash (hq.mem mem_cons_self) hpm
      (Option.mem_unique hpq hpar)
    subst hqp
    obtain ⟨rfl, hl⟩ := hp.unique hq
    obtain rfl := hl h.anchored
    exact ⟨st', .step hp hc hpar hv happ, hv, happ⟩

theorem Sound.genesis_chain (h : Sound m g) : ∃ st, Chain m g [g] st := by
  obtain ⟨l, st, hl⟩ := h.valid g h.genesis
  cases hl with
  | genesis hg hs => exact ⟨st, .genesis hg hs⟩
  | step hc _ hp =>
    exact absurd hp (Chain.not_child_of_anchored h.anchored (hc.mem mem_cons_self))

open Classical in
noncomputable def height (m : Contents) (g a : Aum) : ℕ :=
  if h : ∃ l st, Chain m g (a :: l) st then h.choose.length else 0

theorem height_eq (hanch : Anchored m g) {a : Aum} {l : List Aum} {st : State}
    (h : Chain m g (a :: l) st) : height m g a = l.length := by
  have hex : ∃ l st, Chain m g (a :: l) st := ⟨l, st, h⟩
  obtain ⟨st', h'⟩ := hex.choose_spec
  unfold height
  rw [dif_pos hex, (h.unique h').2 hanch]

/-- The forest of the stored AUMs, ordered by fork resolution in the parent's state. -/
noncomputable def forest (h : Sound m g) : Forest Aum where
  Child := fun p c => p ∈ m ∧ c ∈ m ∧ c.parent = some p.hash
  rank := height m g
  lt := fun p a b => ∃ l st, Chain m g (p :: l) st ∧ compareCandidates st a b = .lt
  rank_child := by
    rintro p c ⟨hp, hc, hpar⟩
    obtain ⟨l, st, hl⟩ := h.valid p hp
    obtain ⟨st', hl', -⟩ := h.extend hl hc hpar
    rw [height_eq h.anchored hl', height_eq h.anchored hl, length_cons]
  asymm := by
    rintro p a b - - ⟨l, st, hl, hab⟩ ⟨l', st', hl', hba⟩
    obtain ⟨rfl, -⟩ := hl.unique hl'
    rw [Std.OrientedCmp.gt_of_lt hab] at hba
    cases hba
  trans := by
    rintro p a b c - - - ⟨l, st, hl, hab⟩ ⟨l', st', hl', hbc⟩
    obtain ⟨rfl, -⟩ := hl.unique hl'
    exact ⟨l, st, hl, Std.TransCmp.lt_trans hab hbc⟩
  total := by
    rintro p a b ⟨hp, ha, -⟩ ⟨-, hb, -⟩ hne
    obtain ⟨l, st, hl⟩ := h.valid p hp
    cases hcmp : compareCandidates st a b with
    | lt => exact Or.inl ⟨l, st, hl, hcmp⟩
    | eq => exact absurd (eq_of_hash ha hb (hash_eq_of_compareCandidates hcmp)) hne
    | gt => exact Or.inr ⟨l, st, hl, Std.OrientedCmp.lt_of_gt hcmp⟩

def Contents.toSet (m : Contents) : Set Aum := {a | a ∈ m}

/-- Sound storage within sound storage holds the parents of what it holds. -/
theorem Sound.closed {M : Contents} (hM : Sound M g) (hm : Sound m g) (hle : m ≤ M) :
    (forest hM).Closed m.toSet := by
  rintro p c ⟨hp, -, hpar⟩ hc
  obtain ⟨l, st, hl⟩ := hm.valid c hc
  cases hl with
  | genesis => exact absurd hpar (Chain.not_child_of_anchored hM.anchored hp)
  | step hq _ hpq =>
    have hqm := hq.mem mem_cons_self
    have hqp := eq_of_hash (hle _ hqm) hp (Option.mem_unique hpq hpar)
    exact hqp ▸ hqm

end Forest

end Rustscale.Tka
