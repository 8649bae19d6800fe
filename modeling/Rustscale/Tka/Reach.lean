import Rustscale.Tka.Inform

/-! Over whole histories, an authority is what opening its storage gives. -/
namespace Rustscale.Tka
open Checks ForkChoice LawfulChonk Authority Contents List

section Histories
variable [Crypto] {σ : Type} [LawfulChonk σ] {s : σ} {g : Aum} {W : Set Aum}

/-- A path leads up through storage to an AUM without a stored parent. -/
theorem pathFrom_spec {fuel : ℕ} {a : Aum} {seen : List AumHash} {path : List Aum}
    (ha : a ∈ contents s) (h : pathFrom s fuel a seen = .ok path) :
    ∃ t, path = a :: t ∧ Ancestry (contents s) (a :: t) ∧
      ∀ p, p ∈ contents s → (t.getLastD a).parent ≠ some p.hash := by
  induction fuel generalizing a seen path with
  | zero => cases h
  | succ fuel ih =>
    simp only [pathFrom] at h
    split_ifs at h
    cases hpar : a.parent with
    | none =>
      rw [hpar] at h
      cases h
      exact ⟨[], rfl, .single ha, by simp [hpar]⟩
    | some x =>
      cases hget : (contents s).get x with
      | some b =>
        simp only [hpar, aum_eq, hget, bind_eq_ok] at h
        obtain ⟨rest, hrest, h⟩ := h
        cases h
        obtain ⟨t, rfl, hanc, hlast⟩ := ih (mem_of_get hget) hrest
        refine ⟨b :: t, rfl, .cons hanc ha ?_, by rwa [getLastD_cons]⟩
        rw [hpar, (contents s).keyed x b hget]
      | none =>
        simp only [hpar, aum_of_get_none hget] at h
        split_ifs at h
        cases h
        refine ⟨[], rfl, .single ha, fun p hp hx => ?_⟩
        rw [← Option.some.inj (hx.symm.trans hpar), mem_iff.mp hp] at hget
        cases hget

theorem pathFrom_ne_ok (h : ∀ a, a ∈ contents s → ∃ p, p ∈ contents s ∧ a.parent = some p.hash)
    {fuel : ℕ} {a : Aum} {seen : List AumHash} {path : List Aum} (ha : a ∈ contents s) :
    pathFrom s fuel a seen ≠ .ok path := by
  intro hp
  obtain ⟨t, -, hanc, hlast⟩ := pathFrom_spec ha hp
  obtain ⟨p, hpm, hpar⟩ := h _ (hanc.mem getLastD_mem_cons)
  exact hlast p hpm hpar

variable {A : Authority} {s0 : σ}

theorem exists_head_of_open (h : Authority.open s = .ok A) :
    ∃ a path, a ∈ contents s ∧ (∀ b, b ∈ contents s → b.parent ≠ some a.hash) ∧
      pathToRoot s a = .ok path := by
  obtain ⟨heads, hheads, hmem⟩ := heads_spec s
  simp only [Authority.open, hheads, mapError_ok, ok_bind, bind_eq_ok, ensure_eq_ok] at h
  obtain ⟨-, hne, hint, -, roots, hroots, -⟩ := h
  cases heads with
  | nil => cases hne
  | cons a rest =>
    obtain ⟨path, hpath⟩ := collectRoots_path hroots a mem_cons_self
    exact ⟨a, path, ((hmem a).mp mem_cons_self).1, ((hmem a).mp mem_cons_self).2, hpath⟩

theorem anchored_of_open (hr : Rooted (contents s) g) (h : Authority.open s = .ok A) :
    Anchored (contents s) g := by
  by_contra hn
  obtain ⟨a, path, ha, -, hpath⟩ := exists_head_of_open h
  exact pathFrom_ne_ok (fun b hb => hr.parent_of_not_anchored hn hb) ha hpath

omit [Crypto] in
theorem reverse_append_eq (w : List Aum) (g : Aum) : ∃ t, w.reverse ++ [g] = w.getLastD g :: t := by
  rcases eq_nil_or_concat w with rfl | ⟨t, y, rfl⟩
  · exact ⟨[], rfl⟩
  · exact ⟨t.reverse ++ [g], by simp⟩

theorem open_of_short (hr : Rooted (contents s) g) (hshort : Short (contents s)) :
    ∃ A, Authority.open s = .ok A := by
  have hs := hr.sound (hshort.anchored hr)
  obtain ⟨st0, h0⟩ := hs.genesis_chain
  obtain ⟨w, hw⟩ := exists_walk hs (le_refl _) hs ((finite s).toFinset.card + 1) h0 (by omega)
  obtain ⟨st, hopen, -⟩ := open_eq_ok hs (le_refl _) hs hshort.bounded hw
  exact ⟨_, hopen⟩

/-- An authority and its storage after any history of AUMs from `W`. -/
structure Live (W : Set Aum) (g : Aum) (s : σ) (A : Authority) : Prop where
  sound : Sound (contents s) g
  within : ∀ a, a ∈ contents s → a ∈ W
  opened : Authority.open s = .ok A

namespace Live
variable {A : Authority}

section
variable (h : Live W g s A)
include h

theorem bounded : Bounded (contents s) g := bounded_of_open h.sound h.opened

theorem short : Short (contents s) := h.bounded.short h.sound

/-- The active chain is the walk from the genesis, in any storage that holds this one. -/
theorem walk {M : Contents} (hM : Sound M g) (hle : contents s ≤ M) :
    ∃ w, (forest hM).Walk (contents s).toSet g w ∧ A.head = w.getLastD g ∧
      A.oldestAncestor = g ∧ Chain (contents s) g (w.reverse ++ [g]) A.state := by
  obtain ⟨st0, h0⟩ := h.sound.genesis_chain
  obtain ⟨w, hw⟩ := exists_walk hM hle h.sound ((finite s).toFinset.card + 1) h0 (by omega)
  obtain ⟨st, hopen, hchain⟩ := open_eq_ok hM hle h.sound h.bounded hw
  rw [h.opened] at hopen
  cases hopen
  exact ⟨w, hw, rfl, rfl, hchain⟩

theorem chain : ∃ l, Chain (contents s) g (A.head :: l) A.state := by
  obtain ⟨w, -, hhead, -, hl⟩ := h.walk h.sound (le_refl _)
  obtain ⟨t, ht⟩ := reverse_append_eq w g
  exact ⟨t, by rwa [hhead, ← ht]⟩

theorem staging : Staging s g W (contents s) A.initialStates [] := by
  obtain ⟨l, hl⟩ := h.chain
  refine ⟨rfl, fun u hu => absurd hu List.not_mem_nil, h.within, h.sound.rooted,
    fun x st hx => ?_, fun a ha hn => absurd ha hn⟩
  unfold initialStates at hx
  by_cases hxh : x = A.head.hash
  · rw [hxh, Function.update_self] at hx
    cases hx
    exact ⟨A.head, l, hxh.symm, hl⟩
  · rw [Function.update_of_ne hxh] at hx
    cases hx

/-- Everything `inform` can do: accept the batch, store a valid one that makes a chain too long and
fail, or reject it and change nothing. -/
theorem inform_cases (hW : Set.InjOn Aum.hash W) {us : List Aum} (hus : ∀ u ∈ us, u ∈ W) :
    (us ≠ [] ∧ Extends (contents s) g us ∧ Short ((contents s).addAll us) ∧
      ∃ s' A', A.inform s us = (.ok (), s', A') ∧ contents s' = (contents s).addAll us ∧
        Live W g s' A') ∨
    (us ≠ [] ∧ Extends (contents s) g us ∧ ¬ Short ((contents s).addAll us) ∧
      ∃ e s', A.inform s us = (.error e, s', A) ∧ contents s' = (contents s).addAll us ∧
        Authority.open s' = .error e) ∨
    ((us = [] ∨ ¬ Extends (contents s) g us) ∧ ∃ e, A.inform s us = (.error e, s, A)) := by
  by_cases hnil : us = []
  · exact Or.inr (Or.inr ⟨Or.inl hnil, _, by rw [hnil]; rfl⟩)
  have hempty : us.isEmpty = false := by simpa using hnil
  obtain ⟨hto, hfrom⟩ := stage_iff h.sound h.bounded hW us 0 h.staging hus
  by_cases hx : Extends (contents s) g us
  · obtain ⟨staged, hstage⟩ := hfrom hx
    obtain ⟨-, heq, hfresh⟩ := hto staged hstage
    obtain ⟨s', n, hstore, hcontents⟩ := store_spec s staged fun u hu b hb => by
      rw [hfresh u hu] at hb
      cases hb
    rw [heq] at hcontents
    have hr : Rooted (contents s') g := hcontents ▸ h.sound.rooted.addAll hx
    by_cases hshort : Short ((contents s).addAll us)
    · rw [← hcontents] at hshort
      have hs' := hr.sound (hshort.anchored hr)
      obtain ⟨A', hopen⟩ := open_of_short hr hshort
      refine Or.inl ⟨hnil, hx, hcontents ▸ hshort, s', A', ?_, hcontents, hs', fun a ha => ?_,
        hopen⟩
      · simp [inform, hempty, hstage, hstore, hopen]
      · rw [hcontents, mem_addAll hW h.within hus] at ha
        exact ha.elim (h.within a) (hus a)
    · have herr : ∃ e, Authority.open s' = .error e := exists_error fun A' hA' => by
        have hs' := hr.sound (anchored_of_open hr hA')
        apply hshort
        rw [← hcontents]
        exact (bounded_of_open hs' hA').short hs'
      obtain ⟨e, he⟩ := herr
      refine Or.inr (Or.inl ⟨hnil, hx, hshort, e, s', ?_, hcontents, he⟩)
      simp [inform, hempty, hstage, hstore, he]
  · obtain ⟨e, he⟩ := exists_error fun out hout => hx (hto out hout).1
    refine Or.inr (Or.inr ⟨Or.inr hx, e, ?_⟩)
    simp [inform, hempty, he]

end

end Live

theorem anchorState_of_verify {gs : State} (hk : g.messageKind = .checkpoint)
    (hs : g.state = some gs) (hv : verifyAum g gs true = .ok ()) :
    anchorState g = .ok (gs.withLastAum g) := by
  have hanchor : checkAnchor g gs = .ok () := by
    unfold checkAnchor
    split_ifs
    · simp only [verifyAum, bind_eq_ok] at hv
      obtain ⟨_, hval, _, -, _, hsig, -⟩ := hv
      rw [ensure_eq_ok] at hsig
      simp only [hval, hsig, ok_bind, ensure_true]
    · exact hv
  simp only [anchorState, hk, hs, beq_self_eq_true, ensure_true, ok_bind, okOr_some, hanchor]
  rfl

theorem checkBootstrap_eq_ok (h : checkBootstrap s g = .ok ()) :
    ∃ gs, g.messageKind = .checkpoint ∧ g.state = some gs ∧ verifyAum g gs true = .ok () := by
  simp only [checkBootstrap, bind_eq_ok, ensure_eq_ok, okOr_eq_ok, beq_iff_eq] at h
  obtain ⟨-, -, -, -, -, hk, gs, hs, hv⟩ := h
  exact ⟨gs, hk, hs, hv⟩

section
variable (hempty : contents s0 = Contents.empty) (h : Authority.bootstrap s0 g = (.ok A, s))
include hempty h

/-- A successful bootstrap of empty storage stores the genesis and opens it. -/
theorem bootstrap_spec :
    (∃ gs, g.messageKind = .checkpoint ∧ g.state = some gs ∧ verifyAum g gs true = .ok ()) ∧
      contents s = Contents.empty.add g ∧ Authority.open s = .ok A := by
  unfold bootstrap at h
  obtain ⟨s1, n, hstore, hc1⟩ := store_spec s0 [g] fun a _ b hb => by
    rw [hempty] at hb
    cases hb
  obtain ⟨s2, hset, hc2⟩ := set_spec s1 g.hash
  cases hcheck : checkBootstrap s0 g with
  | error e =>
    rw [hcheck] at h
    cases h
  | ok u =>
    simp only [hcheck, hstore, hset, Prod.mk.injEq] at h
    obtain ⟨hopen, rfl⟩ := h
    exact ⟨checkBootstrap_eq_ok hcheck, by rw [hc2, hc1, hempty]; rfl, hopen⟩

theorem bootstrap_contents (a : Aum) : a ∈ contents s ↔ a = g := by
  rw [(bootstrap_spec hempty h).2.1, mem_add]
  simp [empty, mem_iff]

end

theorem Rooted.single {m : Contents} (hmem : ∀ a, a ∈ m ↔ a = g) {st : State}
    (h : anchorState g = .ok st) : Rooted m g :=
  ⟨(hmem g).mpr rfl, fun a ha => by
    rw [(hmem a).mp ha]
    exact ⟨[], _, .genesis ((hmem g).mpr rfl) h⟩⟩

theorem exists_bootstrap (hempty : contents s0 = Contents.empty)
    (hcheck : checkBootstrap s0 g = .ok ()) (hroot : g.parent = none) :
    ∃ A s, Authority.bootstrap s0 g = (.ok A, s) := by
  obtain ⟨s1, n, hstore, hc1⟩ := store_spec s0 [g] fun a _ b hb => by
    rw [hempty] at hb
    cases hb
  obtain ⟨s2, hset, hc2⟩ := set_spec s1 g.hash
  obtain ⟨gs, hk, hs, hv⟩ := checkBootstrap_eq_ok hcheck
  have hmem : ∀ a, a ∈ contents s2 ↔ a = g := fun a => by
    rw [hc2, hc1, hempty, addAll_cons, addAll_nil, mem_add]
    simp [empty, mem_iff]
  have hr := Rooted.single hmem (anchorState_of_verify hk hs hv)
  have hshort : Short (contents s2) := by
    intro l hl
    cases hl with
    | single => exact (by decide : 1 ≤ maxScanIterations)
    | cons _ ha hp =>
      rw [(hmem _).mp ha, hroot] at hp
      cases hp
  obtain ⟨A, hA⟩ := open_of_short hr hshort
  exact ⟨A, s2, by simp only [bootstrap, hcheck, hstore, hset, hA]⟩

theorem bootstrap_live (hempty : contents s0 = Contents.empty) (hg : g ∈ W)
    (h : Authority.bootstrap s0 g = (.ok A, s)) : Live W g s A := by
  obtain ⟨⟨gs, hk, hs, hv⟩, -, hopen⟩ := bootstrap_spec hempty h
  have hmem := bootstrap_contents hempty h
  have hr := Rooted.single hmem (anchorState_of_verify hk hs hv)
  exact ⟨hr.sound (anchored_of_open hr hopen), fun a ha => (hmem a).mp ha ▸ hg, hopen⟩

/-- The histories over the genesis `g`, with AUMs from `W` in circulation. -/
inductive Reach (W : Set Aum) (g : Aum) : σ → Authority → Prop
  | bootstrap {s0 s : σ} {A : Authority} (hempty : contents s0 = empty) (hg : g ∈ W)
      (h : bootstrap s0 g = (.ok A, s)) : Reach W g s A
  | inform {s s' : σ} {A A' : Authority} {us : List Aum} (h : Reach W g s A)
      (hus : ∀ u ∈ us, u ∈ W) (hi : A.inform s us = (.ok (), s', A')) : Reach W g s' A'

theorem Live.inform {A' : Authority} {s' : σ} (h : Live W g s A) (hW : Set.InjOn Aum.hash W)
    {us : List Aum} (hus : ∀ u ∈ us, u ∈ W) (hi : A.inform s us = (.ok (), s', A')) :
    Live W g s' A' ∧ contents s' = (contents s).addAll us := by
  rcases h.inform_cases hW hus with ⟨-, -, -, s1, A1, hrun, hc, hlive⟩ | ⟨-, -, -, e, s1, hrun, -⟩ |
    ⟨-, e, hrun⟩
  · rw [hi] at hrun
    cases hrun
    exact ⟨hlive, hc⟩
  all_goals
    rw [hi] at hrun
    cases hrun

theorem Reach.live (h : Reach W g s A) (hW : Set.InjOn Aum.hash W) : Live W g s A := by
  induction h with
  | bootstrap hempty hg h => exact bootstrap_live hempty hg h
  | inform _ hus hi ih => exact (ih.inform hW hus hi).1

theorem Reach.create {state : State} {signer : AumSigner} (hempty : contents s0 = empty)
    (hg : g ∈ W) (h : create s0 state signer = (.ok (A, g), s)) : Reach W g s A := by
  unfold Authority.create at h
  simp only at h
  split at h
  · cases h
  · split at h
    · cases h
    · split at h
      · cases h
      · next hb =>
        cases h
        exact .bootstrap hempty hg hb

end Histories

section Toy
/-! A toy scheme: the digest of an AUM is its `votes` field (65535 if it has none and adds a key),
and a signature is the public key followed by the digest. -/

def toyBytes (n : ℕ) : Bytes :=
  BitVec.ofNat 8 n :: BitVec.ofNat 8 (n / 256) :: replicate 30 0

namespace Toy

scoped instance toyCrypto : Crypto where
  digest := fun a =>
    ⟨toyBytes (a.votes.getD (if a.key.isSome then 65535 else 0)), by simp [toyBytes]⟩
  isVerifyingKey := fun key => key.length == 32
  verifyStrict := fun key digest signature => signature == key ++ digest
  verify := fun key digest signature => signature == key ++ digest

end Toy

open Toy

def toyKey (n : ℕ) : Key := ⟨.key25519, 1, toyBytes n, none⟩

def toyState : State := ⟨none, [toyBytes 1], [toyKey 7], 1, 2⟩

def toyGenesis : Aum :=
  { messageKind := .checkpoint, prevAumHash := none, key := none, keyId := none,
    state := some toyState, votes := none, metadata := none,
    signatures := [⟨toyBytes 7, toyBytes 7 ++ toyBytes 0⟩] }

variable (parent : ℕ → ℕ)

/-- Update number `n`, a child of update `parent n`; number zero is the genesis. -/
def toyTree : ℕ → Aum
  | 0 => toyGenesis
  | n + 1 =>
    { messageKind := .noOp, prevAumHash := some (toyBytes (parent (n + 1))), key := none,
      keyId := none, state := none, votes := some (n + 1), metadata := none,
      signatures := [⟨toyBytes 7, toyBytes 7 ++ toyBytes (n + 1)⟩] }

def toyWorld : Set Aum := {a | ∃ n < 65536, a = toyTree parent n}

theorem toyBytes_inj {n m : ℕ} (hn : n < 65536) (hm : m < 65536) (h : toyBytes n = toyBytes m) :
    n = m := by
  simp only [toyBytes, cons.injEq, and_true] at h
  have h0 := congrArg BitVec.toNat h.1
  have h1 := congrArg BitVec.toNat h.2
  simp only [BitVec.toNat_ofNat] at h0 h1
  omega

theorem toyTree_hash (n : ℕ) : (toyTree parent n).hash.bytes = toyBytes n := by
  cases n <;> rfl

theorem toyWorld_injOn : Set.InjOn Aum.hash (toyWorld parent) := by
  rintro a ⟨n, hn, rfl⟩ b ⟨m, hm, rfl⟩ h
  have hb := congrArg AumHash.bytes h
  rw [toyTree_hash, toyTree_hash] at hb
  rw [toyBytes_inj hn hm hb]

theorem toyTree_mem {parent : ℕ → ℕ} {n : ℕ} (hn : n < 65536) :
    toyTree parent n ∈ toyWorld parent := ⟨n, hn, rfl⟩

def toyAuthority : Authority := ⟨toyGenesis, toyGenesis, toyState.withLastAum toyGenesis⟩

def toyStorage : MemChonk := (bootstrap MemChonk.new toyGenesis).2

theorem toy_bootstrap : bootstrap MemChonk.new toyGenesis = (.ok toyAuthority, toyStorage) := rfl

theorem toy_reach : Reach (toyWorld parent) toyGenesis toyStorage toyAuthority :=
  .bootstrap (by rfl) ⟨0, by norm_num, rfl⟩ toy_bootstrap

end Toy

end Rustscale.Tka
