import Rustscale.Tka.Reach

/-! Even if hashes collide, the state is that of a verified chain from the genesis through storage.
-/
namespace Rustscale.Tka
open Checks LawfulChonk List Contents Chonk Authority
variable [Crypto] {σ : Type} [LawfulChonk σ] {s : σ} {g : Aum}

/-- The genesis is stored, anchors a chain, and alone has no stored parent. -/
structure Linked (m : Contents) (g : Aum) : Prop where
  genesis : g ∈ m
  anchor : ∃ st, anchorState g = .ok st
  parent : ∀ a, a ∈ m → a = g ∨ ∃ p, p ∈ m ∧ a.parent = some p.hash

theorem Linked.add {m : Contents} (h : Linked m g) {u : Aum} {x : AumHash}
    (hp : u.parent = some x) (hx : (m.get x).isSome) : Linked (m.add u) g := by
  obtain ⟨p, hget⟩ := Option.isSome_iff_exists.mp hx
  have hle := le_add m u
  refine ⟨hle g h.genesis, h.anchor, fun a ha => ?_⟩
  rcases mem_add.mp ha with ha | ⟨rfl, -⟩
  · exact (h.parent a ha).imp id fun ⟨q, hq, hpar⟩ => ⟨q, hle q hq, hpar⟩
  · exact Or.inr ⟨p, hle p (mem_of_get hget), by rw [hp, m.keyed x p hget]⟩

theorem Linked.pathFrom (h : Linked (contents s) g) {fuel : ℕ} {a : Aum} {seen : List AumHash}
    {path : List Aum} (ha : a ∈ contents s) (hp : pathFrom s fuel a seen = .ok path) (d : Aum) :
    path.getLastD d = g := by
  obtain ⟨t, rfl, hanc, hlast⟩ := pathFrom_spec ha hp
  rw [getLastD_cons]
  refine (h.parent _ (hanc.mem getLastD_mem_cons)).resolve_right ?_
  rintro ⟨p, hpm, hpar⟩
  exact hlast p hpm hpar

theorem Linked.collectRoots (h : Linked (contents s) g) {hint : Option AumHash}
    {heads : List Aum} {roots roots' : Roots} (hmem : ∀ a ∈ heads, a ∈ contents s)
    (hr : roots = ∅ ∧ heads ≠ [] ∨ roots.Single g)
    (hc : collectRoots s hint roots heads = .ok roots') : roots'.Single g := by
  induction heads generalizing roots with
  | nil =>
    cases hc
    exact hr.elim (fun h => absurd rfl h.2) id
  | cons a heads ih =>
    simp only [Tka.collectRoots, bind_eq_ok] at hc
    obtain ⟨path, hpath, hc⟩ := hc
    rw [h.pathFrom (hmem a mem_cons_self) hpath] at hc
    refine ih (fun b hb => hmem b (mem_cons_of_mem _ hb)) (Or.inr ?_) hc
    rcases hr with ⟨rfl, -⟩ | hr
    · exact Roots.add_empty g _
    · exact hr.add _

theorem Linked.stateAt (h : Linked (contents s) g) {st : State}
    (hst : stateAt s g.hash = .ok st) : anchorState g = .ok st := by
  simp only [Tka.stateAt, aum_of_mem h.genesis, mapError_ok, ok_bind, bind_eq_ok] at hst
  obtain ⟨path, hpath, hst⟩ := hst
  obtain ⟨t, rfl, hanc, hlast⟩ := pathFrom_spec h.genesis hpath
  obtain rfl : t = [] := by
    cases hanc with
    | single => rfl
    | @cons _ p _ hanc' _ hg =>
      -- with a stored parent of the genesis no path would end
      refine absurd hpath (pathFrom_ne_ok (fun a ha => ?_) h.genesis)
      rcases h.parent a ha with rfl | hp
      · exact ⟨p, hanc'.mem mem_cons_self, hg⟩
      · exact hp
  simp only [reverse_singleton, replay, bind_eq_ok] at hst
  obtain ⟨st', hanchor, hst⟩ := hst
  cases hst
  exact hanchor

theorem forwardFrom_chain (fuel : ℕ) {a head : Aum} {l : List Aum} {st st' : State}
    (hc : Chain (contents s) g (a :: l) st) (h : forwardFrom s fuel a st = .ok (head, st')) :
    ∃ l', Chain (contents s) g (head :: l') st' := by
  induction fuel generalizing a l st with
  | zero => cases h
  | succ fuel ih =>
    obtain ⟨children, hrun, hmem⟩ := childAums_spec s a.hash
    simp only [forwardFrom, hrun, mapError_ok, ok_bind] at h
    cases children with
    | nil =>
      cases h
      exact ⟨l, hc⟩
    | cons c cs =>
      simp only [bind_eq_ok, mapError_eq_ok] at h
      obtain ⟨_, hv, next, happ, h⟩ := h
      have hpick := (pickNext_spec st c cs).1
      obtain ⟨hin, hpar⟩ := (hmem _).mp hpick
      exact ih (.step hc hin hpar (verifyAll_eq_ok_iff.mp hv _ hpick) happ) h

theorem Linked.open_chain (h : Linked (contents s) g) {A : Authority}
    (hA : Authority.open s = .ok A) : ∃ l, Chain (contents s) g (A.head :: l) A.state := by
  obtain ⟨heads, hheads, hmem⟩ := heads_spec s
  simp only [Authority.open, hheads, mapError_ok, ok_bind, bind_eq_ok, ensure_eq_ok] at hA
  obtain ⟨_, hne, hint, -, roots, hroots, oldest, holdest, ⟨head, st⟩, hforward, hA⟩ := hA
  have hsingle := h.collectRoots (fun a ha => ((hmem a).mp ha).1)
    (Or.inl ⟨rfl, by simpa using hne⟩) hroots
  rw [selectOldest_single hsingle] at holdest
  cases holdest
  simp only [fastForward, bind_eq_ok] at hforward
  obtain ⟨st0, hst0, hforward⟩ := hforward
  cases hA
  exact forwardFrom_chain _ (.genesis h.genesis (h.stateAt hst0)) hforward

/-- Staging keeps every update linked to the genesis. -/
theorem stage_linked (us : List Aum) {index : ℕ} {states : AumHash → Option State}
    {staged out : List Aum} (hl : Linked ((contents s).addAll staged) g)
    (hstates : ∀ x, (states x).isSome → (((contents s).addAll staged).get x).isSome)
    (h : stage s index states staged us = .ok out) : Linked ((contents s).addAll out) g := by
  induction us generalizing index states staged with
  | nil =>
    cases h
    exact hl
  | cons u us ih =>
    cases hget : (contents s).get u.hash with
    | some b =>
      have haum : aum s u.hash = .ok b := by rw [aum_eq, hget]
      rw [stage, haum] at h
      exact ih hl hstates h
    | none =>
      obtain ⟨x, st, st', hpar, hst, -, -, hrest⟩ := (stage_cons_new hget ..).mp h
      have hx : (((contents s).addAll staged).get x).isSome := by
        unfold parentState at hst
        cases hsx : states x with
        | some st1 => exact hstates x (by rw [hsx]; rfl)
        | none =>
          simp only [hsx, stateAt, bind_eq_ok, mapError_eq_ok] at hst
          obtain ⟨p, hp, -⟩ := hst
          obtain ⟨hpm, rfl⟩ := mem_of_aum hp
          rw [mem_iff.mp (le_addAll _ staged p hpm)]
          rfl
      have hadd : (contents s).addAll (staged ++ [u]) = ((contents s).addAll staged).add u := by
        simp [addAll, foldl_append]
      refine ih (by rw [hadd]; exact hl.add hpar hx) (fun y hy => ?_) hrest
      rw [hadd]
      by_cases hyu : y = u.hash
      · simp [add, hyu]
      · rw [Function.update_of_ne hyu] at hy
        simpa [add, hyu] using hstates y hy

/-- A successful delivery leaves the store linked and the authority as it reopens. -/
theorem Linked.inform (h : Linked (contents s) g) {A A' : Authority} {s' : σ} {us : List Aum}
    (hA : A.head ∈ contents s) (hi : A.inform s us = (.ok (), s', A')) :
    Linked (contents s') g ∧ Authority.open s' = .ok A' := by
  unfold Authority.inform at hi
  split_ifs at hi
  · cases hi
  · cases hstage : stage s 0 A.initialStates [] us with
    | error e =>
      rw [hstage] at hi
      cases hi
    | ok staged =>
      obtain ⟨s1, n, hstore, hc⟩ := store_spec s staged fun u hu b hb => by
        rw [stage_eq_fresh us hstage, nil_append] at hu
        rw [Option.isNone_iff_eq_none.mp (mem_filter.mp hu).2] at hb
        cases hb
      have hl : Linked ((contents s).addAll staged) g := by
        have h0 : Linked ((contents s).addAll []) g := h
        refine stage_linked us h0 (fun x hx => ?_) hstage
        unfold initialStates at hx
        by_cases hxh : x = A.head.hash
        · rw [hxh]
          change ((contents s).get _).isSome
          rw [mem_iff.mp hA]
          rfl
        · rw [Function.update_of_ne hxh] at hx
          cases hx
      cases hopen : Authority.open s1 with
      | error e =>
        simp only [hstage, hstore, hopen] at hi
        cases hi
      | ok B =>
        simp only [hstage, hstore, hopen] at hi
        cases hi
        exact ⟨hc ▸ hl, hopen⟩

/-- Through any history the storage stays linked and the authority is that of the storage. -/
theorem Reach.linked {W : Set Aum} {A : Authority} (h : Reach W g s A) :
    Linked (contents s) g ∧ Authority.open s = .ok A := by
  induction h with
  | bootstrap hempty _ hb =>
    obtain ⟨⟨gs, hk, hs, hv⟩, -, hopen⟩ := bootstrap_spec hempty hb
    have hmem := bootstrap_contents hempty hb
    exact ⟨⟨(hmem g).mpr rfl, ⟨_, anchorState_of_verify hk hs hv⟩,
      fun a ha => Or.inl ((hmem a).mp ha)⟩, hopen⟩
  | inform _ _ hi ih =>
    obtain ⟨l, hl⟩ := ih.1.open_chain ih.2
    exact ih.1.inform (hl.mem mem_cons_self) hi

theorem Reach.chain {W : Set Aum} {A : Authority} (h : Reach W g s A) :
    ∃ l, Chain (contents s) g (A.head :: l) A.state :=
  h.linked.1.open_chain h.linked.2

end Rustscale.Tka
