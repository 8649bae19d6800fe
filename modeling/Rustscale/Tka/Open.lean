import Rustscale.Tka.Chain

/-! Opening sound storage fails only on chains longer than the scan limit, and ends at the head that
the walk from the genesis selects. -/
namespace Rustscale.Tka
open Checks ForkChoice LawfulChonk List Contents Chonk
variable [Crypto] {σ : Type} [LawfulChonk σ] {s : σ} {g : Aum}

variable {a : Aum} {h : AumHash} {l : List Aum} {st : State} {M : Contents} {x : Aum} {w : List Aum}
  {roots : Roots}

theorem aum_of_mem (h : a ∈ contents s) : aum s a.hash = .ok a := by
  rw [aum_eq, mem_iff.mp h]

theorem aum_of_get_none (hn : (contents s).get h = none) : aum s h = .error (.notFound h) := by
  rw [aum_eq, hn]

theorem mem_of_aum (ha : aum s h = .ok a) : a ∈ contents s ∧ a.hash = h := by
  rw [aum_eq] at ha
  cases hg : (contents s).get h with
  | none =>
    rw [hg] at ha
    cases ha
  | some b =>
    rw [hg] at ha
    cases ha
    exact ⟨mem_of_get hg, (contents s).keyed h a hg⟩

/-- The walk back to the genesis returns the chain, or runs out at the scan limit. -/
theorem pathFrom_eq (hanch : Anchored (contents s) g) (h : Chain (contents s) g l st) :
    ∀ {fuel : ℕ} {a : Aum} {t : List Aum} {seen : List AumHash},
      l = a :: t → (∀ b ∈ l, b.hash ∉ seen) →
      pathFrom s fuel a seen =
        if l.length ≤ fuel then .ok l else .error (.traversalLimit maxScanIterations) := by
  induction h with
  | genesis hg hs =>
    intro fuel a t seen hl hseen
    obtain ⟨rfl, rfl⟩ := cons.inj hl
    cases fuel with
    | zero => rfl
    | succ fuel =>
      have hnot : seen.contains g.hash = false := by
        simpa using hseen g mem_cons_self
      have hk := (anchorState_eq_ok hs).1
      simp only [pathFrom, hnot, Bool.false_eq_true, if_false]
      cases hp : g.parent with
      | none => simp
      | some x => simp [aum_of_get_none (hanch x hp), ChonkError.isNotFound, hk]
  | @step p b l1 st1 st2 hc hb hp hv happ ih =>
    intro fuel a t seen hl hseen
    obtain ⟨rfl, rfl⟩ := cons.inj hl
    cases fuel with
    | zero => rfl
    | succ fuel =>
      have hnot : seen.contains b.hash = false := by
        simpa using hseen b mem_cons_self
      have hchain : Chain (contents s) g (b :: p :: l1) st2 := .step hc hb hp hv happ
      have hnodup := hchain.nodup hanch
      have hseen' : ∀ x ∈ p :: l1, x.hash ∉ b.hash :: seen := by
        intro x hx hmem
        rcases mem_cons.mp hmem with he | hmem
        · have hxb := eq_of_hash (hc.mem hx) hb he
          exact (nodup_cons.mp hnodup).1 (hxb ▸ hx)
        · exact hseen x (mem_cons_of_mem _ hx) hmem
      simp only [pathFrom, hnot, Bool.false_eq_true, if_false, hp,
        aum_of_mem (hc.mem mem_cons_self), ih rfl hseen']
      by_cases hlen : (p :: l1).length ≤ fuel
      · have : (b :: p :: l1).length ≤ fuel + 1 := Nat.succ_le_succ hlen
        simp only [hlen, this, if_true]
        rfl
      · have : ¬ (b :: p :: l1).length ≤ fuel + 1 := fun hle => hlen (Nat.le_of_succ_le_succ hle)
        simp only [hlen, this, if_false]
        rfl

theorem pathToRoot_eq (hanch : Anchored (contents s) g) (h : Chain (contents s) g (a :: l) st) :
    pathToRoot s a = if (a :: l).length ≤ maxScanIterations then .ok (a :: l)
      else .error (.traversalLimit maxScanIterations) :=
  pathFrom_eq hanch h rfl fun _ _ => not_mem_nil

theorem replay_append {us vs : List Aum} :
    replay st (us ++ vs) = replay st us >>= fun st' => replay st' vs := by
  induction us generalizing st with
  | nil => rfl
  | cons u us ih =>
    simp only [cons_append, replay, ih, bind_assoc]

theorem Chain.replay {m : Contents} (h : Chain m g l st) :
    ∃ st₀ us, l.reverse = g :: us ∧ anchorState g = .ok st₀ ∧ Tka.replay st₀ us = .ok st := by
  induction h with
  | genesis _ hs => exact ⟨_, [], rfl, hs, rfl⟩
  | step _ _ _ hv happ ih =>
    obtain ⟨st₀, us, hrev, hs, hrun⟩ := ih
    refine ⟨st₀, us ++ [_], by rw [reverse_cons, hrev, cons_append], hs, ?_⟩
    rw [replay_append, hrun]
    simp only [ok_bind, Tka.replay, hv, happ, mapError_ok]

theorem stateAt_eq (hanch : Anchored (contents s) g) (h : Chain (contents s) g (a :: l) st) :
    stateAt s a.hash = if (a :: l).length ≤ maxScanIterations then .ok st
      else .error (.traversalLimit maxScanIterations) := by
  unfold stateAt
  rw [aum_of_mem (h.mem mem_cons_self)]
  simp only [mapError_ok, ok_bind, pathToRoot_eq hanch h]
  split_ifs with hlen
  · obtain ⟨st0, us, hrev, hs, hrun⟩ := h.replay
    simp only [ok_bind, hrev, hs, hrun]
  · rfl

theorem verifyAll_eq_ok_iff :
    verifyAll st l = .ok () ↔ ∀ a ∈ l, verifyAum a st false = .ok () := by
  induction l with
  | nil => simp [verifyAll]
  | cons a l ih => simp only [verifyAll, bind_eq_ok, exists_unit, ih, forall_mem_cons]

/-- One step forward: either no child is stored, or the best child verifies. -/
theorem forward_step (hM : Sound M g) (hle : contents s ≤ M) (hs : Sound (contents s) g)
    (h : Chain (contents s) g (x :: l) st) :
    (childAums s x.hash = .ok [] ∧ ∀ c ∈ (contents s).toSet, ¬ (forest hM).Child x c) ∨
    ∃ c cs st', childAums s x.hash = .ok (c :: cs) ∧ verifyAll st (c :: cs) = .ok () ∧
      (forest hM).Best (contents s).toSet x (pickNext st c cs) ∧
      st.applyVerified (pickNext st c cs) = .ok st' ∧
      Chain (contents s) g (pickNext st c cs :: x :: l) st' := by
  have hxm := h.mem mem_cons_self
  obtain ⟨children, hrun, hmem⟩ := childAums_spec s x.hash
  cases children with
  | nil =>
    refine Or.inl ⟨hrun, fun c hc hx => ?_⟩
    exact not_mem_nil ((hmem c).mpr ⟨hc, hx.2.2⟩)
  | cons c cs =>
    right
    obtain ⟨hpick, hleast⟩ := pickNext_spec st c cs
    set b := pickNext st c cs with hb
    obtain ⟨hbm, hbp⟩ := (hmem b).mp hpick
    obtain ⟨st', hchain, -, happ⟩ := hs.extend h hbm hbp
    refine ⟨c, cs, st', hrun, verifyAll_eq_ok_iff.mpr fun a ha => ?_, ?_, happ, hchain⟩
    · obtain ⟨ham, hap⟩ := (hmem a).mp ha
      obtain ⟨-, -, hv, -⟩ := hs.extend h ham hap
      exact hv
    · refine ⟨hbm, ⟨hle _ hxm, hle _ hbm, hbp⟩, fun d hd hx => ?_⟩
      by_cases hdb : d.hash = b.hash
      · exact Or.inl (eq_of_hash hd hbm hdb)
      · exact Or.inr ⟨l, st, h.mono hle, hleast d ((hmem d).mpr ⟨hd, hx.2.2⟩) hdb⟩

theorem Chain.length_le (hanch : Anchored (contents s) g) (h : Chain (contents s) g l st) :
    l.length ≤ (finite s).toFinset.card := by
  rw [← toFinset_card_of_nodup (h.nodup hanch)]
  refine Finset.card_le_card fun a ha => ?_
  rw [Set.Finite.mem_toFinset]
  exact h.mem (mem_toFinset.mp ha)

section
variable (hM : Sound M g) (hle : contents s ≤ M) (hs : Sound (contents s) g)
include hM hle hs

theorem exists_walk (n : ℕ) {x : Aum} {l : List Aum} {st : State}
    (h : Chain (contents s) g (x :: l) st)
    (hlt : (finite s).toFinset.card < (x :: l).length + n) :
    ∃ w, (forest hM).Walk (contents s).toSet x w := by
  induction n generalizing x l st with
  | zero =>
    have := h.length_le hs.anchored
    omega
  | succ n ih =>
    rcases forward_step hM hle hs h with ⟨-, hstop⟩ | ⟨c, cs, st', -, -, hbest, -, hchain⟩
    · exact ⟨[], .stop hstop⟩
    · obtain ⟨w, hw⟩ := ih hchain (by simp only [length_cons] at hlt ⊢; omega)
      exact ⟨_, .step hbest hw⟩

/-- The walk forward follows the fork choice, or runs out at the scan limit. -/
theorem forwardFrom_eq
    (hw : (forest hM).Walk (contents s).toSet x w) : ∀ {l : List Aum} {st : State} (fuel : ℕ),
      Chain (contents s) g (x :: l) st → ∃ st', Chain (contents s) g (w.reverse ++ x :: l) st' ∧
        forwardFrom s fuel x st = if w.length + 1 ≤ fuel then .ok (w.getLastD x, st')
          else .error (.traversalLimit maxScanIterations) := by
  induction hw with
  | stop hstop =>
    intro l st fuel h
    refine ⟨st, h, ?_⟩
    cases fuel with
    | zero => rfl
    | succ fuel =>
      rcases forward_step hM hle hs h with ⟨hrun, -⟩ | ⟨c, cs, st', -, -, hbest, -⟩
      · simp [forwardFrom, hrun, pure, Except.pure]
      · exact absurd hbest.2.1 (hstop _ hbest.1)
  | @step x c w hbest hw ih =>
    intro l st fuel h
    rcases forward_step hM hle hs h with ⟨-, hstop⟩ | ⟨c', cs, st', hrun, hv, hbest', happ, hchain⟩
    · exact absurd hbest.2.1 (hstop _ hbest.1)
    · rw [← hbest.unique hbest'] at happ hchain
      cases fuel with
      | zero =>
        obtain ⟨st'', hchain', -⟩ := ih 0 hchain
        refine ⟨st'', by simpa using hchain', rfl⟩
      | succ fuel =>
        obtain ⟨st'', hchain', hrec⟩ := ih fuel hchain
        refine ⟨st'', by simpa using hchain', ?_⟩
        simp only [forwardFrom, hrun, mapError_ok, ok_bind, hv, ← hbest.unique hbest', happ, hrec,
          length_cons, Nat.add_le_add_iff_right, getLastD_cons]

end

theorem exists_head (hs : Sound (contents s) g) (h : Chain (contents s) g (x :: l) st) :
    ∃ y t st', Chain (contents s) g (y :: t) st' ∧ (x :: l) <:+ (y :: t) ∧
      ∀ b, b ∈ contents s → b.parent ≠ some y.hash := by
  obtain ⟨w, hw⟩ := exists_walk hs (le_refl _) hs ((finite s).toFinset.card + 1) h (by omega)
  induction hw generalizing l st with
  | @stop x hstop =>
    refine ⟨x, l, st, h, suffix_rfl, fun b hb hp => ?_⟩
    exact hstop b hb ⟨h.mem mem_cons_self, hb, hp⟩
  | @step x c w hbest hw ih =>
    obtain ⟨st', hchain, -⟩ := hs.extend h hbest.1 hbest.2.1.2.2
    obtain ⟨y, t, st'', hy, hsuf, hleaf⟩ := ih hchain
    exact ⟨y, t, st'', hy, (suffix_cons _ _).trans hsuf, hleaf⟩

def Roots.Single (g : Aum) (roots : Roots) : Prop := ∃ b, roots.entries = [⟨g.hash, (g, b)⟩]

theorem Roots.add_empty (g : Aum) (b : Bool) : Roots.Single g (Roots.add ∅ g b) := ⟨b, rfl⟩

theorem Roots.Single.add (h : Roots.Single g roots) (b : Bool) :
    Roots.Single g (roots.add g b) := by
  obtain ⟨c, hc⟩ := h
  have hlook : roots.lookup g.hash = some (g, c) := by
    rw [← Option.mem_def, AList.mem_lookup_iff, hc]
    exact mem_singleton_self _
  refine ⟨c || b, ?_⟩
  simp [Roots.add, hlook, AList.insert, hc, kerase]

theorem collectRoots_single (hs : Sound (contents s) g) (hb : Bounded (contents s) g)
    (hint : Option AumHash) (heads : List Aum) (roots : Roots) (hmem : ∀ a ∈ heads, a ∈ contents s)
    (hr : roots = ∅ ∧ heads ≠ [] ∨ roots.Single g) :
    ∃ roots', collectRoots s hint roots heads = .ok roots' ∧ roots'.Single g := by
  induction heads generalizing roots with
  | nil => exact ⟨roots, rfl, hr.elim (fun h => absurd rfl h.2) id⟩
  | cons a heads ih =>
    obtain ⟨l, st, hl⟩ := hs.valid a (hmem a mem_cons_self)
    have hpath := pathToRoot_eq hs.anchored hl
    rw [if_pos (hb _ _ hl)] at hpath
    simp only [collectRoots, hpath, ok_bind, hl.getLast]
    refine ih _ (fun b hb => hmem b (mem_cons_of_mem _ hb)) (Or.inr ?_)
    rcases hr with ⟨rfl, -⟩ | hr
    · exact Roots.add_empty g _
    · exact hr.add _

theorem selectOldest_single (h : roots.Single g) : selectOldest roots = .ok g := by
  obtain ⟨b, hb⟩ := h
  simp [selectOldest, hb]

/-- Opening a sound store of bounded size gives the head the fork choice picks. -/
theorem open_eq_ok (hM : Sound M g) (hle : contents s ≤ M) (hs : Sound (contents s) g)
    (hb : Bounded (contents s) g) (hw : (forest hM).Walk (contents s).toSet g w) :
    ∃ st, Authority.open s = .ok ⟨w.getLastD g, g, st⟩ ∧
      Chain (contents s) g (w.reverse ++ [g]) st := by
  obtain ⟨heads, hheads, hmem⟩ := heads_spec s
  obtain ⟨st0, h0⟩ := hs.genesis_chain
  have hne : heads ≠ [] := by
    obtain ⟨y, t, st', hy, -, hleaf⟩ := exists_head hs h0
    exact ne_nil_of_mem ((hmem y).mpr ⟨hy.mem mem_cons_self, hleaf⟩)
  obtain ⟨hint, hhint⟩ := lastActiveAncestor_spec s
  obtain ⟨roots, hroots, hsingle⟩ := collectRoots_single hs hb hint heads ∅
    (fun a ha => ((hmem a).mp ha).1) (Or.inl ⟨rfl, hne⟩)
  have hat := stateAt_eq hs.anchored h0
  rw [if_pos (hb _ _ h0)] at hat
  obtain ⟨st, hchain, hforward⟩ := forwardFrom_eq hM hle hs hw maxScanIterations h0
  have hlen : w.length + 1 ≤ maxScanIterations := by
    have := hb _ _ hchain
    simp only [length_append, length_reverse, length_cons] at this
    omega
  rw [if_pos hlen] at hforward
  have hempty : heads.isEmpty = false := by simpa using hne
  refine ⟨st, ?_, hchain⟩
  simp only [Authority.open, hheads, mapError_ok, ok_bind, hempty, Bool.not_false, ensure_true,
    hhint, hroots, selectOldest_single hsingle, fastForward, hat, hforward]
  rfl

theorem collectRoots_path {hint : Option AumHash} {heads : List Aum} {roots roots' : Roots}
    (h : collectRoots s hint roots heads = .ok roots') (a : Aum) (ha : a ∈ heads) :
    ∃ path, pathToRoot s a = .ok path := by
  induction heads generalizing roots with
  | nil => cases ha
  | cons b heads ih =>
    simp only [collectRoots, bind_eq_ok] at h
    obtain ⟨path, hpath, hrest⟩ := h
    rcases mem_cons.mp ha with rfl | ha
    · exact ⟨path, hpath⟩
    · exact ih hrest ha

/-- Sound storage opens only if no chain in it is too long. -/
theorem bounded_of_open (hs : Sound (contents s) g) {a : Authority}
    (h : Authority.open s = .ok a) : Bounded (contents s) g := by
  intro l st hl
  have hshape : ∃ x t, l = x :: t := by
    cases hl with
    | genesis | step => exact ⟨_, _, rfl⟩
  obtain ⟨x, t, rfl⟩ := hshape
  obtain ⟨y, t', st', hy, hsuf, hleaf⟩ := exists_head hs hl
  obtain ⟨heads, hheads, hmem⟩ := heads_spec s
  have hyh : y ∈ heads := (hmem y).mpr ⟨hy.mem mem_cons_self, hleaf⟩
  simp only [Authority.open, hheads, mapError_ok, ok_bind, bind_eq_ok] at h
  obtain ⟨-, -, hint, -, roots, hroots, -⟩ := h
  obtain ⟨path, hpath⟩ := collectRoots_path hroots y hyh
  rw [pathToRoot_eq hs.anchored hy] at hpath
  split_ifs at hpath with hlen
  exact hsuf.length_le.trans hlen

end Rustscale.Tka
