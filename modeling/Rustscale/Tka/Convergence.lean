import Rustscale.Tka.Sync

/-! Authorities over one genesis converge, by answering each other's offers or informed of the same
AUMs in any order. -/
namespace Rustscale.Tka
open Checks ForkChoice LawfulChonk List Contents Chain Or

section Union
variable [Crypto] {m n : Contents} {g : Aum} {W : Set Aum}

def Contents.union (m n : Contents) : Contents where
  get := fun h => (m.get h).or (n.get h)
  keyed := fun h a ha => by
    rcases Option.or_eq_some_iff.mp ha with hm | ⟨-, hn⟩
    · exact m.keyed h a hm
    · exact n.keyed h a hn

theorem Contents.le_union_left (m n : Contents) : m ≤ m.union n := by
  intro a ha
  rw [mem_iff] at ha ⊢
  simp [union, ha]

theorem Contents.le_union_right (hW : Set.InjOn Aum.hash W) (hm : ∀ a, a ∈ m → a ∈ W)
    (hn : ∀ a, a ∈ n → a ∈ W) : n ≤ m.union n := by
  intro a ha
  have ha' := mem_iff.mp ha
  rw [mem_iff]
  cases hg : m.get a.hash with
  | none => simp [union, hg, ha']
  | some b =>
    have hbm := mem_of_get hg
    have hba := hW (hm b hbm) (hn a ha) (m.keyed _ _ hg)
    simp [union, hg, hba]

theorem Contents.mem_of_mem_union {a : Aum} (h : a ∈ m.union n) : a ∈ m ∨ a ∈ n := by
  rw [mem_iff] at h
  rcases Option.or_eq_some_iff.mp h with hm | ⟨-, hn⟩
  · exact inl hm
  · exact inr hn

theorem Sound.union (hm : Sound m g) (hn : Sound n g) (hle : n ≤ m.union n) :
    Sound (m.union n) g := by
  refine ⟨le_union_left m n _ hm.genesis, fun h hp => ?_, fun a ha => ?_⟩
  · simp [Contents.union, hm.anchored h hp, hn.anchored h hp]
  · rcases mem_of_mem_union ha with ha | ha
    · obtain ⟨l, st, hl⟩ := hm.valid a ha
      exact ⟨l, st, hl.mono (le_union_left m n)⟩
    · obtain ⟨l, st, hl⟩ := hn.valid a ha
      exact ⟨l, st, hl.mono hle⟩

theorem Chain.exists_cons {l : List Aum} {st : State} (h : Chain m g l st) : ∃ a t, l = a :: t := by
  cases h with
  | genesis | step => exact ⟨_, _, rfl⟩

/-- A chain of the union is a chain of the storage that holds its newest AUM. -/
theorem Bounded.union (hs : Sound (m.union n) g) (hm : Sound m g) (hn : Sound n g)
    (hle : n ≤ m.union n) (hbm : Bounded m g) (hbn : Bounded n g) : Bounded (m.union n) g := by
  intro l st hl
  obtain ⟨a, t, rfl⟩ := hl.exists_cons
  rcases mem_of_mem_union (hl.mem mem_cons_self) with ha | ha
  · obtain ⟨t', st', hl'⟩ := hm.valid a ha
    rw [(hl.unique (hl'.mono (le_union_left m n))).2 hs.anchored]
    exact hbm _ _ hl'
  · obtain ⟨t', st', hl'⟩ := hn.valid a ha
    rw [(hl.unique (hl'.mono hle)).2 hs.anchored]
    exact hbn _ _ hl'

theorem Ancestry.mono (hle : n ≤ m) {l : List Aum} (h : Ancestry n l) : Ancestry m l := by
  induction h with
  | single ha => exact .single (hle _ ha)
  | cons _ ha hp ih => exact .cons ih (hle _ ha) hp

theorem Short.mono (hle : n ≤ m) (h : Short m) : Short n := fun l hl => h l (hl.mono hle)

/-- The rest of a chain above a common update is a valid extension of it. -/
theorem Chain.extends {M : Contents} (hW : Set.InjOn Aum.hash W) (hMW : ∀ a, a ∈ M → a ∈ W)
    {st : State} (rest : List Aum) :
    ∀ {m : Contents} {up : List Aum} {p : Aum}, m ≤ M → Rooted m g →
      p ∈ m → Chain M g (rest.reverse ++ p :: up) st → Extends m g rest := by
  induction rest with
  | nil => exact fun _ _ _ _ => trivial
  | cons b rest ih =>
    intro m up p hle hr hp hc
    have hc' : Chain M g (rest.reverse ++ b :: p :: up) st := by simpa using hc
    have hbM := hc'.mem (a := b) (by simp)
    obtain ⟨st3, hb⟩ := hc'.of_append
    obtain ⟨st2, hpc, hpar, hv, happ⟩ := hb.of_cons
    obtain ⟨l', st', hl'⟩ := hr.valid p hp
    obtain rfl := (hpc.unique (hl'.mono hle)).1
    refine ⟨inr ⟨p, l', st2, st3, hl', hpar, hv, happ⟩, ?_⟩
    have hadd : ∀ a, a ∈ m.add b ↔ a ∈ m ∨ a = b := fun a => by
      have := mem_addAll (b := a) hW (fun c hc => hMW c (hle c hc))
        (fun c (hc : c ∈ [b]) => by rw [mem_singleton.mp hc]; exact hMW b hbM)
      rwa [mem_singleton] at this
    refine ih (fun a ha => ?_) (hr.add hl' hpar hv happ) ((hadd b).mpr (inr rfl)) hc'
    rcases (hadd a).mp ha with ha | rfl
    · exact hle a ha
    · exact hbM

end Union

section Exchange
variable [Crypto] {σ τ : Type} [LawfulChonk σ] [LawfulChonk τ] {s : σ} {t : τ} {g : Aum}
  {W : Set Aum} {A B : Authority}

/-- What is sent is the active chain above an update the other side has. -/
theorem Live.missingAums_spec (hB : Live W g t B) (hW : Set.InjOn Aum.hash W) {w : List Aum}
    (hhead : B.head = w.getLastD g) (hold : B.oldestAncestor = g) {st : State}
    (hw : Chain (contents t) g (w.reverse ++ [g]) st) {m : Contents} (hm : ∀ a, a ∈ m → a ∈ W)
    {offer : SyncOffer} (hlen : offer.ancestors.length ≤ maxSyncAncestors)
    (hg : g.hash ∈ offer.ancestors) (hhas : ∃ a, a ∈ m ∧ a.hash = offer.head)
    (hanc : ∀ x ∈ offer.ancestors, ∃ a, a ∈ m ∧ a.hash = x) :
    ∃ ms, B.missingAums t offer = .ok ms ∧ ∃ pre p, g :: w = pre ++ p :: ms ∧ p ∈ m := by
  have hpathW : ∀ a ∈ g :: w, a ∈ W :=
    fun a ha => hB.within a (hw.mem (by simpa [or_comm] using ha))
  have hsplit : ∀ {x : AumHash} {i : ℕ}, (∃ a, a ∈ m ∧ a.hash = x) → position (g :: w) x = some i →
      ∃ pre p, g :: w = pre ++ p :: (g :: w).drop (i + 1) ∧ p ∈ m := by
    rintro x i ⟨a, ha, rfl⟩ hpos
    obtain ⟨p, hp, hpa⟩ := position_eq_some hpos
    have hpeq : p = a := hW (hpathW p (mem_of_getElem? hp)) (hm a ha) hpa
    obtain ⟨hi, rfl⟩ := List.getElem?_eq_some_iff.mp hp
    exact ⟨_, _, by rw [getElem_cons_drop, take_append_drop], hpeq ▸ ha⟩
  unfold Authority.missingAums
  rw [if_neg (by omega)]
  split_ifs with heq
  · obtain ⟨a, ha, hah⟩ := hhas
    obtain ⟨u, hu⟩ := reverse_append_eq w g
    have hBm : B.head ∈ g :: w := by
      have : B.head ∈ w.reverse ++ [g] := by
        rw [hu, hhead]
        exact mem_cons_self
      simpa [or_comm] using this
    have haB : a = B.head := hW (hm a ha) (hpathW _ hBm) (hah.trans heq)
    refine ⟨[], rfl, u.reverse, B.head, ?_, haB ▸ ha⟩
    have := congrArg reverse hu
    rw [hhead]
    simpa using this
  · rw [hB.activePath_eq hhead hold hw]
    simp only [ok_bind]
    cases hpos : position (g :: w) offer.head with
    | some i => exact ⟨_, rfl, hsplit hhas hpos⟩
    | none =>
      cases hfind : offer.ancestors.findSome? (position (g :: w)) with
      | some i =>
        obtain ⟨x, hx, hxi⟩ := exists_of_findSome?_eq_some hfind
        exact ⟨_, rfl, hsplit (hanc x hx) hxi⟩
      | none =>
        have := findSome?_eq_none_iff.mp hfind _ hg
        have hsome := position_isSome (mem_cons_self : g ∈ g :: w)
        rw [this] at hsome
        cases hsome

/-- Receiving the rest of a chain adds that chain to the store and nothing else. -/
theorem Live.receive_spec (hA : Live W g s A) (hW : Set.InjOn Aum.hash W) {M : Contents}
    (hM : Sound M g) (hMW : ∀ a, a ∈ M → a ∈ W) (hshort : Short M) (hle : contents s ≤ M)
    {path pre ms : List Aum} {p : Aum} {st : State} (hpath : Chain M g path.reverse st)
    (hsplit : path = pre ++ p :: ms) (hp : p ∈ contents s) :
    ∃ s' A', A.receive s ms = (.ok (), s', A') ∧ Live W g s' A' ∧
      ∀ a, a ∈ contents s' ↔ a ∈ contents s ∨ a ∈ path := by
  have hrev : path.reverse = ms.reverse ++ p :: pre.reverse := by simp [hsplit]
  rw [hrev] at hpath
  have hpre : ∀ a ∈ pre, a ∈ contents s := by
    obtain ⟨st1, h1⟩ := hpath.of_append
    obtain ⟨l, st2, h2⟩ := hA.sound.valid p hp
    have hl := (h1.unique (h2.mono hle)).2 hM.anchored
    intro a ha
    exact h2.mem (mem_cons_of_mem _ (hl ▸ mem_reverse.mpr ha))
  have hmem : ∀ a, (a ∈ contents s ∨ a ∈ path) ↔ a ∈ contents s ∨ a ∈ ms := by
    intro a
    rw [hsplit, mem_append, mem_cons]
    constructor
    · rintro (h | h | rfl | h)
      · exact inl h
      · exact inl (hpre a h)
      · exact inl hp
      · exact inr h
    · rintro (h | h)
      · exact inl h
      · exact inr (inr (inr h))
  have hms : ∀ a ∈ ms, a ∈ M := fun a ha =>
    hpath.mem (mem_append_left _ (mem_reverse.mpr ha))
  have hmsW : ∀ a ∈ ms, a ∈ W := fun a ha => hMW a (hms a ha)
  unfold Authority.receive
  split_ifs with hempty
  · refine ⟨s, A, rfl, hA, fun a => ?_⟩
    rw [hmem, isEmpty_iff.mp hempty]
    simp
  · have hext := Chain.extends hW hMW ms hle hA.sound.rooted hp hpath
    have hadd : ∀ a, a ∈ (contents s).addAll ms ↔ a ∈ contents s ∨ a ∈ ms := fun a =>
      mem_addAll hW hA.within hmsW
    have hshort' : Short ((contents s).addAll ms) := hshort.mono fun a ha =>
      ((hadd a).mp ha).elim (hle a) (hms a)
    rcases hA.inform_cases hW hmsW with ⟨-, -, -, s', A', hrun, hc, hlive⟩ | ⟨-, -, hn, -⟩ | ⟨hn, -⟩
    · refine ⟨s', A', hrun, hlive, fun a => ?_⟩
      rw [hmem, hc, hadd]
    · exact absurd hshort' hn
    · rcases hn with hn | hn
      · exact absurd (isEmpty_iff.mpr hn) hempty
      · exact absurd hext hn

/-- Live authorities whose storages hold each other's active chains agree. -/
theorem Live.agree {σ' τ' : Type} [LawfulChonk σ'] [LawfulChonk τ'] {s' : σ'} {t' : τ'}
    {A' B' : Authority} {M : Contents} (hM : Sound M g) (hA : Live W g s A) (hB : Live W g t B)
    (hA' : Live W g s' A') (hB' : Live W g t' B') (hle : contents s ≤ M) (hle' : contents t ≤ M)
    {wA wB : List Aum} (hwA : (forest hM).Walk (contents s).toSet g wA)
    (hwB : (forest hM).Walk (contents t).toSet g wB)
    (hs' : ∀ a, a ∈ contents s' ↔ a ∈ contents s ∨ a ∈ g :: wB)
    (ht' : ∀ a, a ∈ contents t' ↔ a ∈ contents t ∨ a ∈ g :: wA) :
    A'.head = B'.head ∧ A'.state = B'.state := by
  have hwM : ∀ a ∈ g :: wB, a ∈ M := fun a ha => by
    rcases mem_cons.mp ha with rfl | ha
    · exact hM.genesis
    · exact hle' a (hwB.mem ha)
  have hwM' : ∀ a ∈ g :: wA, a ∈ M := fun a ha => by
    rcases mem_cons.mp ha with rfl | ha
    · exact hM.genesis
    · exact hle a (hwA.mem ha)
  have hsM : contents s' ≤ M := fun a ha => ((hs' a).mp ha).elim (hle a) (hwM a)
  have htM : contents t' ≤ M := fun a ha => ((ht' a).mp ha).elim (hle' a) (hwM' a)
  obtain ⟨w1, hw1, hhead1, -, hc1⟩ := hA'.walk hM hsM
  obtain ⟨w2, hw2, hhead2, -, hc2⟩ := hB'.walk hM htM
  have hne : ∀ y, (forest hM).Desc g y → y ≠ g := fun y hy he => by
    have := hy.rank_lt
    rw [he] at this
    exact lt_irrefl _ this
  have hmerged : (forest hM).Merged (contents s).toSet (contents t).toSet (contents s').toSet
      (contents t').toSet g wA wB := by
    refine ⟨fun y hy => ?_, fun y hy => ?_⟩
    · refine (hs' y).trans (or_congr_right ?_)
      simp [hne y hy]
    · refine (ht' y).trans (or_congr_right ?_)
      simp [hne y hy]
  obtain ⟨l, hU, hV⟩ := hmerged.converge hwA hwB (hM.closed hA.sound hle) (hM.closed hB.sound hle')
  have hw : w1 = w2 := (hw1.unique hU).trans (hV.unique hw2)
  subst hw
  have hheads : A'.head = B'.head := hhead1.trans hhead2.symm
  obtain ⟨u, hu⟩ := reverse_append_eq w1 g
  rw [hu] at hc1 hc2
  exact ⟨hheads, ((hc1.mono hsM).unique (hc2.mono htM)).1⟩

/-- Two authorities over one genesis, whatever forks each was informed of, that answer each other's
sync offer end with the same head and state. -/
theorem sync_converges (hW : Set.InjOn Aum.hash W) (hA : Reach W g s A) (hB : Reach W g t B) :
    ∃ offerA offerB forA forB s' t' A' B',
      A.syncOffer s = .ok offerA ∧ B.syncOffer t = .ok offerB ∧
      B.missingAums t offerA = .ok forA ∧ A.missingAums s offerB = .ok forB ∧
      A.receive s forA = (.ok (), s', A') ∧ B.receive t forB = (.ok (), t', B') ∧
      A'.head = B'.head ∧ A'.state = B'.state := by
  have hA := hA.live hW
  have hB := hB.live hW
  have hle := le_union_left (contents s) (contents t)
  have hle' := le_union_right hW hA.within hB.within
  have hM := hA.sound.union hB.sound hle'
  have hMW : ∀ a, a ∈ (contents s).union (contents t) → a ∈ W := fun a ha =>
    (mem_of_mem_union ha).elim (hA.within a) (hB.within a)
  have hshort := (Bounded.union hM hA.sound hB.sound hle' hA.bounded hB.bounded).short hM
  obtain ⟨wA, hwA, hheadA, holdA, hcA⟩ := hA.walk hM hle
  obtain ⟨wB, hwB, hheadB, holdB, hcB⟩ := hB.walk hM hle'
  obtain ⟨offerA, hofferA, hoA, hgA, hlenA, hancA⟩ := hA.syncOffer_spec hheadA holdA hcA
  obtain ⟨offerB, hofferB, hoB, hgB, hlenB, hancB⟩ := hB.syncOffer_spec hheadB holdB hcB
  have hpathA : ∀ a ∈ g :: wA, a ∈ contents s := fun a ha => hcA.mem (by simpa [or_comm] using ha)
  have hpathB : ∀ a ∈ g :: wB, a ∈ contents t := fun a ha => hcB.mem (by simpa [or_comm] using ha)
  obtain ⟨forA, hforA, preB, pB, hsplitB, hpB⟩ := hB.missingAums_spec hW hheadB holdB hcB hA.within
    hlenA hgA ⟨A.head, hA.chain.elim fun l hl => hl.mem mem_cons_self, hoA.symm⟩
    fun x hx => (hancA x hx).imp fun a ha => ⟨hpathA a ha.1, ha.2⟩
  obtain ⟨forB, hforB, preA, pA, hsplitA, hpA⟩ := hA.missingAums_spec hW hheadA holdA hcA hB.within
    hlenB hgB ⟨B.head, hB.chain.elim fun l hl => hl.mem mem_cons_self, hoB.symm⟩
    fun x hx => (hancB x hx).imp fun a ha => ⟨hpathB a ha.1, ha.2⟩
  obtain ⟨s', A', hrunA, hA', hs'⟩ := hA.receive_spec hW hM hMW hshort hle
    (by rw [reverse_cons]; exact hcB.mono hle') hsplitB hpB
  obtain ⟨t', B', hrunB, hB', ht'⟩ := hB.receive_spec hW hM hMW hshort hle'
    (by rw [reverse_cons]; exact hcA.mono hle) hsplitA hpA
  exact ⟨offerA, offerB, forA, forB, s', t', A', B', hofferA, hofferB, hforA, hforB, hrunA, hrunB,
    Live.agree hM hA hB hA' hB' hle hle' hwA hwB hs' ht'⟩

end Exchange

section Toy
open Toy

/-- Two authorities that took different children of the genesis. -/
theorem sync_converges_fork : ∃ (s t : MemChonk) (A B : Authority),
    A.head = toyTree 0 1 ∧ B.head = toyTree 0 2 ∧ ∃ offerA offerB forA forB s' t' A' B',
      A.syncOffer s = .ok offerA ∧ B.syncOffer t = .ok offerB ∧
      B.missingAums t offerA = .ok forA ∧ A.missingAums s offerB = .ok forB ∧
      A.receive s forA = (.ok (), s', A') ∧ B.receive t forB = (.ok (), t', B') ∧
      A'.head = B'.head ∧ A'.state = B'.state := by
  have hfork : ∀ n, n < 65536 → ∀ u ∈ [toyTree 0 n], u ∈ toyWorld 0 := fun n hn u hu => by
    rw [mem_singleton.mp hu]
    exact toyTree_mem hn
  have hA : Reach (toyWorld 0) toyGenesis _ _ :=
    .inform (toy_reach 0) (hfork 1 (by norm_num)) rfl
  have hB : Reach (toyWorld 0) toyGenesis _ _ :=
    .inform (toy_reach 0) (hfork 2 (by norm_num)) rfl
  exact ⟨_, _, _, _, rfl, rfl, sync_converges (toyWorld_injOn 0) hA hB⟩

end Toy

end Rustscale.Tka
