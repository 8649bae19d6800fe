import Rustscale.Tka.Convergence

/-! What an authority ends with depends only on which updates were delivered; what a failed call
leaves behind. -/
namespace Rustscale.Tka
open Checks ForkChoice LawfulChonk List Nat Authority

/-- Inform the authority of the batches in turn, as long as every call succeeds. -/
def Authority.deliver {σ : Type} [Crypto] [Chonk σ] (A : Authority) (s : σ) :
    List (List Aum) → Option (σ × Authority)
  | [] => some (s, A)
  | updates :: rest =>
    match A.inform s updates with
    | (.ok (), s', A') => A'.deliver s' rest
    | (.error _, _, _) => none

section Order
variable [Crypto] {σ τ : Type} [LawfulChonk σ] [LawfulChonk τ] {g : Aum} {W : Set Aum}

theorem Live.deliver (hW : Set.InjOn Aum.hash W) (bs : List (List Aum)) {s s' : σ}
    {A A' : Authority} (h : Live W g s A) (hbs : ∀ u ∈ bs.flatten, u ∈ W)
    (hd : A.deliver s bs = some (s', A')) :
    Live W g s' A' ∧ ∀ a, a ∈ contents s' ↔ a ∈ contents s ∨ a ∈ bs.flatten := by
  induction bs generalizing s A with
  | nil =>
    cases hd
    exact ⟨h, fun a => by simp⟩
  | cons us bs ih =>
    have hus : ∀ u ∈ us, u ∈ W := fun u hu => hbs u (by simp [hu])
    have hrest : ∀ u ∈ bs.flatten, u ∈ W := fun u hu =>
      hbs u (by rw [flatten_cons]; exact mem_append_right _ hu)
    rw [Authority.deliver] at hd
    split at hd
    · next s1 A1 hi =>
      obtain ⟨h1, hc⟩ := h.inform hW hus hi
      obtain ⟨h', hmem⟩ := ih h1 hrest hd
      refine ⟨h', fun a => ?_⟩
      rw [hmem, hc, Contents.mem_addAll hW h.within hus, flatten_cons, mem_append, or_assoc]
    · cases hd

theorem Live.eq_of_contents {s : σ} {t : τ} {A B : Authority} (hA : Live W g s A)
    (hB : Live W g t B) (h : contents s = contents t) : A = B := by
  have hM := hA.sound
  have hle : contents t ≤ contents s := h ▸ Contents.le_refl _
  obtain ⟨w1, hw1, hhead1, hold1, hc1⟩ := hA.walk hM (Contents.le_refl _)
  obtain ⟨w2, hw2, hhead2, hold2, hc2⟩ := hB.walk hM hle
  rw [← h] at hw2 hc2
  obtain rfl := hw1.unique hw2
  obtain ⟨u, hu⟩ := reverse_append_eq w1 g
  rw [hu] at hc1 hc2
  cases A
  cases B
  simp only [mk.injEq]
  exact ⟨hhead1.trans hhead2.symm, hold1.trans hold2.symm, (hc1.unique hc2).1⟩

/-- Deliveries of the same updates over one genesis, in any batches, order and repetition, end with
the same authority, that of the storage; and no valid update that keeps the chains short makes the
storage fail to open. -/
theorem deliver_order_independent (hW : Set.InjOn Aum.hash W) (hg : g ∈ W) {s0 s s' : σ}
    {t0 t t' : τ} {A0 A B0 B : Authority} (hs0 : contents s0 = Contents.empty)
    (ht0 : contents t0 = Contents.empty) (hs : bootstrap s0 g = (.ok A0, s))
    (ht : bootstrap t0 g = (.ok B0, t)) {bs cs : List (List Aum)}
    (hbs : ∀ u ∈ bs.flatten, u ∈ W) (hsame : ∀ u, u ∈ bs.flatten ↔ u ∈ cs.flatten)
    (hA : A0.deliver s bs = some (s', A)) (hB : B0.deliver t cs = some (t', B)) :
    (A.head = B.head ∧ A.state = B.state) ∧
      Authority.open s' = .ok A ∧ Authority.open t' = .ok B ∧
      ∀ us staged, us ≠ [] → (∀ u ∈ us, u ∈ W) → stage s' 0 A.initialStates [] us = .ok staged →
        Short ((contents s').addAll us) → ∃ s'' A', A.inform s' us = (.ok (), s'', A') := by
  have hcs : ∀ u ∈ cs.flatten, u ∈ W := fun u hu => hbs u ((hsame u).mpr hu)
  obtain ⟨hA, hmA⟩ := (bootstrap_live hs0 hg hs).deliver hW bs hbs hA
  obtain ⟨hB, hmB⟩ := (bootstrap_live ht0 hg ht).deliver hW cs hcs hB
  have hcontents : contents s' = contents t' := by
    ext a
    rw [hmA, hmB, bootstrap_contents hs0 hs, bootstrap_contents ht0 ht, hsame]
  obtain rfl := hA.eq_of_contents hB hcontents
  refine ⟨⟨rfl, rfl⟩, hA.opened, hB.opened, fun us staged hne hus hstage hshort => ?_⟩
  have hx := ((stage_iff hA.sound hA.bounded hW us 0 hA.staging hus).1 staged hstage).1
  rcases hA.inform_cases hW hus with ⟨-, -, -, s'', A', hrun, -⟩ | ⟨-, -, hn, -⟩ | ⟨hn, -⟩
  · exact ⟨s'', A', hrun⟩
  · exact absurd hshort hn
  · exact absurd hx (hn.resolve_left hne)

end Order

section Toy
open Toy

/-- Two children of the genesis in one batch, and in turn in the other order with a repetition. -/
theorem deliver_order_independent_fork : ∃ (s t : MemChonk) (A B : Authority),
    toyAuthority.deliver toyStorage [[toyTree 0 1, toyTree 0 2]] = some (s, A) ∧
      toyAuthority.deliver toyStorage [[toyTree 0 2], [toyTree 0 1, toyTree 0 2]] = some (t, B) ∧
      A.head = B.head ∧ A.state = B.state := by
  have hmem : ∀ u ∈ [[toyTree 0 1, toyTree 0 2]].flatten, u ∈ toyWorld 0 := by
    intro u hu
    simp only [flatten_cons, flatten_nil, append_nil, mem_cons, not_mem_nil, or_false] at hu
    rcases hu with rfl | rfl
    all_goals exact toyTree_mem (by norm_num)
  obtain ⟨s, A, hA⟩ : ∃ s A, toyAuthority.deliver toyStorage
      [[toyTree 0 1, toyTree 0 2]] = some (s, A) := ⟨_, _, rfl⟩
  obtain ⟨t, B, hB⟩ : ∃ t B, toyAuthority.deliver toyStorage
      [[toyTree 0 2], [toyTree 0 1, toyTree 0 2]] = some (t, B) := ⟨_, _, rfl⟩
  exact ⟨s, t, A, B, hA, hB, (deliver_order_independent (toyWorld_injOn 0)
    (toyTree_mem (n := 0) (by norm_num)) rfl rfl toy_bootstrap toy_bootstrap hmem
    (fun u => by simp; tauto) hA hB).1⟩

end Toy

section Atomicity
variable [Crypto] {σ : Type} [LawfulChonk σ] {g : Aum} {W : Set Aum}

/-- A failed call to `inform` leaves the authority and its storage as they were. -/
def Authority.Atomic (A : Authority) (s : σ) (us : List Aum) : Prop :=
  ∀ e s' A', A.inform s us = (.error e, s', A') →
    contents s' = contents s ∧ A' = A ∧ Authority.open s' = Authority.open s

theorem fresh_addAll_ne {s : σ} {us : List Aum} (h : fresh s us ≠ []) :
    (contents s).addAll (fresh s us) ≠ contents s := by
  obtain ⟨u, rest, hu⟩ := exists_cons_of_ne_nil h
  have hmem : u ∈ fresh s us := hu ▸ mem_cons_self
  have hnone : (contents s).get u.hash = none := by simpa using (mem_filter.mp hmem).2
  intro heq
  have hin : u ∈ (contents s).addAll (fresh s us) := by
    rw [hu, Contents.addAll_cons]
    exact Contents.le_addAll _ _ u (Contents.mem_add.mpr (Or.inr ⟨rfl, hnone⟩))
  rw [heq, Contents.mem_iff, hnone] at hin
  cases hin

/-- A delivery is atomic exactly when, once staged, it is stored and the authority reopens. -/
theorem atomic_iff_opens (A : Authority) (s : σ) (us : List Aum) :
    A.Atomic s us ↔ ((∃ staged, stage s 0 A.initialStates [] us = .ok staged) →
      fresh s us ≠ [] → ∃ s1 n B, Chonk.storeVerifiedAums s (fresh s us) = .ok (s1, n) ∧
        Authority.open s1 = .ok B) := by
  by_cases hnil : us = []
  · subst hnil
    refine ⟨fun _ _ hf => absurd rfl hf, fun _ e s' A' h => ?_⟩
    cases h
    exact ⟨rfl, rfl, rfl⟩
  have hempty : us.isEmpty = false := by simpa using hnil
  cases hstage : stage s 0 A.initialStates [] us with
  | error e =>
    refine ⟨fun _ h => absurd h (by simp), fun _ e' s' A' h => ?_⟩
    simp only [inform, hempty, Bool.false_eq_true, if_false, hstage] at h
    cases h
    exact ⟨rfl, rfl, rfl⟩
  | ok staged =>
    obtain rfl : staged = fresh s us := by simpa using stage_eq_fresh us hstage
    obtain ⟨s1, n, hstore, hc⟩ := store_spec s (fresh s us) fun u hu b hb => by
      rw [Option.isNone_iff_eq_none.mp (mem_filter.mp hu).2] at hb
      cases hb
    cases hopen : Authority.open s1 with
    | ok B =>
      refine ⟨fun _ _ _ => ⟨s1, n, B, hstore, hopen⟩, fun _ e s' A' h => ?_⟩
      simp only [inform, hempty, Bool.false_eq_true, if_false, hstage, hstore, hopen] at h
      cases h
    | error e =>
      have hrun : A.inform s us = (.error e, s1, A) := by
        simp [inform, hempty, hstage, hstore, hopen]
      constructor
      · intro hat _ hf
        have := (hat _ _ _ hrun).1
        exact absurd (hc ▸ this) (fresh_addAll_ne hf)
      · intro hcond e' s' A' h
        rw [hrun] at h
        cases h
        by_cases hf : fresh s us = []
        · rw [hf, store_nil] at hstore
          cases hstore
          exact ⟨rfl, rfl, rfl⟩
        · obtain ⟨s2, n2, B, hstore2, hB⟩ := hcond ⟨_, rfl⟩ hf
          rw [hstore] at hstore2
          cases hstore2
          rw [hopen] at hB
          cases hB

theorem Live.atomic_iff {s : σ} {A : Authority} (h : Live W g s A) (hW : Set.InjOn Aum.hash W)
    {us : List Aum} (hus : ∀ u ∈ us, u ∈ W) :
    A.Atomic s us ↔ (Extends (contents s) g us → Short ((contents s).addAll us)) := by
  rcases h.inform_cases hW hus with ⟨-, -, hshort, s', A', hrun, -⟩ |
    ⟨-, hx, hn, e, s', hrun, hc, -⟩ | ⟨hn, e, hrun⟩
  · refine ⟨fun _ _ => hshort, fun _ e s1 A1 h1 => ?_⟩
    rw [hrun] at h1
    cases h1
  · refine ⟨fun hat => absurd ?_ hn, fun hcond => absurd (hcond hx) hn⟩
    rw [← hc, (hat _ _ _ hrun).1]
    exact h.short
  · refine ⟨fun _ hx => ?_, fun _ e s1 A1 h1 => ?_⟩
    · rw [hn.resolve_right (not_not.mpr hx), Contents.addAll_nil]
      exact h.short
    · rw [hrun] at h1
      cases h1
      exact ⟨rfl, rfl, rfl⟩

/-- `inform` is atomic exactly when the updates to store leave a storage that opens: over histories,
when a valid batch makes no chain longer than the traversals go. -/
theorem inform_atomic_iff :
    (∀ (A : Authority) (s : σ) (us : List Aum), A.Atomic s us ↔
      ((∃ staged, stage s 0 A.initialStates [] us = .ok staged) → fresh s us ≠ [] →
        ∃ s1 n B, Chonk.storeVerifiedAums s (fresh s us) = .ok (s1, n) ∧
          Authority.open s1 = .ok B)) ∧
    ∀ (W : Set Aum) (g : Aum) (A : Authority) (s : σ) (us : List Aum), Set.InjOn Aum.hash W →
      Reach W g s A → (∀ u ∈ us, u ∈ W) →
      (A.Atomic s us ↔ (Extends (contents s) g us → Short ((contents s).addAll us))) :=
  ⟨atomic_iff_opens, fun _ _ _ _ _ hW h hus => (h.live hW).atomic_iff hW hus⟩

end Atomicity

section Toy
open Toy

/-- A valid batch is taken in atomically by the toy authority. -/
theorem inform_atomic_iff_toy : toyAuthority.Atomic toyStorage [toyTree 0 1] ↔
    (Extends (contents toyStorage) toyGenesis [toyTree 0 1] →
      Short ((contents toyStorage).addAll [toyTree 0 1])) :=
  inform_atomic_iff.2 _ _ _ _ _ (toyWorld_injOn 0) (toy_reach 0) fun u hu => by
    rw [mem_singleton.mp hu]
    exact toyTree_mem (by norm_num)

theorem toyTree_parent {n : ℕ} : (toyTree pred (n + 1)).parent = some (toyTree pred n).hash := by
  change AumHash.fromSlice (toyBytes n) = _
  rw [← toyTree_hash pred n, AumHash.fromSlice_bytes]

theorem toy_verifyAum (n : ℕ) : verifyAum (toyTree pred (n + 1))
    (toyState.withLastAum (toyTree pred n)) false = .ok () := by
  have hvalid : (toyTree pred (n + 1)).validate = .ok () := by
    simp only [Aum.validate, toyTree, Aum.checkPrevHash, toyBytes]
    rfl
  have hparent : checkParent (toyTree pred (n + 1))
      (toyState.withLastAum (toyTree pred n)) false = .ok () := by
    simp [checkParent, State.withLastAum, toyTree_parent]
  have hsig : verifySignatures (toyState.withLastAum (toyTree pred n))
      (toyTree pred (n + 1)).sigHash 0 (toyTree pred (n + 1)).signatures = .ok () := by
    have hkey : (toyState.withLastAum (toyTree pred n)).key (toyBytes 7) = some (toyKey 7) := rfl
    have hlen : (toyBytes 7 ++ toyBytes (n + 1)).length = 64 := rfl
    have hver : Crypto.verifyStrict (toyKey 7).publicKey (toyTree pred (n + 1)).sigHash
        (toyBytes 7 ++ toyBytes (n + 1)) = true := by
      exact beq_self_eq_true _
    change verifySignatures _ _ 0 [⟨toyBytes 7, toyBytes 7 ++ toyBytes (n + 1)⟩] = _
    simp only [verifySignatures, hkey, okOr_some, ok_bind, hlen, hver]
    rfl
  exact verifyAum_of_parts hvalid hparent rfl hsig rfl

theorem toy_applyVerified (n : ℕ) :
    (toyState.withLastAum (toyTree pred n)).applyVerified (toyTree pred (n + 1)) =
      .ok (toyState.withLastAum (toyTree pred (n + 1))) := by
  have hfollows : (toyState.withLastAum (toyTree pred n)).checkFollows
      (toyTree pred (n + 1)) = .ok () := by
    simp only [State.checkFollows, State.withLastAum, toyTree_hash]
    simp [toyTree]
  simp only [State.applyVerified, hfollows, ok_bind]
  rfl

theorem toy_short {m : Contents} {n : ℕ} (hn : n < 65536)
    (hm : ∀ a, a ∈ m → ∃ i ≤ n, a = toyTree pred i) {l : List Aum} (h : Ancestry m l) :
    ∃ i ≤ n, l.head? = some (toyTree pred i) ∧ l.length ≤ i + 1 := by
  induction h with
  | single ha =>
    obtain ⟨i, hi, rfl⟩ := hm _ ha
    exact ⟨i, hi, rfl, by simp⟩
  | cons _ ha hp ih =>
    obtain ⟨j, hj, hhead, hlen⟩ := ih
    cases hhead
    obtain ⟨i, hi, rfl⟩ := hm _ ha
    cases i with
    | zero => cases hp
    | succ i =>
      rw [toyTree_parent, Option.some.injEq] at hp
      have hij : i = j := by
        apply toyBytes_inj (by omega) (by omega)
        rw [← toyTree_hash pred, ← toyTree_hash pred, hp]
      subst hij
      exact ⟨i + 1, hi, rfl, by rw [length_cons]; omega⟩

/-- Chains of every length below the scan limit are reachable. -/
theorem toy_chain_reach (n : ℕ) (hn : n < maxScanIterations) :
    ∃ (s : MemChonk) (A : Authority) (l : List Aum),
      Reach (toyWorld pred) toyGenesis s A ∧ l.length = n ∧
      Chain (contents s) toyGenesis (toyTree pred n :: l) (toyState.withLastAum (toyTree pred n)) ∧
      ∀ a, a ∈ contents s → ∃ i ≤ n, a = toyTree pred i := by
  have hW := toyWorld_injOn pred
  induction n with
  | zero =>
    have hmem := bootstrap_contents (by rfl) toy_bootstrap
    exact ⟨toyStorage, toyAuthority, [], toy_reach _, rfl,
      .genesis ((hmem _).mpr rfl) rfl, fun a ha => ⟨0, le_rfl, (hmem a).mp ha⟩⟩
  | succ n ih =>
    have h2000 : maxScanIterations = 2000 := rfl
    obtain ⟨s, A, l, hreach, hlen, hchain, hmem⟩ := ih (by omega)
    have hlive := hreach.live hW
    have hus : ∀ u ∈ [toyTree pred (n + 1)], u ∈ toyWorld pred := fun u hu => by
      rw [mem_singleton.mp hu]
      exact toyTree_mem (by omega)
    have hmem' : ∀ a, a ∈ (contents s).addAll [toyTree pred (n + 1)] →
        ∃ i ≤ n + 1, a = toyTree pred i := by
      intro a ha
      rw [Contents.mem_addAll hW hlive.within hus, mem_singleton] at ha
      rcases ha with ha | rfl
      · obtain ⟨i, hi, rfl⟩ := hmem a ha
        exact ⟨i, by omega, rfl⟩
      · exact ⟨n + 1, le_rfl, rfl⟩
    have hx : Extends (contents s) toyGenesis [toyTree pred (n + 1)] :=
      ⟨Or.inr ⟨_, _, _, _, hchain, toyTree_parent, toy_verifyAum n, toy_applyVerified n⟩, trivial⟩
    have hshort : Short ((contents s).addAll [toyTree pred (n + 1)]) := by
      intro l' hl'
      obtain ⟨i, hi, -, hle⟩ := toy_short (by omega) hmem' hl'
      omega
    rcases hlive.inform_cases hW hus with ⟨-, -, -, s', A', hrun, hc, -⟩ | ⟨-, -, hn, -⟩ | ⟨hn, -⟩
    · have hin : toyTree pred (n + 1) ∈ contents s' := by
        rw [hc, Contents.mem_addAll hW hlive.within hus]
        exact Or.inr (mem_singleton_self _)
      have hle : contents s ≤ contents s' := hc ▸ Contents.le_addAll _ _
      exact ⟨s', A', _, .inform hreach hus hrun, by rw [length_cons, hlen],
        .step (hchain.mono hle) hin toyTree_parent (toy_verifyAum n) (toy_applyVerified n),
        hc ▸ hmem'⟩
    · exact absurd hshort hn
    · exact absurd hx (hn.resolve_left (by simp))

/-- On a chain of 2000 AUMs one more is stored by a failing call, and the storage does not open any
more. -/
theorem inform_not_atomic : ∃ (s s' : MemChonk) (A : Authority) (u : Aum) (e : AuthorityError),
    Reach (toyWorld pred) toyGenesis s A ∧ A.inform s [u] = (.error e, s', A) ∧
      contents s' ≠ contents s ∧ Authority.open s = .ok A ∧ ∀ B, Authority.open s' ≠ .ok B := by
  have hW := toyWorld_injOn pred
  obtain ⟨s, A, l, hreach, hlen, hchain, hmem⟩ := toy_chain_reach 1999 (by decide)
  have hlive := hreach.live hW
  have hus : ∀ u ∈ [toyTree pred 2000], u ∈ toyWorld pred := fun u hu => by
    rw [mem_singleton.mp hu]
    exact toyTree_mem (by norm_num)
  have hx : Extends (contents s) toyGenesis [toyTree pred 2000] :=
    ⟨Or.inr ⟨_, _, _, _, hchain, toyTree_parent, toy_verifyAum 1999, toy_applyVerified 1999⟩,
      trivial⟩
  have hin : toyTree pred 2000 ∈ (contents s).addAll [toyTree pred 2000] := by
    rw [Contents.mem_addAll hW hlive.within hus]
    exact Or.inr (mem_singleton_self _)
  have hlong : ¬ Short ((contents s).addAll [toyTree pred 2000]) := by
    intro hshort
    have h2000 : maxScanIterations = 2000 := rfl
    have hc : Chain _ toyGenesis _ _ := .step (hchain.mono (Contents.le_addAll _ _)) hin
      toyTree_parent (toy_verifyAum 1999) (toy_applyVerified 1999)
    have := hshort _ hc.ancestry
    simp only [length_cons, hlen] at this
    omega
  rcases hlive.inform_cases hW hus with ⟨-, -, hs, -⟩ | ⟨-, -, -, e, s', hrun, hc, he⟩ | ⟨hn, -⟩
  · exact absurd hs hlong
  · refine ⟨s, s', A, _, e, hreach, hrun, fun heq => hlong ?_, hlive.opened, fun B hB => ?_⟩
    · rw [← hc, heq]
      exact hlive.short
    · rw [he] at hB
      cases hB
  · exact absurd hx (hn.resolve_left (by simp))

end Toy

end Rustscale.Tka
