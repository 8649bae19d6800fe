import Rustscale.Tka.Builder

/-! What a builder hands out against the checks of `inform`, which verifies the updates one by one.
-/
namespace Rustscale.Tka
open Checks ForkChoice LawfulChonk List Contents Aum Crypto

theorem Extends.concat [Crypto] {m : Contents} {g : Aum} {us : List Aum} {u p : Aum} {l : List Aum}
    {st st' : State} (h : Extends m g us) (hc : Chain (m.addAll us) g (p :: l) st)
    (hp : u.parent = some p.hash) (hv : verifyAum u st false = .ok ())
    (happ : st.applyVerified u = .ok st') : Extends m g (us ++ [u]) := by
  induction us generalizing m with
  | nil => exact ⟨Or.inr ⟨p, l, st, st', hc, hp, hv, happ⟩, trivial⟩
  | cons v us ih => exact ⟨h.1, ih h.2 hc⟩

namespace UpdateBuilder

/-- What a session asks of its builder. -/
inductive Op where
  | addKey (key : Key)
  | removeKey (keyId : Bytes)
  | setKeyVotes (keyId : Bytes) (votes : ℕ)
  | setKeyMeta (keyId : Bytes) (metadata : Metadata)

def Op.update : Op → Aum
  | addKey key => { blank .addKey with key := some key }
  | removeKey keyId => { blank .removeKey with keyId := some keyId }
  | setKeyVotes keyId votes => { blank .updateKey with keyId := some keyId, votes := some votes }
  | setKeyMeta keyId metadata =>
    { blank .updateKey with keyId := some keyId, metadata := some metadata }

section Session
variable [Crypto]

def perform (b : UpdateBuilder) : Op → Except AuthorityError UpdateBuilder
  | .addKey key => b.addKey key
  | .removeKey keyId => b.removeKey keyId
  | .setKeyVotes keyId votes => b.setKeyVotes keyId votes
  | .setKeyMeta keyId metadata => b.setKeyMeta keyId metadata

/-- The signer answers with signatures on the digest by trusted keys. -/
def Trusts (st : State) (signer : AumSigner) (digest : Bytes) : Prop :=
  ∃ sigs, signer digest = .ok sigs ∧ sigs ≠ [] ∧ ∀ sig ∈ sigs, ∃ key,
    st.key sig.keyId = some key ∧ isVerifyingKey key.publicKey = true ∧
      verifyStrict key.publicKey digest sig.signature = true

/-- A session whose signer is trusted by the state before each update. -/
inductive Session (A : Authority) (signer : AumSigner) : UpdateBuilder → Prop
  | new : Session A signer (new A (some signer))
  | op {b b' : UpdateBuilder} {op : Op} (h : Session A signer b)
      (ht : Trusts b.state signer (b.next op.update []).sigHash) (hop : b.perform op = .ok b') :
      Session A signer b'

/-- The builder that `finalize` leaves, with the signer trusted at a checkpoint. -/
def Finishes {σ : Type} [Chonk σ] (s : σ) (signer : AumSigner) (b b' : UpdateBuilder) : Prop :=
  ∃ need, needCheckpoint s (checkpointEvery - b.updates.length) b.authority.head.hash = .ok need ∧
    if need then
      Trusts b.state signer
        (b.next { blank .checkpoint with state := some b.state.cleared } []).sigHash ∧
      b.checkpoint = .ok b'
    else b' = b

variable {A : Authority} {signer : AumSigner} {b b' : UpdateBuilder}

theorem push_of_perform {op : Op} (h : b.perform op = .ok b') : b.push op.update = .ok b' := by
  cases op with
  | addKey key =>
    simp only [perform, addKey, bind_eq_ok, exists_unit] at h
    obtain ⟨-, -, -, -, -, hpush⟩ := h
    exact hpush
  | removeKey keyId | setKeyVotes keyId votes | setKeyMeta keyId metadata => exact pushFor_eq_ok h

theorem Session.built (h : Session A signer b) : Built A (some signer) b := by
  induction h with
  | new => exact .new
  | @op b b' op _ _ hop ih =>
    cases op with
    | addKey => exact .addKey ih hop
    | removeKey => exact .removeKey ih hop
    | setKeyVotes => exact .setKeyVotes ih hop
    | setKeyMeta => exact .setKeyMeta ih hop

/-- Updates that apply in turn, each with signatures by keys trusted before it. -/
inductive Applied (st0 : State) : List Aum → State → Prop
  | nil : Applied st0 [] st0
  | concat {us : List Aum} {u : Aum} {st st' : State} (h : Applied st0 us st)
      (hval : u.validate = .ok ()) (hne : u.signatures ≠ [])
      (hsig : verifySignatures st u.sigHash 0 u.signatures = .ok ())
      (happ : st.applyVerified u = .ok st') : Applied st0 (us ++ [u]) st'

omit [Crypto] in
theorem lengths_of_checkSignatures {sigs : List Signature} {index : ℕ}
    (h : checkSignatures index sigs = .ok ()) (x : Signature) (hx : x ∈ sigs) :
    x.keyId.length = 32 ∧ x.signature.length = 64 := by
  induction sigs generalizing index with
  | nil => cases hx
  | cons y sigs ih =>
    simp only [checkSignatures, bind_eq_ok, ensure_eq_ok, exists_unit, Bool.not_eq_true',
      Bool.or_eq_false_iff, bne_eq_false_iff_eq] at h
    rcases mem_cons.mp hx with rfl | hx
    · exact h.1
    · exact ih h.2 hx

omit [Crypto] in
theorem key_of_state {st : State} {keyId : Bytes} {key : Key} (h : st.key keyId = some key) :
    key.kind = .key25519 ∧ key.publicKey = keyId := by
  have hid := find?_some h
  unfold Key.hasId Key.id at hid
  cases hk : key.kind with
  | invalid => simp [hk] at hid
  | key25519 =>
    simp only [hk, beq_iff_eq] at hid
    exact ⟨rfl, hid⟩

theorem verifySignatures_of_trusted {st : State} {digest : Bytes} {sigs : List Signature}
    (hlen : ∀ x ∈ sigs, x.keyId.length = 32 ∧ x.signature.length = 64)
    (htrust : ∀ sig ∈ sigs, ∃ key, st.key sig.keyId = some key ∧
      isVerifyingKey key.publicKey = true ∧
      verifyStrict key.publicKey digest sig.signature = true) :
    ∀ index, verifySignatures st digest index sigs = .ok () := by
  induction sigs with
  | nil => exact fun _ => rfl
  | cons sig sigs ih =>
    intro index
    obtain ⟨key, hkey, hvk, hv⟩ := htrust sig mem_cons_self
    obtain ⟨hid, hsig⟩ := hlen sig mem_cons_self
    obtain ⟨hkind, hpub⟩ := key_of_state hkey
    simp only [verifySignatures, hkey, okOr_some, ok_bind, hkind, beq_self_eq_true, ensure_true,
      hpub, hid, hsig, hpub ▸ hvk, hpub ▸ hv]
    exact ih (fun x hx => hlen x (mem_cons_of_mem _ hx))
      (fun x hx => htrust x (mem_cons_of_mem _ hx)) _

theorem Applied.push {st0 : State} {u : Aum} (h : Applied st0 b.updates b.state)
    (hs : b.signer = some signer) (ht : Trusts b.state signer (b.next u []).sigHash)
    (hpush : b.push u = .ok b') : Applied st0 b'.updates b'.state := by
  obtain ⟨sigs, st, hsigs, hval, happ, rfl⟩ := push_eq_ok.mp hpush
  obtain ⟨sigs', hsigner, hne, htrust⟩ := ht
  obtain rfl : sigs = sigs' := by
    simp only [signatures, hs, hsigner, mapError_ok] at hsigs
    cases hsigs
    rfl
  have hcheck : checkSignatures 0 sigs = .ok () := by
    simp only [validate, bind_eq_ok, exists_unit] at hval
    exact hval.2.1
  exact .concat h hval hne
    (verifySignatures_of_trusted (lengths_of_checkSignatures hcheck) htrust 0) happ

theorem Session.applied (h : Session A signer b) :
    Applied A.state b.updates b.state ∧ b.signer = some signer := by
  induction h with
  | new => exact ⟨.nil, rfl⟩
  | op _ ht hop ih =>
    have hpush := push_of_perform hop
    refine ⟨ih.1.push ih.2 ht hpush, ?_⟩
    obtain ⟨sigs, st, -, -, -, rfl⟩ := push_eq_ok.mp hpush
    exact ih.2

theorem keys_ne_of_verifySignatures {st : State} {digest : Bytes} {sigs : List Signature}
    (hne : sigs ≠ []) (h : verifySignatures st digest 0 sigs = .ok ()) : st.keys ≠ [] := by
  cases sigs with
  | nil => exact absurd rfl hne
  | cons sig sigs =>
    simp only [verifySignatures, bind_eq_ok, okOr_eq_ok] at h
    obtain ⟨key, hkey, -⟩ := h
    exact ne_nil_of_mem (mem_of_find?_eq_some hkey)

theorem checkLastKey_of_keys {gs st st' : State} {u : Aum} (hc : State.Core gs st)
    (hval : u.validate = .ok ()) (happ : st.applyVerified u = .ok st') (hne : st'.keys ≠ []) :
    checkLastKey u st = .ok () := by
  have hlen := (applyVerified_core hc hval happ).2
  unfold checkLastKey
  split
  · next key hk hkeys =>
    rw [hkeys, keyCountAfter, hk] at hlen
    exact absurd (length_eq_zero_iff.mp hlen) hne
  · rfl

variable {m : Contents} {g : Aum}

theorem verifyAum_of_applied {p u : Aum} {t : List Aum} {st st' : State}
    (hc : Chain m g (p :: t) st) (hval : u.validate = .ok ()) (hsne : u.signatures ≠ [])
    (hsig : verifySignatures st u.sigHash 0 u.signatures = .ok ())
    (happ : st.applyVerified u = .ok st') (hne : st'.keys ≠ []) :
    u.parent = some p.hash ∧ verifyAum u st false = .ok () := by
  have hlast := hc.lastAumHash
  obtain ⟨gs, -, hcore, -⟩ := hc.core
  have hpar : u.parent = some p.hash := by
    obtain ⟨-, hf, -⟩ := applyVerified_eq_ok happ
    simp only [State.checkFollows, hlast, ensure_eq_ok, beq_iff_eq] at hf
    simp [Aum.parent, hf]
  have hparent : checkParent u st false = .ok () := by
    simp [checkParent, hlast, hpar]
  exact ⟨hpar, verifyAum_of_parts hval hparent (by simpa using hsne) hsig
    (checkLastKey_of_keys hcore hval happ hne)⟩

omit [Crypto] in
theorem exists_cons_of_append (us : List Aum) (a : Aum) (l : List Aum) :
    ∃ p t, us.reverse ++ a :: l = p :: t := exists_cons_of_ne_nil (by simp)

theorem Applied.chain {st0 st : State} {us l : List Aum} {a : Aum} (h : Applied st0 us st)
    (hl : Chain m g (a :: l) st0) (hus : ∀ u ∈ us, u ∈ m) (hne : st.keys ≠ []) :
    Chain m g (us.reverse ++ a :: l) st := by
  induction h with
  | nil => exact hl
  | @concat us u st st' h hval hsne hsig happ ih =>
    have hprev := ih (fun v hv => hus v (mem_append_left _ hv))
      (keys_ne_of_verifySignatures hsne hsig)
    obtain ⟨p, t, hpt⟩ := exists_cons_of_append us a l
    rw [reverse_append, reverse_singleton, singleton_append, cons_append, hpt]
    rw [hpt] at hprev
    obtain ⟨hpar, hv⟩ := verifyAum_of_applied hprev hval hsne hsig happ hne
    exact .step hprev (hus u (by simp)) hpar hv happ

theorem Applied.extends {W : Set Aum} {st0 st : State} {us l : List Aum} {a : Aum}
    (h : Applied st0 us st) (hW : Set.InjOn hash W) (hm : ∀ a, a ∈ m → a ∈ W)
    (hus : ∀ u ∈ us, u ∈ W) (hl : Chain m g (a :: l) st0) (hne : st.keys ≠ []) :
    Extends m g us := by
  induction h with
  | nil => trivial
  | @concat us u st st' h hval hsne hsig happ ih =>
    have husW : ∀ v ∈ us, v ∈ W := fun v hv => hus v (mem_append_left _ hv)
    have hkeys := keys_ne_of_verifySignatures hsne hsig
    have hprev := h.chain (hl.mono (le_addAll m us))
      (fun v hv => (mem_addAll hW hm husW).mpr (Or.inr hv)) hkeys
    obtain ⟨p, t, hpt⟩ := exists_cons_of_append us a l
    rw [hpt] at hprev
    obtain ⟨hpar, hv⟩ := verifyAum_of_applied hprev hval hsne hsig happ hne
    exact (ih husW hkeys).concat hprev hpar hv happ

end Session

end UpdateBuilder

section Sound
open UpdateBuilder
variable [Crypto] {σ : Type} [LawfulChonk σ] {s : σ} {g : Aum} {W : Set Aum} {A : Authority}
  {signer : AumSigner} {b b' : UpdateBuilder}

theorem Chain.isChain {m : Contents} {l : List Aum} {st : State} (h : Chain m g l st) :
    List.IsChain (fun c p => p ∈ m ∧ c ∈ m ∧ c.parent = some p.hash) l := by
  induction h with
  | genesis => exact isChain_singleton _
  | step hc ha hp _ _ ih =>
    exact isChain_cons_cons.mpr ⟨⟨hc.mem mem_cons_self, ha, hp⟩, ih⟩

/-- Updates that make one chain below the head become the active chain. -/
theorem Live.follow (h : Live W g s A) {s' : σ} {A' : Authority} (h' : Live W g s' A')
    {us : List Aum} (hmem : ∀ a, a ∈ contents s' ↔ a ∈ contents s ∨ a ∈ us) {l : List Aum}
    (hl : Chain (contents s) g (A.head :: l) A.state) {st : State}
    (hus : Chain (contents s') g (us.reverse ++ A.head :: l) st) : A'.state = st := by
  have hle : contents s ≤ contents s' := fun a ha => (hmem a).mpr (Or.inl ha)
  obtain ⟨w, hw, hhead, -, hchain⟩ := h.walk h'.sound hle
  obtain ⟨w', hw', hhead', -, hchain'⟩ := h'.walk h'.sound (le_refl _)
  have hpath : List.IsChain (forest h'.sound).Child (w.getLastD g :: us) := by
    have hrev := hus.isChain
    rw [← singleton_append, ← append_assoc, ← reverse_cons, isChain_append] at hrev
    rw [← hhead, ← reverse_reverse (A.head :: us), isChain_reverse]
    exact hrev.1
  have hext : (forest h'.sound).Walk (contents s').toSet g (w ++ us) :=
    hw.extend h.sound.genesis (h'.sound.closed h.sound hle)
      (fun hp hq => eq_of_hash hp.1 hq.1 (Option.mem_unique hp.2.2 hq.2.2))
      hpath hmem
  rw [hw'.unique hext] at hchain'
  have hwl : w.reverse ++ [g] = A.head :: l := by
    obtain ⟨t, ht⟩ := reverse_append_eq w g
    rw [ht, ← hhead] at hchain ⊢
    rw [(hchain.unique hl).2 h.sound.anchored]
  rw [reverse_append, append_assoc, hwl] at hchain'
  obtain ⟨p, t, hpt⟩ := exists_cons_of_append us A.head l
  rw [hpt] at hchain' hus
  exact (hchain'.unique hus).1

theorem UpdateBuilder.Session.finishes {gs : State} {l : List Aum} (hb : Session A signer b)
    (hf : Follows gs A (some signer) l b) (hfin : Finishes s signer b b') :
    Applied A.state b'.updates b'.state ∧ Follows gs A (some signer) l b' ∧
      b.finalize s = .ok b'.updates := by
  obtain ⟨happ, hsigner⟩ := hb.applied
  obtain ⟨need, hneed, hfin⟩ := hfin
  cases need with
  | true =>
    obtain ⟨ht, hcp⟩ := hfin
    have hf' := hf.push hcp
    refine ⟨happ.push hsigner ht hcp, hf', ?_⟩
    simp only [finalize, hneed, ok_bind, if_true, hcp, hf'.checkFirst]
    rfl
  | false =>
    obtain rfl : b' = b := hfin
    refine ⟨happ, hf, ?_⟩
    simp [finalize, hneed, ok_bind, hf.checkFirst]

/-- `inform` takes in the updates of a finalized session, with the builder's parent and state as
head and state, exactly if there are any, they leave a trusted key and no chain gets too long. -/
theorem inform_finalize_iff (h : Reach W g s A) (hW : Set.InjOn hash W)
    (hb : Session A signer b) (hfin : Finishes s signer b b') (hus : ∀ u ∈ b'.updates, u ∈ W) :
    b.finalize s = .ok b'.updates ∧
      ((∃ s' A', A.inform s b'.updates = (.ok (), s', A') ∧ A'.head.hash = b'.parent ∧
          A'.state = b'.state) ↔
        b'.updates ≠ [] ∧ b'.state.keys ≠ [] ∧ Short ((contents s).addAll b'.updates)) := by
  obtain ⟨l, hl⟩ := h.chain
  obtain ⟨gs, -, hcore, -, hcount⟩ := hl.core
  obtain ⟨happ, hf, hfinal⟩ := hb.finishes (hb.built.follows hcore hl.lastAumHash hcount) hfin
  have hlive := h.live hW
  refine ⟨hfinal, ?_, ?_⟩
  · rintro ⟨s', A', hi, -, hstate⟩
    obtain ⟨l', hl'⟩ := (Reach.inform h hus hi).chain
    obtain ⟨-, -, -, hkeys, -⟩ := hl'.core
    rcases hlive.inform_cases hW hus with ⟨hne, -, hshort, -⟩ | ⟨-, -, -, e, s1, hrun, -⟩ |
      ⟨-, e, hrun⟩
    · exact ⟨hne, hstate ▸ hkeys, hshort⟩
    all_goals
      rw [hi] at hrun
      cases hrun
  · rintro ⟨hne, hkeys, hshort⟩
    rcases hlive.inform_cases hW hus with ⟨-, -, -, s', A', hrun, hc, hlive'⟩ | ⟨-, -, hn, -⟩ |
      ⟨hn, -⟩
    · have hmem : ∀ a, a ∈ contents s' ↔ a ∈ contents s ∨ a ∈ b'.updates := fun a => by
        rw [hc, mem_addAll hW hlive.within hus]
      have hstate : A'.state = b'.state := hlive.follow hlive' hmem hl
        (happ.chain (hl.mono fun a ha => (hmem a).mpr (Or.inl ha))
          (fun u hu => (hmem u).mpr (Or.inr hu)) hkeys)
      refine ⟨s', A', hrun, AumHash.ext_bytes ?_, hstate⟩
      obtain ⟨l', hl'⟩ := hlive'.chain
      have hlast := hl'.lastAumHash
      rw [hstate, hf.last] at hlast
      exact (Option.some.inj hlast).symm
    · exact absurd hshort hn
    · exact absurd (happ.extends hW hlive.within hus hl hkeys) (hn.resolve_left hne)

end Sound

section Toy
open UpdateBuilder

namespace KindToy

scoped instance kindCrypto : Crypto where
  digest := fun a =>
    ⟨toyBytes (match a.messageKind with
      | .checkpoint => 0
      | .addKey => 1
      | .removeKey => 2
      | .updateKey => 3
      | .noOp => 4
      | .invalid => 5), by simp [toyBytes]⟩
  isVerifyingKey := fun key => key.length == 32
  verifyStrict := fun key digest signature => signature == key ++ digest
  verify := fun key digest signature => signature == key ++ digest

end KindToy

open KindToy

def kindSigner : AumSigner := fun digest => .ok [⟨toyBytes 7, toyBytes 7 ++ digest⟩]

def kindAuthority : Authority := ⟨toyGenesis, toyGenesis, toyState.withLastAum toyGenesis⟩

def kindStorage : MemChonk := (Authority.bootstrap MemChonk.new toyGenesis).2

theorem kind_reach {W : Set Aum} (hg : toyGenesis ∈ W) :
    Reach W toyGenesis kindStorage kindAuthority :=
  .bootstrap (by rfl) hg (rfl : Authority.bootstrap MemChonk.new toyGenesis = _)

theorem kind_trusts {st : State} (h : (st.key (toyBytes 7)).isSome) {digest : Bytes} :
    Trusts st kindSigner digest := by
  obtain ⟨key, h⟩ := Option.isSome_iff_exists.mp h
  refine ⟨_, rfl, by simp, fun sig hsig => ?_⟩
  obtain rfl := mem_singleton.mp hsig
  obtain ⟨-, hpub⟩ := key_of_state h
  exact ⟨key, h, by rw [hpub]; rfl, by rw [hpub]; exact beq_self_eq_true _⟩

def kindBuilt (op : Op) : UpdateBuilder :=
  (((new kindAuthority (some kindSigner)).perform op).toOption).getD
    (new kindAuthority (some kindSigner))

theorem kind_session {op : Op}
    (h : (new kindAuthority (some kindSigner)).perform op = .ok (kindBuilt op)) :
    Session kindAuthority kindSigner (kindBuilt op) :=
  .op .new (kind_trusts rfl) h

theorem kind_injOn (a : Aum) (h : a.hash ≠ toyGenesis.hash) : Set.InjOn hash {toyGenesis, a} := by
  rintro x (rfl | rfl) y (rfl | rfl) hxy
  · rfl
  · exact absurd hxy.symm h
  · exact absurd hxy h
  · rfl

/-- An added key is handed out and taken in. -/
theorem inform_finalize_addKey : ∃ s' A',
    kindAuthority.inform kindStorage (kindBuilt (.addKey (toyKey 8))).updates = (.ok (), s', A') ∧
      A'.state.keys = [toyKey 7, toyKey 8] ∧
      Short ((contents kindStorage).addAll (kindBuilt (.addKey (toyKey 8))).updates) := by
  have hiff := inform_finalize_iff (b := kindBuilt (.addKey (toyKey 8))) (kind_reach (Or.inl rfl))
    (kind_injOn ((kindBuilt (.addKey (toyKey 8))).updates.headD toyGenesis) (by decide))
    (kind_session rfl) ⟨false, rfl, rfl⟩ (fun u hu => Or.inr ?_)
  · exact ⟨_, _, rfl, rfl, (hiff.2.mp ⟨_, _, rfl, rfl, rfl⟩).2.2⟩
  · exact mem_singleton.mp hu

/-- One session removes the only trusted key, one has no operations: both are finalized and refused.
-/
theorem inform_refuses_finalize :
    Reach Set.univ toyGenesis kindStorage kindAuthority ∧
      (∃ us, Session kindAuthority kindSigner (kindBuilt (.removeKey (toyBytes 7))) ∧
        (kindBuilt (.removeKey (toyBytes 7))).finalize kindStorage = .ok us ∧
        (kindAuthority.inform kindStorage us).1 =
          .error (.invalidAum "update 0: invalid AUM: cannot remove the last trusted key")) ∧
      Session kindAuthority kindSigner (new kindAuthority (some kindSigner)) ∧
      (new kindAuthority (some kindSigner)).finalize kindStorage = .ok [] ∧
      (kindAuthority.inform kindStorage []).1 = .error .emptyInform :=
  ⟨kind_reach trivial,
    ⟨(kindBuilt (.removeKey (toyBytes 7))).updates, kind_session rfl, rfl, rfl⟩, .new, rfl, rfl⟩

end Toy
end Rustscale.Tka
