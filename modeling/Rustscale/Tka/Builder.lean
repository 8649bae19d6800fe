import Rustscale.Tka.Checkpoint

/-! The builder of signed updates, which inserts a checkpoint when one is due. -/
namespace Rustscale.Tka
open Checks LawfulChonk List Aum State

def maxKeys : ℕ := 512
def checkpointEvery : ℕ := 50

/-- Updates that are built on top of an authority and not yet stored. -/
structure UpdateBuilder where
  authority : Authority
  signer : Option AumSigner
  state : State
  parent : AumHash
  updates : List Aum

namespace UpdateBuilder

def blank (messageKind : AumKind) : Aum :=
  { messageKind, prevAumHash := none, key := none, keyId := none, state := none, votes := none,
    metadata := none, signatures := [] }

def signatures (signer : Option AumSigner) (digest : Bytes) :
    Except AuthorityError (List Signature) :=
  match signer with
  | some signer => (signer digest).mapError .signing
  | none => .ok []

section Model
variable [Crypto]

def new (authority : Authority) (signer : Option AumSigner) : UpdateBuilder :=
  { authority, signer, state := authority.state, parent := authority.head.hash, updates := [] }

variable (b : UpdateBuilder) (keyId : Bytes) (update : Aum)

def next (signatures : List Signature) : Aum :=
  { update with prevAumHash := some b.parent.bytes, signatures }

def push : Except AuthorityError UpdateBuilder := do
  let signatures ← signatures b.signer (b.next update []).sigHash
  let update := b.next update signatures
  update.validate.mapError .invalidAum
  let state ← (b.state.applyVerified update).mapError .invalidState
  pure { b with state, parent := update.hash, updates := b.updates ++ [update] }

def addKey (b : UpdateBuilder) (key : Key) : Except AuthorityError UpdateBuilder := do
  key.validate.mapError .invalidState
  let id ← key.id.mapError .invalidState
  ensure (b.state.key id).isNone (.invalidState "key already exists")
  ensure (!decide (maxKeys ≤ b.state.keys.length))
    (.invalidState "maximum number of trusted keys reached")
  b.push { blank .addKey with key := some key }

def pushFor : Except AuthorityError UpdateBuilder := do
  ensure (b.state.key keyId).isSome (.invalidState "key not found")
  b.push update

def removeKey (b : UpdateBuilder) (keyId : Bytes) : Except AuthorityError UpdateBuilder :=
  b.pushFor keyId { blank .removeKey with keyId := some keyId }

def setKeyVotes (votes : ℕ) : Except AuthorityError UpdateBuilder :=
  b.pushFor keyId { blank .updateKey with keyId := some keyId, votes := some votes }

def setKeyMeta (metadata : Metadata) : Except AuthorityError UpdateBuilder :=
  b.pushFor keyId { blank .updateKey with keyId := some keyId, metadata := some metadata }

def checkpoint (b : UpdateBuilder) : Except AuthorityError UpdateBuilder :=
  b.push { blank .checkpoint with state := some b.state.cleared }

/-- The scan of `finalize` back from `cursor`: whether the AUMs go without a checkpoint. -/
def needCheckpoint {σ : Type} [Chonk σ] (s : σ) : ℕ → AumHash → Except AuthorityError Bool
  | 0, _ => .ok true
  | n + 1, cursor =>
    match Chonk.aum s cursor with
    | .error error => if error.isNotFound then .ok false else .error (.storage error)
    | .ok aum =>
      if aum.messageKind = .checkpoint then .ok false
      else
        match aum.parent with
        | none => .ok false
        | some parent => needCheckpoint s n parent

def checkFirst : Except AuthorityError Unit :=
  match b.updates with
  | [] => .ok ()
  | first :: _ => ensure (first.parent == some b.authority.head.hash)
      (.invalidState "updates no longer apply to authority head")

def finalize {σ : Type} [Chonk σ] (b : UpdateBuilder) (s : σ) :
    Except AuthorityError (List Aum) := do
  let need ← needCheckpoint s (checkpointEvery - b.updates.length) b.authority.head.hash
  let b ← if need then b.checkpoint else pure b
  b.checkFirst
  pure b.updates

end Model

/-- A signer answers with signatures of the right shape. -/
def SignerOk (signer : Option AumSigner) : Prop :=
  ∀ f, signer = some f → ∀ digest, ∃ sigs, f digest = .ok sigs ∧
    ∀ x ∈ sigs, x.keyId.length = 32 ∧ x.signature.length = 64

/-- The builders that the calls of a session can reach. -/
inductive Built [Crypto] (A : Authority) (signer : Option AumSigner) : UpdateBuilder → Prop
  | new : Built A signer (new A signer)
  | addKey {b b' : UpdateBuilder} {key : Key} (h : Built A signer b)
      (hk : b.addKey key = .ok b') : Built A signer b'
  | removeKey {b b' : UpdateBuilder} {keyId : Bytes} (h : Built A signer b)
      (hk : b.removeKey keyId = .ok b') : Built A signer b'
  | setKeyVotes {b b' : UpdateBuilder} {keyId : Bytes} {votes : ℕ} (h : Built A signer b)
      (hk : b.setKeyVotes keyId votes = .ok b') : Built A signer b'
  | setKeyMeta {b b' : UpdateBuilder} {keyId : Bytes} {metadata : Metadata}
      (h : Built A signer b) (hk : b.setKeyMeta keyId metadata = .ok b') : Built A signer b'

section Finalize
variable [Crypto] {A : Authority} {signer : Option AumSigner} {b b' : UpdateBuilder} {gs : State}
  {l : List Aum}

/-- A builder's updates follow the chain `l` below the head of its authority. -/
structure Follows (gs : State) (A : Authority) (signer : Option AumSigner) (l : List Aum)
    (b : UpdateBuilder) : Prop where
  authority : b.authority = A
  signer_eq : b.signer = signer
  core : State.Core gs b.state
  last : b.state.lastAumHash = some b.parent.bytes
  count : b.state.keys.length = keyCount (b.updates.reverse ++ A.head :: l)
  first : ∀ u us, b.updates = u :: us → u.parent = some A.head.hash
  parent_nil : b.updates = [] → b.parent = A.head.hash

theorem push_eq_ok {u : Aum} : b.push u = .ok b' ↔ ∃ sigs st,
    signatures b.signer (b.next u []).sigHash = .ok sigs ∧ (b.next u sigs).validate = .ok () ∧
    b.state.applyVerified (b.next u sigs) = .ok st ∧
    b' = { b with state := st, parent := (b.next u sigs).hash,
                  updates := b.updates ++ [b.next u sigs] } := by
  simp only [push, bind_eq_ok, mapError_eq_ok, exists_unit]
  constructor
  · rintro ⟨sigs, hsigs, hval, st, happ, h⟩
    cases h
    exact ⟨sigs, st, hsigs, hval, happ, rfl⟩
  · rintro ⟨sigs, st, hsigs, hval, happ, rfl⟩
    exact ⟨sigs, hsigs, hval, st, happ, rfl⟩

theorem Follows.push {u : Aum} (hb : Follows gs A signer l b) (h : b.push u = .ok b') :
    Follows gs A signer l b' := by
  obtain ⟨sigs, st, -, hval, happ, rfl⟩ := push_eq_ok.mp h
  obtain ⟨hcore, hlen⟩ := applyVerified_core hb.core hval happ
  refine ⟨hb.authority, hb.signer_eq, hcore, applyVerified_lastAumHash happ, ?_, ?_, ?_⟩
  · rw [hlen, hb.count, reverse_append]
    rfl
  · intro v vs hv
    cases hu : b.updates with
    | nil =>
      rw [hu, nil_append] at hv
      cases hv
      simp [Aum.parent, next, hb.parent_nil hu]
    | cons w ws =>
      rw [hu, cons_append] at hv
      obtain ⟨rfl, -⟩ := List.cons.inj hv
      exact hb.first _ ws hu
  · exact fun hnil => absurd hnil (by simp)

theorem pushFor_eq_ok {keyId : Bytes} {u : Aum} (h : b.pushFor keyId u = .ok b') :
    b.push u = .ok b' := by
  simp only [pushFor, bind_eq_ok, exists_unit] at h
  exact h.2

theorem Built.follows (h : Built A signer b) (hcore : State.Core gs A.state)
    (hlast : A.state.lastAumHash = some A.head.hash.bytes)
    (hcount : A.state.keys.length = keyCount (A.head :: l)) : Follows gs A signer l b := by
  induction h with
  | new =>
    exact ⟨rfl, rfl, hcore, hlast, hcount, fun _ _ hn => absurd hn (by simp [UpdateBuilder.new]),
      fun _ => rfl⟩
  | addKey _ hk ih =>
    simp only [UpdateBuilder.addKey, bind_eq_ok, exists_unit] at hk
    obtain ⟨-, -, -, -, -, hpush⟩ := hk
    exact ih.push hpush
  | removeKey _ hk ih | setKeyVotes _ hk ih | setKeyMeta _ hk ih => exact ih.push (pushFor_eq_ok hk)

omit [Crypto] in
theorem checkSignatures_of_lengths {sigs : List Signature}
    (h : ∀ x ∈ sigs, x.keyId.length = 32 ∧ x.signature.length = 64) :
    ∀ index, checkSignatures index sigs = .ok () := by
  induction sigs with
  | nil => exact fun _ => rfl
  | cons x sigs ih =>
    intro index
    obtain ⟨hid, hsig⟩ := h x mem_cons_self
    simp only [checkSignatures, hid, hsig, bne_self_eq_false, Bool.or_self, Bool.not_false,
      ensure_true, ok_bind]
    exact ih (fun y hy => h y (mem_cons_of_mem _ hy)) _

omit [Crypto] in
theorem signatures_ok (hs : SignerOk signer) (digest : Bytes) :
    ∃ sigs, signatures signer digest = .ok sigs ∧ checkSignatures 0 sigs = .ok () := by
  cases signer with
  | none => exact ⟨[], rfl, rfl⟩
  | some f =>
    obtain ⟨sigs, hf, hlen⟩ := hs f rfl digest
    exact ⟨sigs, by simp [signatures, hf], checkSignatures_of_lengths hlen 0⟩

/-- A checkpoint can be built exactly while there are between 1 and 512 keys. -/
theorem Follows.checkpoint_iff (hb : Follows gs A signer l b) (hs : SignerOk signer) :
    (∃ b', b.checkpoint = .ok b') ↔ b.state.keys ≠ [] ∧ b.state.keys.length ≤ 512 := by
  rw [← hb.core.validateCheckpoint_iff]
  constructor
  · rintro ⟨b', h⟩
    obtain ⟨sigs, st, -, hval, -⟩ := push_eq_ok.mp h
    exact (validate_parts hval).2 _ rfl
  · intro hstate
    obtain ⟨sigs, hsigs, hcheck⟩ := signatures_ok hs
      (b.next { blank .checkpoint with state := some b.state.cleared } []).sigHash
    rw [← hb.signer_eq] at hsigs
    set cp := b.next { blank .checkpoint with state := some b.state.cleared } sigs with hcp
    have hprev : cp.checkPrevHash = .ok () := by
      simp [checkPrevHash, hcp, next, b.parent.length_eq]
    have hval : cp.validate = .ok () := by
      refine validate_of_parts hprev hcheck rfl (fun st hst => ?_) rfl
      cases hst
      exact hstate
    have happ : b.state.applyVerified cp = .ok (b.state.cleared.withLastAum cp) := by
      have hfollows : b.state.checkFollows cp = .ok () := by
        simp [checkFollows, hb.last, hcp, next]
      simp only [applyVerified, hfollows, ok_bind]
      simp [applyKind, hcp, next, blank, cleared, pure, Except.pure]
    exact ⟨_, push_eq_ok.mpr ⟨sigs, _, hsigs, hval, happ, rfl⟩⟩

theorem Follows.checkFirst (hb : Follows gs A signer l b) : b.checkFirst = .ok () := by
  unfold UpdateBuilder.checkFirst
  cases hu : b.updates with
  | nil => rfl
  | cons u us => simp [hb.first u us hu, hb.authority]

variable {σ : Type} [LawfulChonk σ] {s : σ}

/-- A checkpoint that is due is inserted exactly if the updates before it leave 1 to 512 keys. -/
theorem Follows.finalize_iff (hb : Follows gs A signer l b) (hs : SignerOk signer)
    (hneed : needCheckpoint s (checkpointEvery - b.updates.length) A.head.hash = .ok true) :
    (∃ cp, b.finalize s = .ok (b.updates ++ [cp]) ∧ cp.messageKind = .checkpoint ∧
      cp.validate = .ok ()) ↔
    0 < keyCount (b.updates.reverse ++ A.head :: l) ∧
      keyCount (b.updates.reverse ++ A.head :: l) ≤ 512 := by
  rw [← hb.count, length_pos_iff, ← hb.checkpoint_iff hs]
  simp only [finalize, hb.authority, hneed, ok_bind, if_true, bind_eq_ok, exists_unit]
  constructor
  · rintro ⟨cp, ⟨b', hb', -⟩, -⟩
    exact ⟨b', hb'⟩
  · rintro ⟨b', hb'⟩
    obtain ⟨sigs, st, -, hval, -, rfl⟩ := push_eq_ok.mp hb'
    exact ⟨_, ⟨_, hb', (hb.push hb').checkFirst, rfl⟩, rfl, hval⟩

end Finalize

end UpdateBuilder

section Reachable
open UpdateBuilder
variable [Crypto] {σ : Type} [LawfulChonk σ] {s : σ} {g : Aum} {W : Set Aum} {A : Authority}

/-- Whatever its history, an authority keeps the ids of its genesis, and its state passes as a
checkpoint exactly if its active chain leaves at most 512 keys. One that is due when a builder is
finalized is inserted exactly if the pending updates leave 1 to 512 keys. -/
theorem reach_checkpoint_iff (h : Reach W g s A) :
    ∃ gs l, g.state = some gs ∧ Chain (contents s) g (A.head :: l) A.state ∧
      A.state.stateId1 = gs.stateId1 ∧ A.state.stateId2 = gs.stateId2 ∧
      (A.state.cleared.validateCheckpoint = .ok () ↔ keyCount (A.head :: l) ≤ 512) ∧
      ∀ signer b, SignerOk signer → Built A signer b →
        needCheckpoint s (checkpointEvery - b.updates.length) A.head.hash = .ok true →
        ((∃ cp, b.finalize s = .ok (b.updates ++ [cp]) ∧ cp.messageKind = .checkpoint ∧
          cp.validate = .ok ()) ↔
        0 < keyCount (b.updates.reverse ++ A.head :: l) ∧
          keyCount (b.updates.reverse ++ A.head :: l) ≤ 512) := by
  obtain ⟨l, hl⟩ := h.chain
  obtain ⟨gs, hgs, hcore, hne, hcount⟩ := hl.core
  refine ⟨gs, l, hgs, hl, hcore.id1, hcore.id2, ?_, fun signer b hs hb hneed => ?_⟩
  · rw [hcore.validateCheckpoint_iff, hcount]
    exact and_iff_right hne
  · exact (hb.follows hcore hl.lastAumHash hcount).finalize_iff hs hneed

end Reachable

section Toy
open UpdateBuilder Toy

def toyUpdated : Authority := (toyAuthority.inform toyStorage [toyTree 0 1]).2.2

/-- Changes of the votes of the toy key. -/
def revote (b : UpdateBuilder) : ℕ → Except AuthorityError UpdateBuilder
  | 0 => .ok b
  | n + 1 => do
    let b ← revote b n
    b.setKeyVotes (toyBytes 7) (n + 1)

theorem built_revote {A : Authority} {b b' : UpdateBuilder} (hb : Built A none b) :
    ∀ {n : ℕ}, revote b n = .ok b' → Built A none b'
  | 0, h => Except.ok.inj h ▸ hb
  | n + 1, h => by
    obtain ⟨b1, hb1, hk⟩ := bind_eq_ok.mp h
    exact .setKeyVotes (built_revote hb hb1) hk

/-- After an update, a builder with fifty changes, for which a checkpoint is due. -/
theorem reach_checkpoint_iff_toy : ∃ (s : MemChonk) (A : Authority) (b : UpdateBuilder) (gs : State)
    (l : List Aum), Reach (toyWorld 0) toyGenesis s A ∧ A.head = toyTree 0 1 ∧ Built A none b ∧
    b.updates.length = 50 ∧ toyGenesis.state = some gs ∧
    Chain (contents s) toyGenesis (A.head :: l) A.state ∧
    (A.state.cleared.validateCheckpoint = .ok () ↔ keyCount (A.head :: l) ≤ 512) ∧
    ((∃ cp, b.finalize s = .ok (b.updates ++ [cp]) ∧ cp.messageKind = .checkpoint ∧
      cp.validate = .ok ()) ↔ 0 < keyCount (b.updates.reverse ++ A.head :: l) ∧
        keyCount (b.updates.reverse ++ A.head :: l) ≤ 512) := by
  have hupdate : ∀ u ∈ [toyTree 0 1], u ∈ toyWorld 0 := fun u hu => by
    rw [mem_singleton.mp hu]
    exact toyTree_mem (by norm_num)
  have hreach : Reach (toyWorld 0) toyGenesis _ toyUpdated := .inform (toy_reach 0) hupdate rfl
  obtain ⟨gs, l, hgs, hl, -, -, hiff, hdue⟩ := reach_checkpoint_iff hreach
  have hlen : (revote (.new toyUpdated none) 50).toOption.map (·.updates.length) = some 50 := by
    decide +kernel
  cases hb : revote (.new toyUpdated none) 50 with
  | error e =>
    rw [hb] at hlen
    cases hlen
  | ok b =>
    have hbuilt := built_revote .new hb
    rw [hb] at hlen
    have hlen : b.updates.length = 50 := Option.some.inj hlen
    exact ⟨_, toyUpdated, b, gs, l, hreach, rfl, hbuilt, hlen, hgs, hl, hiff,
      hdue none b nofun hbuilt (by rw [hlen]; rfl)⟩

/-- A genesis with as many keys as a checkpoint may have. -/
def fullState : State :=
  ⟨none, [toyBytes 1], toyKey 0 :: (range 511).map fun n => toyKey (n + 1), 1, 2⟩

def fullGenesis : Aum :=
  { blank .checkpoint with
    state := some fullState, signatures := [⟨toyBytes 0, toyBytes 0 ++ toyBytes 0⟩] }

def fullAdd : Aum :=
  { blank .addKey with
    prevAumHash := some (toyBytes 0), key := some (toyKey 512),
    signatures := [⟨toyBytes 0, toyBytes 0 ++ toyBytes 65535⟩] }

theorem fullState_keys : fullState.keys = (range 512).map toyKey := by
  rw [range_succ_eq_map]
  simp [fullState, Function.comp_def]

theorem fullState_core : State.Core fullState fullState := by
  have hinj : ((range 512).map toyBytes).Nodup := by
    refine List.Nodup.map_on (fun x hx y hy h => ?_) nodup_range
    rw [mem_range] at hx hy
    exact toyBytes_inj (by omega) (by omega) h
  refine ⟨by simp [fullState], by simp [fullState], fun v hv => ?_, by simp [fullState],
    fun k hk => ?_, ?_, rfl, rfl⟩
  · obtain rfl := mem_singleton.mp hv
    rfl
  · rw [fullState_keys] at hk
    obtain ⟨n, -, rfl⟩ := mem_map.mp hk
    rfl
  · rw [fullState_keys, map_map]
    exact hinj

theorem fullGenesis_checkBootstrap : checkBootstrap MemChonk.new fullGenesis = .ok () := by
  have hstate : fullState.validateCheckpoint = .ok () :=
    validateCheckpoint_iff.mpr ⟨rfl, fullState_core, by simp [fullState], by simp [fullState_keys]⟩
  have hval : fullGenesis.validate = .ok () := by
    refine validate_of_parts rfl rfl rfl (fun st hst => ?_) rfl
    cases hst
    exact hstate
  have hsig : verifySignatures fullState fullGenesis.sigHash 0 fullGenesis.signatures = .ok () :=
    rfl
  exact checkBootstrap_of_verify rfl rfl rfl (verifyAum_of_parts hval rfl rfl hsig rfl)

theorem fullAdd_verifyAum : verifyAum fullAdd (fullState.withLastAum fullGenesis) false = .ok () :=
  rfl

theorem fullAdd_applyVerified : ∃ st, (fullState.withLastAum fullGenesis).applyVerified fullAdd =
    .ok st := by
  have hnone : (fullState.withLastAum fullGenesis).key (toyBytes 512) = none := by
    refine find?_eq_none.mpr fun k hk => ?_
    change k ∈ fullState.keys at hk
    rw [fullState_keys] at hk
    obtain ⟨n, hn, rfl⟩ := mem_map.mp hk
    rw [mem_range] at hn
    rw [Key.hasId_iff rfl]
    intro h
    have := toyBytes_inj (by omega) (by norm_num) h
    omega
  have hfollows : (fullState.withLastAum fullGenesis).checkFollows fullAdd = .ok () := rfl
  have hid : (toyKey 512).id = .ok (toyBytes 512) := rfl
  rw [applyVerified, hfollows]
  simp only [applyKind, fullAdd, blank, okOr_some, ok_bind, hid, hnone,
    Option.isNone_none, ensure_true]
  exact ⟨_, rfl⟩

theorem fullAdd_parent : fullAdd.parent = some fullGenesis.hash := rfl

theorem fullAdd_hash_ne : fullAdd.hash ≠ fullGenesis.hash := by decide

theorem full_injOn : Set.InjOn hash {fullGenesis, fullAdd} := by
  rintro a (rfl | rfl) b (rfl | rfl) h
  · rfl
  · exact absurd h.symm fullAdd_hash_ne
  · exact absurd h fullAdd_hash_ne
  · rfl

theorem full_short {m : Contents} (hm : ∀ a, a ∈ m → a = fullGenesis ∨ a = fullAdd) : Short m := by
  have hlen : ∀ l, Ancestry m l → l.length ≤ 2 ∧ (l.head? = some fullGenesis → l.length ≤ 1) := by
    intro l hl
    induction hl with
    | single => simp
    | @cons a p l h ha hp ih =>
      rcases hm a ha with rfl | rfl
      · cases hp
      · rw [fullAdd_parent, Option.some.injEq] at hp
        have hpm : p ∈ m := by cases h <;> assumption
        have hpg : p = fullGenesis := by
          rcases hm p hpm with rfl | rfl
          · rfl
          · exact absurd hp.symm fullAdd_hash_ne
        have := ih.2 (by rw [hpg]; rfl)
        refine ⟨by rw [length_cons]; omega, fun h => ?_⟩
        cases h
  intro l hl
  have h2 : 2 ≤ maxScanIterations := by decide
  exact (hlen l hl).1.trans h2

theorem full_head {s : MemChonk} {A : Authority} {W : Set Aum} (h : Live W fullGenesis s A)
    (hm : ∀ a, a ∈ contents s ↔ a = fullGenesis ∨ a = fullAdd) : A.head = fullAdd := by
  obtain ⟨w, hw, hhead, -, -⟩ := h.walk h.sound (Contents.le_refl _)
  have hg := (hm _).mpr (Or.inl rfl)
  have ha := (hm _).mpr (Or.inr rfl)
  cases hw with
  | stop hstop => exact absurd ⟨hg, ha, fullAdd_parent⟩ (hstop fullAdd ha)
  | step hbest hw =>
    rcases (hm _).mp hbest.1 with rfl | rfl
    · cases hbest.2.1.2.2
    · cases hw with
      | stop => exact hhead
      | step hbest' _ =>
        have hpar := hbest'.2.1.2.2
        rcases (hm _).mp hbest'.1 with rfl | rfl
        · cases hpar
        · exact absurd (Option.some.inj hpar).symm fullAdd_hash_ne

/-- With 512 keys and one more, the state does not pass as a checkpoint. -/
theorem reach_checkpoint_fails : ∃ (s : MemChonk) (A : Authority),
    Reach Set.univ fullGenesis s A ∧ A.state.cleared.validateCheckpoint ≠ .ok () := by
  obtain ⟨A, s, hb⟩ := exists_bootstrap (by rfl) fullGenesis_checkBootstrap rfl
  have hlive := bootstrap_live (W := {fullGenesis, fullAdd}) rfl (Or.inl rfl) hb
  have hmem := bootstrap_contents (by rfl) hb
  have hgen := (hmem fullGenesis).mpr rfl
  obtain ⟨st', happ⟩ := fullAdd_applyVerified
  have hus : ∀ u ∈ [fullAdd], u ∈ ({fullGenesis, fullAdd} : Set Aum) := fun u hu =>
    Or.inr (mem_singleton.mp hu)
  have hmem' : ∀ a, a ∈ (contents s).addAll [fullAdd] ↔ a = fullGenesis ∨ a = fullAdd := fun a => by
    rw [Contents.mem_addAll full_injOn hlive.within hus, hmem, mem_singleton]
  have hanchor : anchorState fullGenesis = .ok (fullState.withLastAum fullGenesis) := by
    obtain ⟨gs, hk, hs, hv⟩ := checkBootstrap_eq_ok fullGenesis_checkBootstrap
    cases hs
    exact anchorState_of_verify hk rfl hv
  have hx : Extends (contents s) fullGenesis [fullAdd] :=
    ⟨Or.inr ⟨_, _, _, _, .genesis hgen hanchor, fullAdd_parent, fullAdd_verifyAum, happ⟩, trivial⟩
  have hshort : Short ((contents s).addAll [fullAdd]) := full_short fun a ha => (hmem' a).mp ha
  rcases hlive.inform_cases full_injOn hus with ⟨-, -, -, s', A', hrun, hc, hlive'⟩ |
    ⟨-, -, hn, -⟩ | ⟨hn, -⟩
  · have hreach : Reach Set.univ fullGenesis s' A' :=
      .inform (.bootstrap rfl trivial hb) (fun _ _ => trivial) hrun
    refine ⟨s', A', hreach, fun hval => ?_⟩
    have hhead := full_head hlive' (by rw [hc]; exact hmem')
    obtain ⟨l, hl⟩ := hreach.chain
    rw [hhead] at hl
    obtain ⟨gs, -, hcore, -, hcount⟩ := hl.core
    have hle := (hcore.validateCheckpoint_iff.mp hval).2
    have hl0 : l = [fullGenesis] := by
      have hstep : Chain (contents s') fullGenesis [fullAdd, fullGenesis] st' :=
        .step (.genesis (by rw [hc, hmem']; exact Or.inl rfl) hanchor)
          (by rw [hc, hmem']; exact Or.inr rfl) fullAdd_parent fullAdd_verifyAum happ
      exact (hl.unique hstep).2 hlive'.sound.anchored
    have h513 : keyCount [fullAdd, fullGenesis] = 513 := by
      simp [keyCount, keyCountAfter, fullAdd, fullGenesis, blank, fullState_keys]
    rw [hcount, hl0, h513] at hle
    omega
  · exact absurd hshort hn
  · exact absurd hx (hn.resolve_left (by simp))

end Toy

end Rustscale.Tka
