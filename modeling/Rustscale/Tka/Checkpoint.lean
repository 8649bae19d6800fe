import Rustscale.Tka.Linked

/-! What every update preserves of the state, and when it passes as a checkpoint. -/
namespace Rustscale.Tka
open Checks LawfulChonk List Key State

section
variable {k : Key} (h : k.validate = .ok ())
include h

theorem Key.kind_of_validate : k.kind = .key25519 := by
  simp only [validate, bind_eq_ok, ensure_eq_ok, beq_iff_eq, exists_unit] at h
  exact h.1

theorem Key.id_of_validate : k.id = .ok k.publicKey := by
  rw [id, kind_of_validate h]

theorem Key.hasId_iff (keyId : Bytes) : k.hasId keyId ↔ k.publicKey = keyId := by
  rw [hasId, id_of_validate h]
  exact beq_iff_eq

end

namespace State

def cleared (s : State) : State := { s with lastAumHash := none }

theorem checkDisablementValues_iff (vs : List Bytes) : ∀ before : List Bytes,
    checkDisablementValues before vs = .ok () ↔
      (∀ v ∈ vs, v.length = 32) ∧ vs.Nodup ∧ ∀ v ∈ vs, v ∉ before := by
  induction vs with
  | nil => simp [checkDisablementValues]
  | cons v vs ih =>
    intro before
    simp only [checkDisablementValues, bind_eq_ok, ensure_eq_ok, ih, forall_mem_cons,
      nodup_cons, mem_append, mem_singleton, not_or, exists_const, beq_iff_eq,
      Bool.not_eq_true', contains_eq_mem, decide_eq_false_iff_not]
    constructor
    · rintro ⟨hlen, hnew, hlens, hnodup, hrest⟩
      exact ⟨⟨hlen, hlens⟩, ⟨fun hv => (hrest v hv).2 rfl, hnodup⟩, hnew,
        fun w hw => (hrest w hw).1⟩
    · rintro ⟨⟨hlen, hlens⟩, ⟨hv, hnodup⟩, hnew, hrest⟩
      exact ⟨hlen, hnew, hlens, hnodup, fun w hw => ⟨hrest w hw, fun he => hv (he ▸ hw)⟩⟩

/-- The loop accepts valid keys that are distinct from each other and from those before. -/
theorem checkKeys_iff (ks : List Key) : ∀ before : List Key, (∀ k ∈ before, k.validate = .ok ()) →
    (checkKeys before ks = .ok () ↔ (∀ k ∈ ks, k.validate = .ok ()) ∧
      (ks.map publicKey).Nodup ∧ ∀ k ∈ ks, k.publicKey ∉ before.map publicKey) := by
  induction ks with
  | nil => simp [checkKeys]
  | cons k ks ih =>
    intro before hbefore
    simp only [checkKeys, bind_eq_ok, mapError_eq_ok, ensure_eq_ok, exists_unit,
      forall_mem_cons, map_cons, nodup_cons]
    by_cases hk : k.validate = .ok ()
    · have hany : (!before.any fun other => other.hasId k.publicKey) = true ↔
          k.publicKey ∉ before.map publicKey := by
        simp only [Bool.not_eq_true', any_eq_false, mem_map, not_exists, not_and]
        exact forall₂_congr fun o ho => not_congr (hasId_iff (hbefore o ho) _)
      have hall : ∀ o ∈ before ++ [k], o.validate = .ok () := by
        simpa [or_imp, forall_and, hk] using hbefore
      simp only [hk, true_and, id_of_validate hk, Except.ok.injEq, exists_eq_left', hany,
        ih _ hall, map_append, map_cons, map_nil, mem_append,
        mem_singleton, not_or]
      constructor
      · rintro ⟨hnew, hvalid, hnodup, hrest⟩
        refine ⟨hvalid, ⟨fun hm => ?_, hnodup⟩, hnew, fun o ho => (hrest o ho).1⟩
        obtain ⟨o, ho, he⟩ := mem_map.mp hm
        exact (hrest o ho).2 he
      · rintro ⟨hvalid, ⟨hm, hnodup⟩, hnew, hrest⟩
        exact ⟨hnew, hvalid, hnodup,
          fun o ho => ⟨hrest o ho, fun he => hm (mem_map.mpr ⟨o, ho, he⟩)⟩⟩
    · simp [hk]

/-- Valid and distinct keys, well-formed disablement values, and the ids of the genesis `gs`. -/
structure Core (gs s : State) : Prop where
  values_ne : s.disablementValues ≠ []
  values_le : s.disablementValues.length ≤ 32
  values_length : ∀ v ∈ s.disablementValues, v.length = 32
  values_nodup : s.disablementValues.Nodup
  keys_valid : ∀ k ∈ s.keys, k.validate = .ok ()
  keys_nodup : (s.keys.map publicKey).Nodup
  id1 : s.stateId1 = gs.stateId1
  id2 : s.stateId2 = gs.stateId2

theorem validateCheckpoint_iff {s : State} : s.validateCheckpoint = .ok () ↔
    s.lastAumHash = none ∧ Core s s ∧ s.keys ≠ [] ∧ s.keys.length ≤ 512 := by
  simp only [validateCheckpoint, bind_eq_ok, ensure_eq_ok, exists_unit,
    checkDisablementValues_iff, checkKeys_iff s.keys [] (by simp), Bool.not_eq_true',
    Bool.or_eq_false_iff, decide_eq_false_iff_not, not_lt, isEmpty_eq_false_iff,
    Option.isNone_iff_eq_none, not_mem_nil, not_false_iff, map_nil, implies_true,
    and_true]
  constructor
  · rintro ⟨hlast, ⟨hne, hle⟩, ⟨hlen, hnodup⟩, ⟨hkne, hkle⟩, hvalid, hknodup⟩
    exact ⟨hlast, ⟨hne, hle, hlen, hnodup, hvalid, hknodup, rfl, rfl⟩, hkne, hkle⟩
  · rintro ⟨hlast, ⟨hne, hle, hlen, hnodup, hvalid, hknodup, -, -⟩, hkne, hkle⟩
    exact ⟨hlast, ⟨hne, hle⟩, ⟨hlen, hnodup⟩, ⟨hkne, hkle⟩, hvalid, hknodup⟩

theorem Core.validateCheckpoint_iff {gs s : State} (h : Core gs s) :
    s.cleared.validateCheckpoint = .ok () ↔ s.keys ≠ [] ∧ s.keys.length ≤ 512 := by
  rw [State.validateCheckpoint_iff]
  refine ⟨fun hv => hv.2.2, fun hk => ⟨rfl, ?_, hk⟩⟩
  exact ⟨h.values_ne, h.values_le, h.values_length, h.values_nodup, h.keys_valid, h.keys_nodup,
    rfl, rfl⟩

theorem Core.keys {gs s : State} (h : Core gs s) {ks : List Key}
    (hvalid : ∀ k ∈ ks, k.validate = .ok ()) (hnodup : (ks.map publicKey).Nodup) :
    Core gs { s with keys := ks } :=
  ⟨h.values_ne, h.values_le, h.values_length, h.values_nodup, hvalid, hnodup, h.id1, h.id2⟩

theorem updateFirst_eq_some {keyId : Bytes} {f : Key → Key} {ks ks' : List Key} {k' : Key}
    (h : updateFirst keyId f ks = some (ks', k')) :
    ∃ before k after, ks = before ++ k :: after ∧ ks' = before ++ f k :: after ∧ k' = f k := by
  induction ks generalizing ks' k' with
  | nil => cases h
  | cons k ks ih =>
    simp only [updateFirst] at h
    split_ifs at h
    · cases h
      exact ⟨[], k, ks, rfl, rfl, rfl⟩
    · simp only [Option.map_eq_some_iff] at h
      obtain ⟨⟨ks1, k1⟩, h1, he⟩ := h
      cases he
      obtain ⟨before, x, after, rfl, rfl, rfl⟩ := ih h1
      exact ⟨k :: before, x, after, rfl, rfl, rfl⟩

end State

def keyCountAfter (a : Aum) (n : ℕ) : ℕ :=
  match a.messageKind with
  | .checkpoint => a.state.elim 0 fun s => s.keys.length
  | .addKey => n + 1
  | .removeKey => n - 1
  | _ => n

/-- The keys of the last checkpoint and those added less those removed since; newest AUM first. -/
def keyCount (l : List Aum) : ℕ := l.foldr keyCountAfter 0

section Step
variable {gs st st' : State} {a : Aum}

theorem Aum.validate_parts (h : a.validate = .ok ()) :
    (∀ k, a.key = some k → k.validate = .ok ()) ∧
      ∀ s, a.state = some s → s.validateCheckpoint = .ok () := by
  simp only [Aum.validate, bind_eq_ok, exists_unit] at h
  obtain ⟨-, -, hkey, hstate, -⟩ := h
  refine ⟨fun k hk => ?_, fun s hs => ?_⟩
  · rwa [hk] at hkey
  · rwa [hs] at hstate

theorem Aum.validate_of_parts (hprev : a.checkPrevHash = .ok ())
    (hsigs : checkSignatures 0 a.signatures = .ok ())
    (hkey : a.key.elim (.ok ()) Key.validate = .ok ())
    (hstate : ∀ s, a.state = some s → s.validateCheckpoint = .ok ())
    (hkind : a.checkKind = .ok ()) :
    a.validate = .ok () := by
  have hst : a.state.elim (.ok ()) validateCheckpoint = .ok () := by
    cases hs : a.state with
    | none => rfl
    | some s => exact hstate s hs
  simp only [Aum.validate, hprev, hsigs, hkey, hst, hkind, ok_bind]

/-- A valid update keeps the state's invariant and moves the key count by its kind. -/
theorem applyKind_core (hc : State.Core gs st) (hv : a.validate = .ok ())
    (h : st.applyKind a = .ok st') :
    State.Core gs st' ∧ st'.keys.length = keyCountAfter a st.keys.length := by
  obtain ⟨hkey, hstate⟩ := Aum.validate_parts hv
  unfold applyKind at h
  cases hk : a.messageKind with
  | invalid =>
    rw [hk] at h
    cases h
  | noOp =>
    rw [hk] at h
    cases h
    exact ⟨hc, by simp [keyCountAfter, hk]⟩
  | checkpoint =>
    simp only [hk, bind_eq_ok, okOr_eq_ok, ensure_eq_ok, Bool.not_eq_true', Bool.or_eq_false_iff,
      bne_eq_false_iff_eq] at h
    obtain ⟨cp, hcp, -, ⟨hid1, hid2⟩, h⟩ := h
    obtain rfl : cp = st' := Except.ok.inj h
    obtain ⟨-, hcore, -, -⟩ := validateCheckpoint_iff.mp (hstate cp hcp)
    exact ⟨{ hcore with id1 := hid1.trans hc.id1, id2 := hid2.trans hc.id2 },
      by simp [keyCountAfter, hk, hcp]⟩
  | addKey =>
    simp only [hk, bind_eq_ok, okOr_eq_ok, ensure_eq_ok, Option.isNone_iff_eq_none] at h
    obtain ⟨key, hkk, id, hid, _, hnone, h⟩ := h
    cases h
    have hval := hkey key hkk
    rw [id_of_validate hval] at hid
    cases hid
    refine ⟨hc.keys ?_ ?_, by simp [keyCountAfter, hk]⟩
    · simpa [or_imp, forall_and, hval] using hc.keys_valid
    · rw [map_append, map_singleton, nodup_append]
      refine ⟨hc.keys_nodup, nodup_singleton _, fun x hx y hy => ?_⟩
      obtain ⟨k, hkm, rfl⟩ := mem_map.mp hx
      rw [mem_singleton.mp hy]
      have := find?_eq_none.mp hnone k hkm
      rwa [hasId_iff (hc.keys_valid k hkm)] at this
  | removeKey =>
    simp only [hk, bind_eq_ok, okOr_eq_ok] at h
    obtain ⟨keyId, hkid, index, hidx, h⟩ := h
    cases h
    have hsub := eraseIdx_sublist st.keys index
    refine ⟨hc.keys (fun k hkm => hc.keys_valid k (hsub.subset hkm))
      (hc.keys_nodup.sublist (hsub.map _)), ?_⟩
    have hlt := (findIdx?_eq_some_iff_findIdx_eq.mp hidx).1
    simp [keyCountAfter, hk, length_eraseIdx, hlt]
  | updateKey =>
    simp only [hk, bind_eq_ok, okOr_eq_ok, mapError_eq_ok] at h
    obtain ⟨keyId, hkid, ⟨ks, k'⟩, hup, _, hval, h⟩ := h
    cases h
    obtain ⟨before, k, after, hks, rfl, rfl⟩ := updateFirst_eq_some hup
    refine ⟨hc.keys (fun x hx => ?_) ?_, by simp [keyCountAfter, hk, hks]⟩
    · rcases mem_append.mp hx with hx | hx
      · exact hc.keys_valid x (by rw [hks]; exact mem_append_left _ hx)
      · rcases mem_cons.mp hx with rfl | hx
        · exact hval
        · refine hc.keys_valid x ?_
          rw [hks]
          exact mem_append_right _ (mem_cons_of_mem _ hx)
    · have := hc.keys_nodup
      rw [hks] at this
      simpa using this

variable [Crypto]

theorem validate_of_verify {genesis : Bool} (h : verifyAum a st genesis = .ok ()) :
    a.validate = .ok () := by
  simp only [verifyAum, bind_eq_ok, mapError_eq_ok, exists_unit] at h
  exact h.1

theorem checkBootstrap_of_verify {σ : Type} [Chonk σ] {s : σ} (hheads : Chonk.heads s = .ok [])
    (hk : a.messageKind = .checkpoint) (hs : a.state = some st)
    (hv : verifyAum a st true = .ok ()) : checkBootstrap s a = .ok () := by
  simp [checkBootstrap, hheads, hk, hs, hv, mapError_ok, ok_bind, ensure_true, okOr_some]

theorem applyVerified_core (hc : State.Core gs st) (hv : a.validate = .ok ())
    (h : st.applyVerified a = .ok st') :
    State.Core gs st' ∧ st'.keys.length = keyCountAfter a st.keys.length := by
  obtain ⟨out, -, hout, rfl⟩ := applyVerified_eq_ok h
  obtain ⟨hcore, hlen⟩ := applyKind_core hc hv hout
  exact ⟨⟨hcore.values_ne, hcore.values_le, hcore.values_length, hcore.values_nodup,
    hcore.keys_valid, hcore.keys_nodup, hcore.id1, hcore.id2⟩, hlen⟩

/-- A verified update never removes the last key. -/
theorem keys_ne_of_verify (hc : State.Core gs st) (hne : st.keys ≠ [])
    (hv : verifyAum a st false = .ok ()) (h : st.applyVerified a = .ok st') : st'.keys ≠ [] := by
  simp only [verifyAum, bind_eq_ok, mapError_eq_ok, exists_unit] at hv
  obtain ⟨hval, -, -, -, hlast⟩ := hv
  have hlen := (applyVerified_core hc hval h).2
  rw [← length_pos_iff] at hne ⊢
  rw [hlen]
  obtain ⟨out, -, hout, -⟩ := applyVerified_eq_ok h
  unfold applyKind at hout
  unfold keyCountAfter
  cases hk : a.messageKind with
  | checkpoint =>
    simp only [hk, bind_eq_ok, okOr_eq_ok] at hout
    obtain ⟨cp, hcp, -⟩ := hout
    obtain ⟨-, -, hcne, -⟩ :=
      validateCheckpoint_iff.mp ((Aum.validate_parts hval).2 cp hcp)
    simpa [hcp] using length_pos_iff.mpr hcne
  | removeKey =>
    simp only [hk, bind_eq_ok, okOr_eq_ok] at hout
    obtain ⟨keyId, hkid, index, hidx, -⟩ := hout
    change 0 < st.keys.length - 1
    by_contra hle
    obtain ⟨k, hks⟩ : ∃ k, st.keys = [k] := length_eq_one_iff.mp (by omega)
    have hkv := hc.keys_valid k (by simp [hks])
    have hidk : k.publicKey = keyId := by
      rw [hks, findIdx?_cons] at hidx
      split_ifs at hidx with hid
      · exact (hasId_iff hkv _).mp hid
      · cases hidx
    simp only [checkLastKey, hk, hks, id_of_validate hkv, mapError_ok, ok_bind, ensure_eq_ok,
      hkid, hidk] at hlast
    simp at hlast
  | addKey => exact Nat.succ_pos _
  | noOp => exact hne
  | updateKey => exact hne
  | invalid => exact hne

end Step

section Chains
variable [Crypto] {m : Contents} {g : Aum}

theorem anchorState_core {st : State} (h : anchorState g = .ok st) :
    ∃ gs, g.state = some gs ∧ State.Core gs st ∧ st.keys ≠ [] ∧ st.keys.length = keyCount [g] := by
  obtain ⟨hk, gs, hgs, rfl⟩ := anchorState_eq_ok h
  have hval : g.validate = .ok () := by
    simp only [anchorState, hgs, okOr_some, ok_bind, bind_eq_ok] at h
    obtain ⟨_, -, _, h, -⟩ := h
    unfold checkAnchor at h
    split_ifs at h
    · simp only [bind_eq_ok, mapError_eq_ok, exists_unit] at h
      exact h.1
    · exact validate_of_verify h
  obtain ⟨-, hcore, hne, -⟩ :=
    validateCheckpoint_iff.mp ((Aum.validate_parts hval).2 gs hgs)
  refine ⟨gs, hgs, ⟨hcore.values_ne, hcore.values_le, hcore.values_length, hcore.values_nodup,
    hcore.keys_valid, hcore.keys_nodup, rfl, rfl⟩, hne, ?_⟩
  simp [keyCount, keyCountAfter, hk, hgs, withLastAum]

/-- The state at the end of a verified chain keeps the core and at least one key. -/
theorem Chain.core {l : List Aum} {st : State} (h : Chain m g l st) :
    ∃ gs, g.state = some gs ∧ State.Core gs st ∧ st.keys ≠ [] ∧ st.keys.length = keyCount l := by
  induction h with
  | genesis _ hs => exact anchorState_core hs
  | step _ _ _ hv happ ih =>
    obtain ⟨gs, hgs, hcore, hne, hlen⟩ := ih
    obtain ⟨hcore', hlen'⟩ := applyVerified_core hcore (validate_of_verify hv) happ
    exact ⟨gs, hgs, hcore', keys_ne_of_verify hcore hne hv happ, by rw [hlen', hlen]; rfl⟩

end Chains

end Rustscale.Tka
