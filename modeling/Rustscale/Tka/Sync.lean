import Rustscale.Tka.Reach

/-! Bounded offers that describe the active chain, and the AUMs sent in reply. -/
namespace Rustscale.Tka
open Checks ForkChoice LawfulChonk List Option

def ancestorsSkipStart : ℕ := 4
def ancestorsSkipShift : ℕ := 2
def maxSyncHeadIterations : ℕ := 400
def maxSyncAncestors : ℕ := 64

/-- The newest sampled ancestor is first, the oldest last. -/
structure SyncOffer where
  head : AumHash
  ancestors : List AumHash
  deriving DecidableEq

/-- Why two authorities cannot be brought together. -/
inductive SyncError where
  | authority (error : AuthorityError)
  | noIntersection
  | brokenActiveChain
  | tooManyAncestors (n : ℕ)
  deriving DecidableEq

section Model
variable [Crypto] {σ : Type} [Chonk σ]

/-- The loop of `active_path`, with the fuel left and the path below `cursor`. -/
def activeFrom (s : σ) (oldest : AumHash) : ℕ → AumHash → List Aum → Except SyncError (List Aum)
  | 0, _, _ => .error (.authority (.traversalLimit maxScanIterations))
  | fuel + 1, cursor, path => do
    let aum ← (Chonk.aum s cursor).mapError fun e => .authority (.storage e)
    if cursor = oldest then pure (aum :: path)
    else do
      let parent ← okOr aum.parent .brokenActiveChain
      activeFrom s oldest fuel parent (aum :: path)

variable (A : Authority) (s : σ)

def activePath : Except SyncError (List Aum) :=
  activeFrom s A.oldestAncestor.hash maxScanIterations A.head.hash []

/-- The loop of `sync_offer` over the distances from the head. -/
def sampleAncestors (path : List Aum) (headIndex : ℕ) : List ℕ → ℕ → List AumHash
  | [], _ => []
  | distance :: rest, skip =>
    if distance % skip = 0 then
      (path[headIndex - distance]?.map Aum.hash).toList ++
        sampleAncestors path headIndex rest (skip <<< ancestorsSkipShift)
    else sampleAncestors path headIndex rest skip

def Authority.syncOffer : Except SyncError SyncOffer := do
  let path ← activePath A s
  let headIndex := path.length - 1
  let ancestors := sampleAncestors path headIndex
    (range' 1 (min headIndex maxSyncHeadIterations)) ancestorsSkipStart
  let oldest := A.oldestAncestor.hash
  pure { head := A.head.hash,
         ancestors :=
           if ancestors.getLast? ≠ some oldest then ancestors ++ [oldest] else ancestors }

/-- The position of a hash on a path; a later AUM overrides an earlier one. -/
def position (path : List Aum) (hash : AumHash) : Option ℕ :=
  (path.zipIdx.reverse.find? fun e => e.1.hash == hash).map Prod.snd

def Authority.missingAums (remote : SyncOffer) : Except SyncError (List Aum) :=
  if maxSyncAncestors < remote.ancestors.length then
    .error (.tooManyAncestors remote.ancestors.length)
  else if remote.head = A.head.hash then .ok []
  else do
    let path ← activePath A s
    match position path remote.head with
    | some index => pure (path.drop (index + 1))
    | none =>
      match remote.ancestors.findSome? (position path) with
      | some index => pure (path.drop (index + 1))
      | none => .error .noIntersection

/-- What is received is informed of, if there is any. -/
def Authority.receive (received : List Aum) : Except AuthorityError Unit × σ × Authority :=
  if received.isEmpty then (.ok (), s, A) else A.inform s received

end Model

section Offer
variable [Crypto] {σ : Type} [LawfulChonk σ] {s : σ} {g : Aum} {W : Set Aum} {A : Authority}

variable {st : State} {w path : List Aum} {h : AumHash}

/-- The walk back from the head collects the active chain, oldest first. -/
theorem activeFrom_eq (hs : Sound (contents s) g) {l : List Aum} (h : Chain (contents s) g l st) :
    ∀ {fuel : ℕ} {a : Aum} {t path : List Aum}, l = a :: t →
      l.length ≤ fuel → activeFrom s g.hash fuel a.hash path = .ok (l.reverse ++ path) := by
  induction h with
  | genesis hg =>
    intro fuel a t path hl hlen
    obtain ⟨rfl, rfl⟩ := cons.inj hl
    cases fuel with
    | zero => simp at hlen
    | succ fuel =>
      simp only [activeFrom, aum_of_mem hg, mapError_ok, ok_bind, if_true]
      rfl
  | @step p b l1 st1 st2 hc hb hp hv happ ih =>
    intro fuel a t path hl hlen
    obtain ⟨rfl, rfl⟩ := cons.inj hl
    cases fuel with
    | zero => simp at hlen
    | succ fuel =>
      have hne : b.hash ≠ g.hash := by
        intro he
        rw [Contents.eq_of_hash hb hs.genesis he] at hp
        exact Chain.not_child_of_anchored hs.anchored (hc.mem mem_cons_self) hp
      simp only [activeFrom, aum_of_mem hb, mapError_ok, ok_bind, hne, if_false, hp, okOr_some]
      rw [ih rfl (Nat.le_of_succ_le_succ hlen)]
      simp

theorem Live.activePath_eq (h : Live W g s A) (hhead : A.head = w.getLastD g)
    (hold : A.oldestAncestor = g) (hw : Chain (contents s) g (w.reverse ++ [g]) st) :
    activePath A s = .ok (g :: w) := by
  obtain ⟨t, ht⟩ := reverse_append_eq w g
  rw [activePath, hold, hhead, activeFrom_eq h.sound hw ht (h.bounded _ _ hw)]
  simp

theorem mem_sampleAncestors {n skip : ℕ} {ds : List ℕ} (hm : h ∈ sampleAncestors path n ds skip) :
    ∃ a ∈ path, a.hash = h := by
  induction ds generalizing skip with
  | nil => cases hm
  | cons d ds ih =>
    unfold sampleAncestors at hm
    split_ifs at hm
    · rcases mem_append.mp hm with hm | hm
      · simp only [mem_toList, map_eq_some_iff] at hm
        obtain ⟨a, ha, rfl⟩ := hm
        exact ⟨a, mem_of_getElem? ha, rfl⟩
      · exact ih hm
    · exact ih hm

/-- Each sample is at least as far from the head as the skip before it, which it multiplies by four.
-/
theorem length_sampleAncestors (path : List Aum) (n : ℕ) (ds : List ℕ) (k : ℕ)
    (hd : ∀ d ∈ ds, 0 < d ∧ d ≤ maxSyncHeadIterations) :
    (sampleAncestors path n ds (4 ^ (k + 1))).length + k ≤ max k 4 := by
  induction ds generalizing k with
  | nil => simp [sampleAncestors]
  | cons d ds ih =>
    have hrest : ∀ d ∈ ds, 0 < d ∧ d ≤ maxSyncHeadIterations :=
      fun x hx => hd x (mem_cons_of_mem _ hx)
    unfold sampleAncestors
    split_ifs with hdiv
    · obtain ⟨hpos, hle⟩ := hd d mem_cons_self
      have hskip : 4 ^ (k + 1) ≤ d := Nat.le_of_dvd hpos (Nat.dvd_of_mod_eq_zero hdiv)
      have hk : k < 4 := by
        by_contra hge
        have : 4 ^ 5 ≤ 4 ^ (k + 1) := Nat.pow_le_pow_right (by norm_num) (by omega)
        have h400 : maxSyncHeadIterations = 400 := rfl
        omega
      have hshift : 4 ^ (k + 1) <<< ancestorsSkipShift = 4 ^ (k + 1 + 1) := by
        rw [Nat.shiftLeft_eq, pow_succ 4 (k + 1)]
        rfl
      have hone : (path[n - d]?.map Aum.hash).toList.length ≤ 1 := by
        cases path[n - d]?.map Aum.hash <;> simp
      have := ih (k + 1) hrest
      rw [hshift, length_append]
      omega
    · exact ih k hrest

/-- The offer names AUMs of the active chain only, the genesis among them, and few enough. -/
theorem Live.syncOffer_spec (h : Live W g s A) (hhead : A.head = w.getLastD g)
    (hold : A.oldestAncestor = g) (hw : Chain (contents s) g (w.reverse ++ [g]) st) :
    ∃ offer, A.syncOffer s = .ok offer ∧ offer.head = A.head.hash ∧ g.hash ∈ offer.ancestors ∧
      offer.ancestors.length ≤ maxSyncAncestors ∧
      ∀ x ∈ offer.ancestors, ∃ a ∈ g :: w, a.hash = x := by
  set samples := sampleAncestors (g :: w) ((g :: w).length - 1)
    (range' 1 (min ((g :: w).length - 1) maxSyncHeadIterations)) ancestorsSkipStart with hsam
  have hoffer : A.syncOffer s = .ok ⟨A.head.hash,
      if samples.getLast? ≠ some g.hash then samples ++ [g.hash] else samples⟩ := by
    rw [Authority.syncOffer, h.activePath_eq hhead hold hw, hold]
    rfl
  have hlen : samples.length ≤ 4 := by
    refine (length_sampleAncestors _ _ _ 0 fun d hd => ?_).trans (by simp)
    rw [mem_range'_1] at hd
    omega
  refine ⟨_, hoffer, rfl, ?_, ?_, ?_⟩
  · split_ifs with hlast
    · exact mem_append_right _ (mem_singleton_self _)
    · exact mem_of_getLast? (not_not.mp hlast)
  · have h64 : maxSyncAncestors = 64 := rfl
    split_ifs
    · simp only [length_append, length_singleton]
      omega
    · change samples.length ≤ maxSyncAncestors
      omega
  · intro x hx
    split_ifs at hx
    · rcases mem_append.mp hx with hx | hx
      · exact mem_sampleAncestors hx
      · exact ⟨g, mem_cons_self, (mem_singleton.mp hx).symm⟩
    · exact mem_sampleAncestors hx

theorem position_eq_some {i : ℕ} (hp : position path h = some i) :
    ∃ a, path[i]? = some a ∧ a.hash = h := by
  simp only [position, map_eq_some_iff] at hp
  obtain ⟨⟨a, j⟩, hfind, rfl⟩ := hp
  have hmem := mem_of_find?_eq_some hfind
  have hpred := find?_some hfind
  rw [mem_reverse, mem_zipIdx_iff_getElem?] at hmem
  exact ⟨a, hmem, by simpa using hpred⟩

theorem position_isSome {a : Aum} (ha : a ∈ path) : (position path a.hash).isSome := by
  obtain ⟨i, hi⟩ := mem_iff_getElem?.mp ha
  simp only [position, isSome_map, find?_isSome]
  refine ⟨(a, i), ?_, by simp⟩
  rw [mem_reverse, mem_zipIdx_iff_getElem?]
  exact hi

end Offer

end Rustscale.Tka
