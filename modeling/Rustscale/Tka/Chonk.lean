import Rustscale.Tka.Aum
import Mathlib.Data.List.AList

/-! Storage of verified AUMs: the interface, its contract, and the in-memory implementation. -/
namespace Rustscale.Tka
open List AList

/-- The kinds of input and output errors that the code tells apart. -/
inductive ErrorKind where
  | notFound
  | alreadyExists
  | other
  deriving DecidableEq

structure IoError where
  kind : ErrorKind
  text : String
  deriving DecidableEq

/-- Why a store fails. -/
inductive ChonkError where
  | notFound (hash : AumHash)
  | io (path : String) (source : IoError)
  | corrupt (path reason : String)
  | invalidRoot (path reason : String)
  | lockPoisoned
  deriving DecidableEq

namespace ChonkError

def isNotFound : ChonkError → Bool
  | notFound _ => true
  | _ => false

def display : ChonkError → String
  | notFound hash => s!"AUM {hash.display} was not found"
  | io path source => s!"I/O error at {path}: {source.text}"
  | corrupt path reason => s!"corrupt Chonk data at {path}: {reason}"
  | invalidRoot path reason => s!"invalid Chonk root {path}: {reason}"
  | lockPoisoned => "Chonk lock was poisoned"

end ChonkError

/-- Storage backend for verified AUMs. Writes return the storage after the call. -/
class Chonk (σ : Type) where
  aum : σ → AumHash → Except ChonkError Aum
  childAums : σ → AumHash → Except ChonkError (List Aum)
  heads : σ → Except ChonkError (List Aum)
  lastActiveAncestor : σ → Except ChonkError (Option AumHash)
  setLastActiveAncestor : σ → AumHash → Except ChonkError σ
  storeVerifiedAums : σ → List Aum → Except ChonkError (σ × ℕ)

/-- What a storage holds: at most one AUM for each hash, under its own hash. -/
structure Contents [Crypto] where
  get : AumHash → Option Aum
  keyed : ∀ h a, get h = some a → a.hash = h

namespace Contents
variable [Crypto]

instance : Membership Aum Contents := ⟨fun m a => m.get a.hash = some a⟩

theorem mem_iff {m : Contents} {a : Aum} : a ∈ m ↔ m.get a.hash = some a := Iff.rfl

theorem mem_of_get {m : Contents} {h : AumHash} {a : Aum} (hg : m.get h = some a) : a ∈ m := by
  rw [mem_iff, m.keyed h a hg, hg]

theorem eq_of_hash {m : Contents} {a b : Aum} (ha : a ∈ m) (hb : b ∈ m) (h : a.hash = b.hash) :
    a = b := by
  rw [mem_iff] at ha hb
  rw [h, hb] at ha
  exact (Option.some.inj ha).symm

@[ext] theorem ext_mem {m n : Contents} (h : ∀ a, a ∈ m ↔ a ∈ n) : m = n := by
  obtain ⟨f, hf⟩ := m
  obtain ⟨g, hg⟩ := n
  congr 1
  funext x
  cases hx : f x with
  | some a =>
    have : g a.hash = some a := (h a).mp (by rw [mem_iff]; simp only [hf x a hx, hx])
    rw [hf x a hx] at this
    exact this.symm
  | none =>
    cases hy : g x with
    | none => rfl
    | some b =>
      have : f b.hash = some b := (h b).mpr (by rw [mem_iff]; simp only [hg x b hy, hy])
      rw [hg x b hy, hx] at this
      cases this

def empty : Contents := ⟨fun _ => none, fun _ _ h => by cases h⟩

def add (m : Contents) (a : Aum) : Contents where
  get := fun h => if h = a.hash then some ((m.get h).getD a) else m.get h
  keyed := fun h b hb => by
    split_ifs at hb with hh
    · cases hm : m.get h with
      | none =>
        rw [hm] at hb
        cases hb
        exact hh.symm
      | some c =>
        rw [hm] at hb
        cases hb
        exact m.keyed h c hm
    · exact m.keyed h b hb

def addAll (m : Contents) (as : List Aum) : Contents := as.foldl add m

@[simp] theorem addAll_nil (m : Contents) : m.addAll [] = m := rfl

theorem addAll_cons (m : Contents) (a : Aum) (as : List Aum) :
    m.addAll (a :: as) = (m.add a).addAll as := rfl

theorem mem_add {m : Contents} {a b : Aum} : b ∈ m.add a ↔ b ∈ m ∨ b = a ∧ m.get a.hash = none := by
  rw [mem_iff, mem_iff]
  simp only [add]
  by_cases h : b.hash = a.hash
  · rw [if_pos h, h]
    cases hm : m.get a.hash with
    | none => simp [eq_comm]
    | some c => simp
  · rw [if_neg h]
    have : b ≠ a := fun he => h (he ▸ rfl)
    simp [this]

end Contents

/-- Calls succeed: reads answer from the contents, and writes only add to them. -/
class LawfulChonk (σ : Type) [Crypto] extends Chonk σ where
  contents : σ → Contents
  aum_eq : ∀ s h, aum s h = match (contents s).get h with
    | some a => .ok a
    | none => .error (.notFound h)
  childAums_spec : ∀ s h, ∃ l, childAums s h = .ok l ∧
    ∀ a, a ∈ l ↔ a ∈ contents s ∧ a.parent = some h
  heads_spec : ∀ s, ∃ l, heads s = .ok l ∧
    ∀ a, a ∈ l ↔ a ∈ contents s ∧ ∀ b, b ∈ contents s → b.parent ≠ some a.hash
  finite : ∀ s, {a | a ∈ contents s}.Finite
  lastActiveAncestor_spec : ∀ s, ∃ o, lastActiveAncestor s = .ok o
  set_spec : ∀ s h, ∃ s', setLastActiveAncestor s h = .ok s' ∧ contents s' = contents s
  store_spec : ∀ s as, (∀ a ∈ as, ∀ b, (contents s).get a.hash = some b → b = a) →
    ∃ s' n, storeVerifiedAums s as = .ok (s', n) ∧ contents s' = (contents s).addAll as
  store_nil : ∀ s, storeVerifiedAums s [] = .ok (s, 0)

/-- The store in memory: messages, children and the last active ancestor. -/
structure MemState where
  aums : AList fun _ : AumHash => Aum
  children : AList fun _ : AumHash => List AumHash
  lastActive : Option AumHash

namespace MemState
variable [Crypto]

variable (m : MemState)

def childrenOf (hash : AumHash) : List AumHash := (m.children.lookup hash).getD []

def aum (hash : AumHash) : Except ChonkError Aum :=
  match m.aums.lookup hash with
  | some a => .ok a
  | none => .error (.notFound hash)

def childAums (hash : AumHash) : List Aum :=
  (m.childrenOf hash).filterMap m.aums.lookup

def heads : List Aum :=
  ((m.aums.entries.filter fun e => (m.childrenOf e.1).isEmpty).map Sigma.snd).insertionSort
    fun a b => compare a.hash b.hash ≠ .gt

def link (hash : AumHash) : Option AumHash → MemState
  | none => m
  | some parent =>
    let children := m.childrenOf parent
    let children := if children.contains hash then children else children ++ [hash]
    { m with children := m.children.insert parent children }

/-- One turn of the loop of `store_verified_aums`, with the count inserted. -/
def storeOne (r : MemState × ℕ) (aum : Aum) : MemState × ℕ :=
  if (r.1.aums.lookup aum.hash).isSome then r
  else
    let m := r.1.link aum.hash aum.parent
    ({ m with aums := m.aums.insert aum.hash aum }, r.2 + 1)

/-- The keys are the hashes of the messages, and the children are indexed by parent. -/
structure Ok (m : MemState) : Prop where
  keyed : ∀ h a, m.aums.lookup h = some a → a.hash = h
  indexed : ∀ p h, h ∈ m.childrenOf p ↔ ∃ a, m.aums.lookup h = some a ∧ a.parent = some p

theorem ok_empty : Ok ⟨∅, ∅, none⟩ :=
  ⟨fun h a ha => by simp at ha, fun p h => by simp [childrenOf]⟩

omit [Crypto] in
theorem link_aums (h : AumHash) (o : Option AumHash) : (m.link h o).aums = m.aums := by
  cases o <;> rfl

omit [Crypto] in
theorem mem_childrenOf_link (h : AumHash) (o : Option AumHash) (p x : AumHash) :
    x ∈ (m.link h o).childrenOf p ↔ x ∈ m.childrenOf p ∨ x = h ∧ o = some p := by
  cases o with
  | none => simp [link]
  | some q =>
    by_cases hp : p = q
    · subst hp
      simp only [link, childrenOf, lookup_insert, Option.getD_some, and_true]
      by_cases hc : h ∈ (m.children.lookup p).getD []
      · simp only [contains_iff_mem, hc, if_true]
        exact ⟨Or.inl, fun hx => hx.elim id fun he => he ▸ hc⟩
      · simp [hc]
    · have hq : q ≠ p := fun he => hp he.symm
      simp [link, childrenOf, lookup_insert_ne hp, hq]

theorem Ok.storeOne {r : MemState × ℕ} (hm : r.1.Ok) (a : Aum) : (storeOne r a).1.Ok := by
  unfold MemState.storeOne
  split_ifs with hex
  · exact hm
  · have hnone : r.1.aums.lookup a.hash = none := by simpa using hex
    refine ⟨fun h b hb => ?_, fun p h => ?_⟩
    · simp only [link_aums] at hb
      by_cases hh : h = a.hash
      · subst hh
        rw [lookup_insert] at hb
        cases hb
        rfl
      · rw [lookup_insert_ne hh] at hb
        exact hm.keyed h b hb
    · have hlook : ∀ x, lookup x ((r.1.link a.hash a.parent).aums.insert a.hash a) =
          if x = a.hash then some a else r.1.aums.lookup x := by
        intro x
        rw [link_aums]
        split_ifs with hx
        · rw [hx, lookup_insert]
        · rw [lookup_insert_ne hx]
      change h ∈ (r.1.link a.hash a.parent).childrenOf p ↔ _
      rw [mem_childrenOf_link, hm.indexed, hlook]
      by_cases hh : h = a.hash
      · subst hh
        simp [hnone]
      · simp [hh]

theorem Ok.storeAll {r : MemState × ℕ} (hm : r.1.Ok) (as : List Aum) :
    (as.foldl MemState.storeOne r).1.Ok := by
  induction as generalizing r with
  | nil => exact hm
  | cons a as ih => exact ih (hm.storeOne a)

end MemState

/-- A store in memory that is consistent. -/
structure MemChonk [Crypto] where
  inner : MemState
  ok : inner.Ok

namespace MemChonk
variable [Crypto]

def new : MemChonk := ⟨⟨∅, ∅, none⟩, MemState.ok_empty⟩

instance : Chonk MemChonk where
  aum := fun m => m.inner.aum
  childAums := fun m hash => .ok (m.inner.childAums hash)
  heads := fun m => .ok m.inner.heads
  lastActiveAncestor := fun m => .ok m.inner.lastActive
  setLastActiveAncestor := fun m hash =>
    .ok ⟨{ m.inner with lastActive := some hash }, ⟨m.ok.keyed, m.ok.indexed⟩⟩
  storeVerifiedAums := fun m aums =>
    .ok (⟨(aums.foldl MemState.storeOne (m.inner, 0)).1, m.ok.storeAll (r := (m.inner, 0)) aums⟩,
      (aums.foldl MemState.storeOne (m.inner, 0)).2)

def contents (m : MemChonk) : Contents := ⟨m.inner.aums.lookup, m.ok.keyed⟩

theorem mem_contents {m : MemChonk} {a : Aum} :
    a ∈ m.contents ↔ m.inner.aums.lookup a.hash = some a := Iff.rfl

theorem mem_childAums {m : MemChonk} {h : AumHash} {a : Aum} :
    a ∈ m.inner.childAums h ↔ a ∈ m.contents ∧ a.parent = some h := by
  simp only [MemState.childAums, mem_filterMap, m.ok.indexed]
  constructor
  · rintro ⟨x, ⟨b, hb, hp⟩, ha⟩
    rw [ha] at hb
    cases hb
    exact ⟨by rw [mem_contents, m.ok.keyed x a ha, ha], hp⟩
  · rintro ⟨ha, hp⟩
    exact ⟨a.hash, ⟨a, ha, hp⟩, ha⟩

/-- A head is a stored update that no stored update names as its parent. -/
theorem mem_heads {m : MemChonk} {a : Aum} :
    a ∈ m.inner.heads ↔ a ∈ m.contents ∧ ∀ b, b ∈ m.contents → b.parent ≠ some a.hash := by
  have hentry : ∀ e : Sigma fun _ : AumHash => Aum,
      e ∈ m.inner.aums.entries ↔ m.inner.aums.lookup e.1 = some e.2 := fun e =>
    (mem_lookup_iff).symm
  have hleaf : ∀ h, (m.inner.childrenOf h).isEmpty ↔ ∀ b, b ∈ m.contents → b.parent ≠ some h := by
    intro h
    rw [List.isEmpty_iff, List.eq_nil_iff_forall_not_mem]
    simp only [m.ok.indexed, not_exists, not_and]
    constructor
    · exact fun hx b hb => hx b.hash b hb
    · intro hx x b hb
      exact hx b (by rw [mem_contents, m.ok.keyed x b hb, hb])
  unfold MemState.heads
  rw [(perm_insertionSort _ _).mem_iff]
  simp only [mem_map, mem_filter, hentry, hleaf]
  constructor
  · rintro ⟨⟨h, b⟩, ⟨hb, hx⟩, rfl⟩
    have hk := m.ok.keyed h b hb
    exact ⟨by rw [mem_contents, hk]; exact hb, fun c hc => by rw [hk]; exact hx c hc⟩
  · rintro ⟨ha, hx⟩
    exact ⟨⟨a.hash, a⟩, ⟨ha, hx⟩, rfl⟩

/-- Storing a list adds it to the contents, one update at a time. -/
theorem contents_storeAll (as : List Aum) (r : MemState × ℕ) (hm : r.1.Ok) :
    contents ⟨(as.foldl MemState.storeOne r).1, hm.storeAll as⟩ =
      (contents ⟨r.1, hm⟩).addAll as := by
  induction as generalizing r with
  | nil => rfl
  | cons a as ih =>
    have hone : contents ⟨(MemState.storeOne r a).1, hm.storeOne a⟩ =
        (contents ⟨r.1, hm⟩).add a := by
      ext b
      rw [Contents.mem_add, mem_contents, mem_contents]
      simp only [MemState.storeOne, contents]
      split_ifs with hex
      · obtain ⟨c, hc⟩ := Option.isSome_iff_exists.mp hex
        simp [hc]
      · have hnone : r.1.aums.lookup a.hash = none := by simpa using hex
        simp only [MemState.link_aums, hnone, and_true]
        by_cases hb : b.hash = a.hash
        · rw [hb, lookup_insert, hnone]
          simp [eq_comm]
        · rw [lookup_insert_ne hb]
          have : b ≠ a := fun he => hb (he ▸ rfl)
          simp [this]
    rw [Contents.addAll_cons, ← hone]
    exact ih (MemState.storeOne r a) (hm.storeOne a)

instance : LawfulChonk MemChonk where
  contents := contents
  aum_eq := fun _ _ => rfl
  childAums_spec := fun m h => ⟨_, rfl, fun _ => mem_childAums⟩
  heads_spec := fun m => ⟨_, rfl, fun _ => mem_heads⟩
  finite := fun m => by
    refine ((m.inner.aums.entries.map Sigma.snd).finite_toSet).subset fun a ha => ?_
    exact mem_map.mpr ⟨⟨a.hash, a⟩, (mem_lookup_iff (s := m.inner.aums)).mp ha, rfl⟩
  lastActiveAncestor_spec := fun m => ⟨_, rfl⟩
  set_spec := fun m h => ⟨_, rfl, rfl⟩
  store_spec := fun m as _ => ⟨_, _, rfl, contents_storeAll as (m.inner, 0) m.ok⟩
  store_nil := fun _ => rfl

end MemChonk

end Rustscale.Tka
