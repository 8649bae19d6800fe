import Mathlib.Data.List.AList

/-! Hash tables: association lists whose order is that of iteration. -/

abbrev HashTable (κ ν : Type) := AList fun _ : κ => ν

namespace HashTable
open List AList Option
variable {κ ν : Type}

def pairs (m : HashTable κ ν) : List (κ × ν) := m.entries.map fun e => (e.1, e.2)

def retain (p : κ → ν → Bool) (m : HashTable κ ν) : HashTable κ ν :=
  ⟨m.entries.filter fun e => p e.1 e.2, m.nodupKeys.sublist filter_sublist⟩

def update (f : κ → ν → ν) (m : HashTable κ ν) : HashTable κ ν where
  entries := m.entries.map fun e => ⟨e.1, f e.1 e.2⟩
  nodupKeys := by
    have hkeys : (m.entries.map fun e => (⟨e.1, f e.1 e.2⟩ : (_ : κ) × ν)).keys = m.entries.keys := by
      simp [List.keys, Function.comp_def]
    simpa only [List.NodupKeys, hkeys] using m.nodupKeys

def Reordered (m m' : HashTable κ ν) : Prop := m.entries.Perm m'.entries

theorem Reordered.refl (m : HashTable κ ν) : Reordered m m := List.Perm.refl _

variable [DecidableEq κ]

instance [DecidableEq ν] (m m' : HashTable κ ν) : Decidable (Reordered m m') :=
  inferInstanceAs (Decidable (List.Perm _ _))

/-- Insert entries one after the other; the last one for a key stays. -/
def ofList (l : List (κ × ν)) : HashTable κ ν := l.foldl (fun m e => m.insert e.1 e.2) ∅

def eraseAll (m : HashTable κ ν) (keys : List κ) : HashTable κ ν := keys.foldl (fun m k => m.erase k) m

variable {m : HashTable κ ν} {k : κ} {v : ν} {k' : κ}

@[simp] theorem mem_pairs {e : κ × ν} : e ∈ m.pairs ↔ m.lookup e.1 = some e.2 := by
  rw [pairs, List.mem_map, ← mem_def, mem_lookup_iff]
  constructor
  · rintro ⟨x, hx, rfl⟩
    exact hx
  · exact fun h => ⟨⟨e.1, e.2⟩, h, rfl⟩

theorem lookup_retain (p : κ → ν → Bool) (m : HashTable κ ν) (k : κ) :
    (retain p m).lookup k = (m.lookup k).filter (p k) := by
  have hiff : ∀ v, (retain p m).lookup k = some v ↔ m.lookup k = some v ∧ p k v = true := by
    intro v
    rw [← mem_def, mem_lookup_iff, ← mem_def, mem_lookup_iff]
    exact mem_filter
  refine ext fun v => ?_
  rw [hiff, filter_eq_some_iff]

@[simp] theorem lookup_retain_eq_some {p : κ → ν → Bool} :
    (retain p m).lookup k = some v ↔ m.lookup k = some v ∧ p k v = true := by
  rw [lookup_retain, filter_eq_some_iff]

theorem lookup_update (f : κ → ν → ν) (m : HashTable κ ν) (k : κ) :
    (update f m).lookup k = (m.lookup k).map (f k) := by
  have hiff : ∀ v, (update f m).lookup k = some v ↔ ∃ v', m.lookup k = some v' ∧ f k v' = v := by
    intro v
    rw [← mem_def, mem_lookup_iff]
    simp only [← mem_def, mem_lookup_iff]
    constructor
    · intro h
      obtain ⟨⟨k', v'⟩, hmem, heq⟩ := mem_map.mp h
      obtain ⟨rfl, rfl⟩ : k' = k ∧ f k' v' = v := by simpa using heq
      exact ⟨v', hmem, rfl⟩
    · rintro ⟨v', hmem, rfl⟩
      exact mem_map.mpr ⟨⟨k, v'⟩, hmem, rfl⟩
  refine ext fun v => ?_
  rw [hiff, map_eq_some_iff]

theorem lookup_erase_eq_some : (m.erase k').lookup k = some v ↔ k ≠ k' ∧ m.lookup k = some v := by
  by_cases h : k = k'
  · subst h
    simp
  · simp [h, lookup_erase_ne h]

theorem lookup_eraseAll_eq_some {keys : List κ} : ∀ {m : HashTable κ ν},
    (m.eraseAll keys).lookup k = some v ↔ k ∉ keys ∧ m.lookup k = some v := by
  induction keys with
  | nil => simp [eraseAll]
  | cons key keys ih =>
    intro m
    have hstep : (m.eraseAll (key :: keys)).lookup k = some v ↔
        (eraseAll (m.erase key) keys).lookup k = some v := Iff.rfl
    rw [hstep, ih, lookup_erase_eq_some, mem_cons, not_or]
    tauto

theorem lookup_insert_eq_some {v' : ν} :
    (m.insert k' v').lookup k = some v ↔ k = k' ∧ v' = v ∨ k ≠ k' ∧ m.lookup k = some v := by
  by_cases h : k = k'
  · subst h
    simp
  · simp [h, lookup_insert_ne h]

theorem erase_singleton (k : κ) (v : ν) : erase k ((∅ : HashTable κ ν).insert k v) = ∅ :=
  ext (kerase_cons_eq rfl)

theorem reordered_insert (h : m.lookup k = some v) : Reordered m (m.insert k v) := by
  refine (perm_ext_iff_of_nodup m.nodupKeys.nodup (m.insert k v).nodupKeys.nodup).mpr ?_
  rintro ⟨k', v'⟩
  rw [← mem_lookup_iff, ← mem_lookup_iff, mem_def, mem_def, lookup_insert_eq_some]
  constructor
  · intro hk'
    by_cases hkey : k' = k
    · subst hkey
      exact .inl ⟨rfl, mem_unique h hk'⟩
    · exact .inr ⟨hkey, hk'⟩
  · rintro (⟨rfl, rfl⟩ | ⟨-, hk'⟩)
    · exact h
    · exact hk'

theorem Reordered.lookup_eq {m' : HashTable κ ν} (h : Reordered m m') (k : κ) :
    m'.lookup k = m.lookup k := (perm_lookup h).symm

end HashTable
