import Mathlib.Data.List.Basic

/-! Doubly linked lists in numbered slots: a segment is a list of slots with their values. -/
namespace Dll
open List Function
variable {α : Type}

/-- A node of a list that is linked both ways through indices. -/
structure Cell (α : Type) where
  val : α
  prev : Option ℕ
  next : Option ℕ

abbrev Heap (α : Type) := ℕ → Option (Cell α)

def first (items : List (ℕ × α)) (n : Option ℕ) : Option ℕ := (items.head?.map Prod.fst).or n

def last (p : Option ℕ) (items : List (ℕ × α)) : Option ℕ := (items.getLast?.map Prod.fst).or p

/-- A segment between the slots `p` and `n`. -/
def Seg (h : Heap α) (p n : Option ℕ) : List (ℕ × α) → Prop
  | [] => True
  | x :: items => h x.1 = some ⟨x.2, p, first items n⟩ ∧ Seg h (some x.1) n items

@[simp] theorem first_nil (n : Option ℕ) : first ([] : List (ℕ × α)) n = n := rfl

@[simp] theorem first_cons (x : ℕ × α) (items : List (ℕ × α)) (n : Option ℕ) :
    first (x :: items) n = some x.1 := rfl

section
variable (p : Option ℕ)

@[simp] theorem last_nil : last p ([] : List (ℕ × α)) = p := rfl

@[simp] theorem last_concat (items : List (ℕ × α)) (x : ℕ × α) :
    last p (items ++ [x]) = some x.1 := by
  simp [last]

theorem last_cons (x : ℕ × α) (items : List (ℕ × α)) :
    last p (x :: items) = last (some x.1) items := by
  obtain rfl | ⟨l, y, rfl⟩ := items.eq_nil_or_concat
  · rfl
  · rw [concat_eq_append, ← cons_append, last_concat, last_concat]

theorem last_append (l r : List (ℕ × α)) : last p (l ++ r) = last (last p l) r := by
  obtain rfl | ⟨r, y, rfl⟩ := r.eq_nil_or_concat
  · simp
  · rw [concat_eq_append, ← append_assoc, last_concat, last_concat]

end

theorem first_append (l r : List (ℕ × α)) (n : Option ℕ) :
    first (l ++ r) n = first l (first r n) := by
  cases l <;> rfl

variable {h : Heap α} {n : Option ℕ} {items : List (ℕ × α)} {p : Option ℕ} {l r : List (ℕ × α)}
  {x : ℕ × α}

theorem seg_append (l r : List (ℕ × α)) : ∀ {p : Option ℕ},
    Seg h p n (l ++ r) ↔ Seg h p (first r n) l ∧ Seg h (last p l) n r := by
  induction l with
  | nil => simp [Seg]
  | cons x l ih =>
    intro p
    simp only [cons_append, Seg, ih, first_append, last_cons, and_assoc]

theorem Seg.congr {h' : Heap α} {p : Option ℕ} (hs : Seg h p n items)
    (heq : ∀ x ∈ items, h' x.1 = h x.1) : Seg h' p n items := by
  induction items generalizing p with
  | nil => trivial
  | cons x items ih =>
    refine ⟨(heq x mem_cons_self).trans hs.1, ih hs.2 fun y hy => ?_⟩
    exact heq y (mem_cons_of_mem _ hy)

theorem Seg.get (hs : Seg h p n (l ++ x :: r)) : h x.1 = some ⟨x.2, last p l, first r n⟩ :=
  ((seg_append l (x :: r)).mp hs).2.1

theorem Seg.setPrev (hs : Seg h p n (x :: items)) (hx : x.1 ∉ items.map Prod.fst) (p' : Option ℕ) :
    Seg (update h x.1 (some ⟨x.2, p', first items n⟩)) p' n (x :: items) := by
  refine ⟨update_self _ _ _, hs.2.congr fun y hy => update_of_ne ?_ _ _⟩
  rintro heq
  exact hx (heq ▸ mem_map_of_mem hy)

theorem Seg.setNext (hs : Seg h p n (items ++ [x])) (hx : x.1 ∉ items.map Prod.fst)
    (n' : Option ℕ) :
    Seg (update h x.1 (some ⟨x.2, last p items, n'⟩)) p n' (items ++ [x]) := by
  rw [seg_append] at hs ⊢
  refine ⟨hs.1.congr fun y hy => update_of_ne ?_ _ _, update_self _ _ _, trivial⟩
  rintro heq
  exact hx (heq ▸ mem_map_of_mem hy)

theorem Seg.setVal (hs : Seg h p n (l ++ x :: r)) (hx : x.1 ∉ (l ++ r).map Prod.fst) (a : α) :
    Seg (update h x.1 (some ⟨a, last p l, first r n⟩)) p n (l ++ (x.1, a) :: r) := by
  have hne : ∀ y ∈ l ++ r, update h x.1 (some ⟨a, last p l, first r n⟩) y.1 = h y.1 := by
    refine fun y hy => update_of_ne ?_ _ _
    rintro heq
    exact hx (heq ▸ mem_map_of_mem hy)
  rw [seg_append] at hs ⊢
  refine ⟨hs.1.congr fun y hy => hne y ?_, update_self _ _ _, hs.2.2.congr fun y hy => hne y ?_⟩
  · exact mem_append_left _ hy
  · exact mem_append_right _ hy

end Dll
