import Mathlib.Tactic

/-! Tables of slots. Commands put items into slots and take them out; what a failed command owes is
kept for another attempt. -/
namespace Undo
open List Undo
variable {σ ι : Type}

/-- Put an item into its slot or take it out. -/
structure Command (ι : Type) where
  puts : Bool
  item : ι
  deriving DecidableEq

abbrev put (x : ι) : Command ι := ⟨true, x⟩

abbrev take (x : ι) : Command ι := ⟨false, x⟩

def Command.inverse (c : Command ι) : Command ι := { c with puts := !c.puts }

@[simp] theorem inverse_put (x : ι) : (put x).inverse = take x := rfl

@[simp] theorem inverse_take (x : ι) : (take x).inverse = put x := rfl

theorem Command.inverse_item (c : Command ι) : c.inverse.item = c.item := rfl

/-- Nothing is taken that was put before. -/
def Forward (cs : List (Command ι)) : Prop := cs.Pairwise fun c c' => c = put c'.item → c'.puts = true

theorem forward_append {cs cs' : List (Command ι)} : Forward (cs ++ cs') ↔
    Forward cs ∧ Forward cs' ∧ ∀ x, put x ∈ cs → take x ∉ cs' := by
  rw [Forward, pairwise_append]
  refine and_congr_right fun _ => and_congr_right fun _ => ⟨fun h x hput htake => ?_, ?_⟩
  · exact absurd (h _ hput _ htake rfl) (by simp)
  · rintro h c hc ⟨puts, x⟩ hx rfl
    cases puts with
    | true => rfl
    | false => exact absurd hx (h x hc)

theorem forward_of_disjoint {cs : List (Command ι)} (h : ∀ x, put x ∈ cs → take x ∉ cs) :
    Forward cs := by
  refine pairwise_iff_forall_sublist.mpr ?_
  rintro c ⟨puts, x⟩ hsub rfl
  have hput : put x ∈ cs := hsub.subset mem_cons_self
  cases puts with
  | true => rfl
  | false => exact absurd (hsub.subset (by simp)) (h x hput)

section
variable [DecidableEq σ] (slot : ι → σ)

def on (t : σ) (cs : List (Command ι)) : List (Command ι) := cs.filter fun c => slot c.item = t

variable {slot} {t : σ} {c : Command ι} {cs : List (Command ι)}

theorem on_cons_self (h : slot c.item = t) : on slot t (c :: cs) = c :: on slot t cs := by
  simp [on, h]

theorem on_cons_of_ne (h : slot c.item ≠ t) : on slot t (c :: cs) = on slot t cs := by
  simp [on, h]

theorem on_append (cs cs' : List (Command ι)) :
    on slot t (cs ++ cs') = on slot t cs ++ on slot t cs' := filter_append ..

theorem on_map_of_nodup {α : Type} [DecidableEq α] {l : List α} (hl : l.Nodup) (f : α → Command ι) {a : α}
    (hf : ∀ b, slot (f b).item = t ↔ b = a) :
    on slot t (l.map f) = if a ∈ l then [f a] else [] := by
  induction l with
  | nil => simp [on]
  | cons b l ih =>
    obtain ⟨hb, hl⟩ := nodup_cons.mp hl
    by_cases hba : b = a
    · subst hba
      rw [map_cons, on_cons_self ((hf b).mpr rfl), ih hl, if_neg hb]
      simp
    · rw [map_cons, on_cons_of_ne fun h => hba ((hf b).mp h), ih hl]
      simp [Ne.symm hba]

theorem on_map_of_ne {α : Type} (l : List α) (f : α → Command ι) (hf : ∀ b, slot (f b).item ≠ t) :
    on slot t (l.map f) = [] := by
  simp [on, hf]

theorem mem_on : c ∈ on slot t cs ↔ c ∈ cs ∧ slot c.item = t := by simp [on]

theorem on_reverse_inverse (cs : List (Command ι)) :
    on slot t (cs.reverse.map Command.inverse) = (on slot t cs).reverse.map Command.inverse := by
  rw [on, filter_map, filter_reverse]
  rfl

theorem Forward.on (h : Forward cs) (t : σ) : Forward (on slot t cs) := h.sublist filter_sublist

end

/-- What the table says to a command. -/
inductive Answer where
  | done
  | absent
  | occupied
  deriving DecidableEq

section
variable [DecidableEq ι]

variable (cell : Option ι)

/-- An item is put only into a free slot, and taken only if it is there. -/
def answer (c : Command ι) : Answer :=
  if c.puts then if cell = none then .done else .occupied
  else if cell = some c.item then .done else .absent

def after (c : Command ι) : Option ι :=
  match answer cell c with
  | .done => if c.puts then some c.item else none
  | _ => cell

def execCell (cs : List (Command ι)) : Option ι := cs.foldl after cell

variable (x : ι)

@[simp] theorem answer_put_none : answer none (put x) = .done := rfl

@[simp] theorem answer_put_some (y : ι) : answer (some y) (put x) = .occupied := rfl

@[simp] theorem answer_take_none : answer none (take x) = .absent := rfl

@[simp] theorem answer_take_self : answer (some x) (take x) = .done := by simp [answer]

@[simp] theorem after_put_none : after none (put x) = some x := rfl

@[simp] theorem after_put_some (y : ι) : after (some y) (put x) = some y := rfl

@[simp] theorem after_take_none : after none (take x) = none := rfl

@[simp] theorem after_take_self : after (some x) (take x) = none := by simp [after]

theorem puts_of_occupied {cell : Option ι} {c : Command ι} (h : answer cell c = .occupied) :
    c.puts = true := by
  by_contra hputs
  rw [answer, if_neg hputs] at h
  split at h <;> cases h

theorem answer_inverse {cell : Option ι} {c : Command ι} (h : answer cell c = .done) :
    answer (after cell c) c.inverse = .done := by
  obtain ⟨_ | _, x⟩ := c
  · obtain rfl : cell = some x := by simpa [answer] using h
    simp [Command.inverse]
  · obtain rfl : cell = none := by simpa [answer] using h
    simp [Command.inverse]

theorem after_of_ne_done {cell : Option ι} {c : Command ι} (h : answer cell c ≠ .done) :
    after cell c = cell := by
  unfold after
  split
  · contradiction
  · rfl

variable [DecidableEq σ] (slot : ι → σ)

def perform (table : σ → Option ι) (c : Command ι) : σ → Option ι :=
  Function.update table (slot c.item) (after (table (slot c.item)) c)

variable {slot} {t : σ} {c : Command ι} {cs : List (Command ι)} {table : σ → Option ι}

theorem perform_self (h : slot c.item = t) : perform slot table c t = after (table t) c := by
  subst h
  exact Function.update_self ..

theorem perform_of_ne (h : slot c.item ≠ t) : perform slot table c t = table t :=
  Function.update_of_ne (Ne.symm h) ..

theorem foldl_perform (cs : List (Command ι)) (table : σ → Option ι) (t : σ) :
    cs.foldl (perform slot) table t = execCell (table t) (on slot t cs) := by
  induction cs generalizing table with
  | nil => rfl
  | cons c cs ih =>
    rw [foldl_cons, ih]
    by_cases h : slot c.item = t
    · rw [on_cons_self h, perform_self h, execCell, execCell, foldl_cons]
    · rw [on_cons_of_ne h, perform_of_ne h]

theorem perform_of_ne_done (h : answer (table (slot c.item)) c ≠ .done) :
    perform slot table c = table := by
  rw [perform, after_of_ne_done h, Function.update_eq_self]

theorem perform_inverse (h : answer (table (slot c.item)) c = .done) :
    perform slot (perform slot table c) c.inverse = table := by
  have hback : after (after (table (slot c.item)) c) c.inverse = table (slot c.item) := by
    obtain ⟨puts, x⟩ := c
    cases puts with
    | true =>
      obtain hnone : table (slot x) = none := by simpa [answer] using h
      simp [hnone, Command.inverse]
    | false =>
      obtain hsome : table (slot x) = some x := by simpa [answer] using h
      simp [hsome, Command.inverse]
  rw [perform, Command.inverse_item, perform_self rfl, hback, perform, Function.update_idem,
    Function.update_eq_self]

variable (slot) in
/-- Each command is done in its turn. -/
def Smooth : (σ → Option ι) → List (Command ι) → Prop
  | _, [] => True
  | table, c :: cs => answer (table (slot c.item)) c = .done ∧ Smooth (perform slot table c) cs

def SmoothCell : Option ι → List (Command ι) → Prop
  | _, [] => True
  | cell, c :: cs => answer cell c = .done ∧ SmoothCell (after cell c) cs

theorem smooth_iff : Smooth slot table cs ↔ ∀ t, SmoothCell (table t) (on slot t cs) := by
  induction cs generalizing table with
  | nil => exact ⟨fun _ _ => trivial, fun _ => trivial⟩
  | cons c cs ih =>
    rw [Smooth, ih]
    have hne : ∀ t, slot c.item ≠ t → perform slot table c t = table t := fun t => perform_of_ne
    constructor
    · rintro ⟨hc, hcs⟩ t
      have ht := hcs t
      by_cases h : slot c.item = t
      · subst h
        rw [perform_self rfl] at ht
        rw [on_cons_self rfl]
        exact ⟨hc, ht⟩
      · rw [on_cons_of_ne h, ← hne t h]
        exact ht
    · intro h
      have hc := h (slot c.item)
      rw [on_cons_self rfl] at hc
      refine ⟨hc.1, fun t => ?_⟩
      by_cases ht : slot c.item = t
      · subst ht
        rw [perform_self rfl]
        exact hc.2
      · have hcs := h t
        rwa [on_cons_of_ne ht, ← hne t ht] at hcs

/-- Some commands go through, the others are kept; a put is kept if the slot is not free. -/
inductive Attempted : Option ι → List (Command ι) → Option ι → List (Command ι) → Prop
  | nil (cell : Option ι) : Attempted cell [] cell []
  | gone {cell cell' : Option ι} {c : Command ι} {cs kept : List (Command ι)}
      (h : answer cell c ≠ .occupied) (rest : Attempted (after cell c) cs cell' kept) :
      Attempted cell (c :: cs) cell' kept
  | kept {cell cell' : Option ι} {c : Command ι} {cs kept : List (Command ι)}
      (rest : Attempted cell cs cell' kept) : Attempted cell (c :: cs) cell' (c :: kept)

/-- The commands that still lead from what a slot holds to what it should hold. -/
inductive Owed : Option ι → List (Command ι) → Option ι → Prop
  | nothing (owner : Option ι) : Owed owner [] owner
  | put (x : ι) : Owed none [put x] (some x)
  | take (y : ι) : Owed (some y) [take y] none
  | swap (y x : ι) : Owed (some y) [take y, put x] (some x)

variable {cell cell' owner : Option ι} {kept : List (Command ι)}

theorem Owed.execCell (h : Owed cell cs owner) : execCell cell cs = owner := by
  cases h <;> simp [execCell]

theorem Owed.attempted (h : Owed cell cs owner) (ha : Attempted cell cs cell' kept) :
    Owed cell' kept owner := by
  cases h with
  | nothing =>
    cases ha
    exact .nothing _
  | put x =>
    cases ha with
    | gone _ rest =>
      cases rest
      exact .nothing _
    | kept rest =>
      cases rest
      exact .put x
  | take y =>
    cases ha with
    | gone _ rest =>
      cases rest
      rw [after_take_self]
      exact .nothing _
    | kept rest =>
      cases rest
      exact .take y
  | swap y x =>
    cases ha with
    | gone _ rest =>
      rw [after_take_self] at rest
      cases rest with
      | gone _ rest =>
        cases rest
        exact .nothing _
      | kept rest =>
        cases rest
        exact .put x
    | kept rest =>
      cases rest with
      | gone h _ => exact absurd rfl h
      | kept rest =>
        cases rest
        exact .swap y x

theorem Attempted.of_nil (h : Attempted cell [] cell' kept) : cell' = cell ∧ kept = [] := by
  cases h
  exact ⟨rfl, rfl⟩

theorem Attempted.of_occupied {x : ι} {n : ℕ}
    (h : Attempted (some x) (replicate n (put x) ++ cs) cell' kept) :
    ∃ rest, kept = replicate n (put x) ++ rest ∧ Attempted (some x) cs cell' rest := by
  induction n generalizing kept with
  | zero => exact ⟨kept, rfl, h⟩
  | succ n ih =>
    cases h with
    | gone h _ => exact absurd rfl h
    | kept h =>
      obtain ⟨rest, rfl, hrest⟩ := ih h
      exact ⟨rest, rfl, hrest⟩

theorem Attempted.of_free {x : ι} {n : ℕ} (h : Attempted none (replicate n (put x)) cell' kept) :
    cell' = none ∧ kept = replicate n (put x) ∨
      ∃ m, n = m + 1 ∧ cell' = some x ∧ kept = replicate m (put x) := by
  induction n generalizing kept with
  | zero =>
    cases h
    exact .inl ⟨rfl, rfl⟩
  | succ n ih =>
    cases h with
    | gone _ h =>
      rw [after_put_none, ← append_nil (replicate n _)] at h
      obtain ⟨rest, rfl, hrest⟩ := h.of_occupied
      cases hrest
      exact .inr ⟨n, rfl, rfl, append_nil _⟩
    | kept h =>
      rcases ih h with ⟨rfl, rfl⟩ | ⟨m, rfl, rfl, rfl⟩
      · exact .inl ⟨rfl, rfl⟩
      · exact .inr ⟨m + 1, rfl, rfl, rfl⟩

/-- The attempt in which no command fails on its own. -/
def sweep : Option ι → List (Command ι) → Option ι × List (Command ι)
  | cell, [] => (cell, [])
  | cell, c :: cs =>
    if answer cell c = .occupied then ((sweep cell cs).1, c :: (sweep cell cs).2)
    else sweep (after cell c) cs

theorem Owed.sweep (h : Owed cell cs owner) : sweep cell cs = (owner, []) := by
  cases h <;> simp [sweep]

theorem sweep_takes (h : ∀ c ∈ cs, c.puts = false) (cell : Option ι) :
    (sweep cell cs).2 = [] ∧ ∀ x, (sweep cell cs).1 = some x ↔ cell = some x ∧ take x ∉ cs := by
  induction cs generalizing cell with
  | nil => simp [sweep]
  | cons c cs ih =>
    obtain ⟨hc, hcs⟩ := forall_mem_cons.mp h
    obtain ⟨puts, y⟩ := c
    obtain rfl : puts = false := hc
    have hfree : answer cell (take y) ≠ .occupied := fun h => absurd (puts_of_occupied h) (by simp)
    rw [sweep, if_neg hfree]
    refine ⟨(ih hcs _).1, fun x => ?_⟩
    rw [(ih hcs _).2]
    by_cases hy : cell = some y
    · subst hy
      simp +contextual [eq_comm]
    · have hne : answer cell (take y) ≠ .done := by simp [answer, hy]
      rw [after_of_ne_done hne]
      simp only [mem_cons, Command.mk.injEq, true_and, not_or]
      refine and_congr_right fun hx => (and_iff_right ?_).symm
      rintro rfl
      exact hy hx

/-- Commands run to their end: what was there is taken, and what could be done is noted. -/
inductive Performed : Option ι → List (Command ι) → Option ι → List (Command ι) → Prop
  | nil (cell : Option ι) : Performed cell [] cell []
  | done {cell cell' : Option ι} {c : Command ι} {cs noted : List (Command ι)}
      (h : answer cell c = .done) (rest : Performed (after cell c) cs cell' noted) :
      Performed cell (c :: cs) cell' (c :: noted)
  | absent {cell cell' : Option ι} {c : Command ι} {cs noted : List (Command ι)}
      (h : answer cell c = .absent) (rest : Performed cell cs cell' noted) :
      Performed cell (c :: cs) cell' noted

theorem Performed.of_append {cs1 cs2 noted : List (Command ι)}
    (h : Performed cell (cs1 ++ cs2) cell' noted) :
    ∃ mid noted1 noted2, Performed cell cs1 mid noted1 ∧ Performed mid cs2 cell' noted2 := by
  induction cs1 generalizing cell noted with
  | nil => exact ⟨cell, [], noted, .nil _, h⟩
  | cons c cs1 ih =>
    cases h with
    | done hdone rest =>
      obtain ⟨mid, noted1, noted2, h1, h2⟩ := ih rest
      exact ⟨mid, c :: noted1, noted2, .done hdone h1, h2⟩
    | absent habsent rest =>
      obtain ⟨mid, noted1, noted2, h1, h2⟩ := ih rest
      exact ⟨mid, noted1, noted2, .absent habsent h1, h2⟩

variable {noted : List (Command ι)}

theorem Performed.of_put {x : ι} (h : Performed (some x) cs cell' noted)
    (hx : take x ∉ cs) : noted = [] ∧ cell' = some x := by
  induction cs with
  | nil =>
    cases h
    exact ⟨rfl, rfl⟩
  | cons c cs ih =>
    obtain ⟨hc, hcs⟩ : take x ≠ c ∧ take x ∉ cs := by simpa using hx
    cases h with
    | done hdone rest =>
      obtain ⟨puts, y⟩ := c
      cases puts with
      | true => cases hdone
      | false =>
        obtain rfl : x = y := by simpa [answer] using hdone
        exact absurd rfl hc
    | absent _ rest => exact ih rest hcs

theorem Performed.of_none (h : Performed none cs cell' noted) (hf : Forward cs) :
    noted = [] ∧ cell' = none ∨ ∃ x, noted = [put x] ∧ cell' = some x := by
  induction cs with
  | nil =>
    cases h
    exact .inl ⟨rfl, rfl⟩
  | cons c cs ih =>
    obtain ⟨hc, hcs⟩ := pairwise_cons.mp hf
    cases h with
    | done hdone rest =>
      obtain ⟨puts, x⟩ := c
      cases puts with
      | false => cases hdone
      | true =>
        have hx : take x ∉ cs := fun hmem => absurd (hc _ hmem rfl) (by simp)
        obtain ⟨rfl, rfl⟩ := rest.of_put hx
        exact .inr ⟨x, rfl, rfl⟩
    | absent _ rest => exact ih rest hcs

/-- What is there in the end: what was put, and what was there and not taken. -/
theorem Performed.eq_some_iff (h : Performed cell cs cell' noted) (hf : Forward cs) (x : ι) :
    cell' = some x ↔ put x ∈ cs ∨ cell = some x ∧ take x ∉ cs := by
  induction cs generalizing cell noted with
  | nil =>
    cases h
    simp
  | cons c cs ih =>
    obtain ⟨hc, hcs⟩ := pairwise_cons.mp hf
    obtain ⟨puts, y⟩ := c
    cases h with
    | done hdone rest =>
      cases puts with
      | true =>
        obtain rfl : cell = none := by simpa [answer] using hdone
        have hy : take y ∉ cs := fun hmem => absurd (hc _ hmem rfl) (by simp)
        obtain ⟨-, rfl⟩ := rest.of_put hy
        constructor
        · intro heq
          obtain rfl : y = x := Option.some.inj heq
          exact .inl mem_cons_self
        · rintro (hmem | ⟨hnone, -⟩)
          · rcases mem_cons.mp hmem with heq | hmem
            · obtain rfl : x = y := congrArg Command.item heq
              rfl
            · exact (ih rest hcs).mpr (.inl hmem)
          · cases hnone
      | false =>
        obtain rfl : cell = some y := by simpa [answer] using hdone
        rw [ih rest hcs, after_take_self]
        simp only [mem_cons, Command.mk.injEq, Bool.true_eq_false, false_and, false_or, not_or,
          true_and, Option.some.injEq, reduceCtorEq, or_false]
        refine ⟨.inl, fun hx => hx.resolve_right ?_⟩
        rintro ⟨heq, hne, -⟩
        exact hne heq.symm
    | absent habsent rest =>
      cases puts with
      | true => cases cell <;> cases habsent
      | false =>
        rw [ih rest hcs]
        have hne : cell = some x → x ≠ y := by
          rintro rfl rfl
          simp at habsent
        simp only [mem_cons, Command.mk.injEq, Bool.true_eq_false, false_and, false_or, not_or,
          true_and]
        tauto

theorem Performed.put_notMem {x : ι} (h : Performed (some x) cs cell' noted) (hf : Forward cs)
    (hx : take x ∉ cs) : put x ∉ cs := by
  induction cs with
  | nil => simp
  | cons c cs ih =>
    obtain ⟨hc, hcs⟩ : take x ≠ c ∧ take x ∉ cs := by simpa using hx
    obtain ⟨puts, y⟩ := c
    cases h with
    | done hdone rest =>
      cases puts with
      | true => cases hdone
      | false =>
        obtain rfl : x = y := by simpa [answer] using hdone
        exact absurd rfl hc
    | absent habsent rest =>
      cases puts with
      | true => cases habsent
      | false => simpa using ih rest (pairwise_cons.mp hf).2 hcs

/-- The inverses, the last one first, are what is owed for going back. -/
theorem Performed.owed (h : Performed cell cs cell' noted) (hf : Forward cs) :
    Owed cell' (noted.reverse.map Command.inverse) cell := by
  cases cell with
  | none =>
    obtain ⟨rfl, rfl⟩ | ⟨x, rfl, rfl⟩ := h.of_none hf
    · exact .nothing _
    · exact .take x
  | some y =>
    induction cs with
    | nil =>
      cases h
      exact .nothing _
    | cons c cs ih =>
      have hcs := (pairwise_cons.mp hf).2
      cases h with
      | done hdone rest =>
        obtain ⟨puts, x⟩ := c
        cases puts with
        | true => cases hdone
        | false =>
          obtain rfl : y = x := by simpa [answer] using hdone
          rw [after_take_self] at rest
          obtain ⟨rfl, rfl⟩ | ⟨x, rfl, rfl⟩ := rest.of_none hcs
          · exact .put y
          · exact .swap x y
      | absent _ rest => exact ih hcs rest

end

end Undo
