import Rustscale.Lib.Machine

/-! The workers that the generations of callbacks share. -/
namespace Rustscale.Controlclient
open List Machine

def globalWorkers : ℕ := 8

/-- The permit stands for its flag `returned` too, which the scheduler shares. -/
structure GlobalWorkerPermit where
  generation : ℕ
  number : ℕ
  deriving DecidableEq

/-- The maps as lists: who waits, each generation once for every grant, and all permits. -/
structure GlobalWorkerState where
  available : ℕ := globalWorkers
  order : List ℕ := []
  waiting : List ℕ := []
  granted : List ℕ := []
  active : List GlobalWorkerPermit := []
  tombstones : List ℕ := []

structure Workers extends GlobalWorkerState where
  issued : ℕ := 0
  /-- the permits whose flags are set -/
  returned : List GlobalWorkerPermit := []
  /-- the permits that are not dropped -/
  held : List GlobalWorkerPermit := []
  /-- the generations that were cancelled, until they ask again after they were retired -/
  cancelled : List ℕ := []

namespace Workers

variable (w : Workers) (generation : ℕ)

def issueWorkerPermit : Workers :=
  let permit := ⟨generation, w.issued⟩
  { w with active := w.active ++ [permit], held := w.held ++ [permit], issued := w.issued + 1 }

def grant (order : List ℕ) : Workers :=
  { w with
    order
    waiting := w.waiting.filter (· ≠ generation)
    available := w.available - 1
    granted := generation :: w.granted }

def grantFrom (w : Workers) : List ℕ → Bool × Workers
  | [] => (false, { w with order := [] })
  | generation :: order =>
    if generation ∈ w.waiting then (true, w.grant generation order) else grantFrom w order

/-- Whether a generation is to be woken. -/
def grantNextWorker : Bool × Workers := w.grantFrom w.order

/-- Grants while workers are free, of which each turn takes one. -/
def grantAll : ℕ → Workers → Workers
  | 0, w => w
  | available + 1, w =>
    match w.grantNextWorker with
    | (false, w) => w
    | (true, w) => grantAll available w

def tryAcquire : Workers :=
  if generation ∈ w.tombstones then w
  else
    let w := { w with cancelled := w.cancelled.filter (· ≠ generation) }
    if generation ∈ w.granted then
      issueWorkerPermit { w with granted := w.granted.erase generation } generation
    else if 0 < w.available ∧ w.order = [] then
      issueWorkerPermit { w with available := w.available - 1 } generation
    else if generation ∈ w.waiting then w
    else { w with order := w.order ++ [generation], waiting := generation :: w.waiting }

def release (permit : GlobalWorkerPermit) : Workers :=
  (grantNextWorker { w with
    active := w.active.filter (· != permit)
    returned := permit :: w.returned
    available := if permit ∈ w.returned then w.available
      else min (w.available + 1) globalWorkers }).2

def cancel : Workers :=
  let available := min (w.available + w.granted.count generation) globalWorkers
  let active := w.active.filter (·.generation = generation)
  let available := min (available + active.countP (· ∉ w.returned)) globalWorkers
  grantAll available { w with
    available
    tombstones := generation :: w.tombstones
    waiting := w.waiting.filter (· ≠ generation)
    order := w.order.filter (· ≠ generation)
    granted := w.granted.filter (· != generation)
    active := w.active.filter (·.generation ≠ generation)
    returned := active ++ w.returned
    cancelled := generation :: w.cancelled }

def retire : Workers :=
  { w with tombstones := w.tombstones.filter (· ≠ generation) }

end Workers

/-- What clients of the scheduler do: they ask, return a permit, cancel or retire. -/
inductive Call
  | tryAcquire (generation : ℕ)
  | drop (permit : GlobalWorkerPermit)
  | cancel (generation : ℕ)
  | retire (generation : ℕ)

namespace Workers

def call (w : Workers) : Call → Workers
  | .tryAcquire generation => w.tryAcquire generation
  | .drop permit =>
    if permit ∈ w.held then release { w with held := w.held.filter (· != permit) } permit else w
  | .cancel generation => w.cancel generation
  | .retire generation => w.retire generation

def run (calls : List Call) : Workers := calls.foldl call {}

/-- Free workers, grants, and permits that are neither dropped nor taken back by a cancellation. -/
def accounted (w : Workers) : ℕ := w.available + w.granted.length + w.active.length

/-- The generations that wait stand in the order once, and cancelled ones nowhere. -/
structure Queue (order waiting granted cancelled tombstones : List ℕ) : Prop where
  nodup : order.Nodup
  waits : ∀ g, g ∈ order ↔ g ∈ waiting
  clean : ∀ g ∈ cancelled, g ∉ order ∧ g ∉ granted
  marked : ∀ g ∈ tombstones, g ∈ cancelled

/-- Which flags are set. -/
structure Permits (active held returned : List GlobalWorkerPermit) (issued : ℕ) : Prop where
  nodup : active.Nodup
  isHeld : ∀ p ∈ active, p ∈ held
  made : ∀ p, p ∈ held ∨ p ∈ returned → p.number < issued
  isReturned : ∀ p ∈ held, p ∈ returned ↔ p ∉ active

/-- The queue and the permits agree with the counters. -/
structure Sound (w : Workers) : Prop where
  queue : Queue w.order w.waiting w.granted w.cancelled w.tombstones
  permits : Permits w.active w.held w.returned w.issued

/-- Nobody waits while a permit is free. -/
structure Inv (w : Workers) : Prop extends Sound w where
  idle : w.order ≠ [] → w.available = 0

variable {w : Workers} {g : ℕ}

theorem Sound.grantNextWorker (h : w.Sound) :
    w.order = [] ∧ w.grantNextWorker = (false, w) ∨
      w.order ≠ [] ∧ ∃ w', w.grantNextWorker = (true, w') ∧ w'.Sound ∧
        w'.available = w.available - 1 ∧ w'.granted.length = w.granted.length + 1 ∧
        w'.active = w.active := by
  rw [Workers.grantNextWorker]
  cases horder : w.order with
  | nil => exact .inl ⟨rfl, by rw [grantFrom, ← horder]⟩
  | cons g order =>
    obtain ⟨hnodup, hwaiting, hclean, htombs⟩ := h.queue
    rw [horder] at hnodup hwaiting hclean
    refine .inr ⟨cons_ne_nil _ _, w.grant g order, ?_, ⟨⟨hnodup.of_cons, fun k => ?_, fun k hk => ?_,
      htombs⟩, h.permits⟩, rfl, rfl, rfl⟩
    · rw [grantFrom, if_pos ((hwaiting g).mp mem_cons_self)]
    · have := hwaiting k
      grind [grant]
    · have := hclean k hk
      grind [grant]

theorem Sound.grantAll {n : ℕ} {w : Workers} (h : w.Sound) (hn : w.available = n) :
    (grantAll n w).Inv ∧ (grantAll n w).accounted = w.accounted := by
  induction n generalizing w with
  | zero => exact ⟨⟨h, fun _ => hn⟩, rfl⟩
  | succ n ih =>
    rcases h.grantNextWorker with ⟨hnil, hgrant⟩ | ⟨-, w', hgrant, h', hav, hlen, hact⟩
    · rw [Workers.grantAll, hgrant]
      exact ⟨⟨h, fun hne => absurd hnil hne⟩, rfl⟩
    · rw [Workers.grantAll, hgrant]
      obtain ⟨hinv, hsum⟩ := ih h' (by omega)
      refine ⟨hinv, hsum.trans ?_⟩
      rw [accounted, accounted, hact]
      omega

theorem Inv.issueWorkerPermit (h : w.Inv) (g : ℕ) :
    (w.issueWorkerPermit g).Inv ∧ (w.issueWorkerPermit g).accounted = w.accounted + 1 := by
  obtain ⟨⟨hq, hnodup, hheld, hmade, hreturned⟩, hidle⟩ := h
  have hnew : ∀ p, p ∈ w.held ∨ p ∈ w.returned → p ≠ ⟨g, w.issued⟩ := by
    rintro _ hmem rfl
    exact (hmade _ hmem).false
  refine ⟨⟨⟨hq, ?_, ?_, ?_, ?_⟩, hidle⟩, ?_⟩
  · exact nodup_append.mpr ⟨hnodup, by simp, by grind⟩
  iterate 3 · grind [Workers.issueWorkerPermit]
  · simp only [accounted, Workers.issueWorkerPermit, length_append, length_singleton]
    omega

/-- Step: an attempt to acquire keeps every permit accounted for. -/
theorem Inv.tryAcquire (h : w.Inv) (g : ℕ) :
    (w.tryAcquire g).Inv ∧ (w.tryAcquire g).accounted = w.accounted := by
  rw [Workers.tryAcquire]
  split
  · exact ⟨h, rfl⟩
  next htomb =>
  obtain ⟨⟨⟨hnodup, hwaiting, hclean, htombs⟩, hp⟩, hidle⟩ := h
  have htombs : ∀ k ∈ w.tombstones, k ∈ w.cancelled.filter (· ≠ g) := by grind
  have hclean : ∀ k ∈ w.cancelled.filter (· ≠ g), k ∉ w.order ∧ k ∉ w.granted := by grind
  dsimp only
  split
  · next hg =>
    obtain ⟨hinv, hsum⟩ := Inv.issueWorkerPermit (w := { w with
      cancelled := w.cancelled.filter (· ≠ g)
      granted := w.granted.erase g }) ⟨⟨⟨hnodup, hwaiting, fun k hk => ⟨(hclean k hk).1, fun hmem =>
        (hclean k hk).2 (mem_of_mem_erase hmem)⟩, htombs⟩, hp⟩, hidle⟩ g
    refine ⟨hinv, hsum.trans ?_⟩
    have := length_erase_of_mem hg
    have := length_pos_of_mem hg
    simp only [accounted]
    omega
  · split
    · next hfree =>
      obtain ⟨hinv, hsum⟩ := Inv.issueWorkerPermit (w := { w with
        cancelled := w.cancelled.filter (· ≠ g)
        available := w.available - 1 })
        ⟨⟨⟨hnodup, hwaiting, hclean, htombs⟩, hp⟩, fun hne => absurd hfree.2 hne⟩ g
      refine ⟨hinv, hsum.trans ?_⟩
      simp only [accounted]
      omega
    · split
      · exact ⟨⟨⟨⟨hnodup, hwaiting, hclean, htombs⟩, hp⟩, hidle⟩, rfl⟩
      · refine ⟨⟨⟨⟨?_, ?_, ?_, htombs⟩, hp⟩, fun _ => ?_⟩, rfl⟩
        · exact nodup_append.mpr ⟨hnodup, by simp, by grind⟩
        all_goals grind

/-- Step: a drop keeps the count unless the permit is stale and someone waits. -/
theorem Inv.drop {p : GlobalWorkerPermit} (h : w.Inv) (hp : p ∈ w.held) :
    (w.call (.drop p)).Inv ∧ (w.accounted = globalWorkers →
      ((w.call (.drop p)).accounted = globalWorkers ↔ p ∈ w.active ∨ w.order = [])) := by
  obtain ⟨⟨hq, hnodup, hheld, hmade, hreturned⟩, hidle⟩ := h
  rw [call, if_pos hp, release]
  generalize hav : (if p ∈ w.returned then w.available else _) = available
  -- a permit that is still out gives its worker back
  have hback : p ∈ w.active ∧ available = min (w.available + 1) globalWorkers ∧
        (w.active.filter (· != p)).length + 1 = w.active.length ∨
      p ∉ w.active ∧ available = w.available ∧
        (w.active.filter (· != p)).length = w.active.length := by
    have := hreturned p hp
    rw [← hnodup.erase_eq_filter, ← hav, length_erase]
    grind
  have hs : Sound { w with
      active := w.active.filter (· != p)
      held := w.held.filter (· != p)
      returned := p :: w.returned
      available } := ⟨hq, hnodup.filter _, by grind, by grind, by grind⟩
  simp only [accounted]
  rcases hs.grantNextWorker with ⟨hnil, hgrant⟩ | ⟨hne, w', hgrant, hs', hav', hlen, hact⟩
  · rw [hgrant]
    exact ⟨⟨hs, fun hne => absurd hnil hne⟩, by grind⟩
  · rw [hgrant, hact]
    have := hidle hne
    exact ⟨⟨hs', by grind [globalWorkers]⟩, by grind [globalWorkers]⟩

/-- Step: cancelling a generation keeps every permit accounted for. -/
theorem Inv.cancel (h : w.Inv) (g : ℕ) :
    (w.cancel g).Inv ∧ (w.accounted = globalWorkers → (w.cancel g).accounted = globalWorkers) := by
  obtain ⟨⟨⟨hnodup, hwaiting, hclean, htombs⟩, hactive, hheld, hmade, hreturned⟩, hidle⟩ := h
  rw [Workers.cancel]
  generalize hav : min (min (w.available + _) globalWorkers + _) globalWorkers = available
  obtain ⟨hinv, hsum⟩ := Sound.grantAll (w := { w with
    available
    tombstones := g :: w.tombstones
    waiting := w.waiting.filter (· ≠ g)
    order := w.order.filter (· ≠ g)
    granted := w.granted.filter (· != g)
    active := w.active.filter (·.generation ≠ g)
    returned := w.active.filter (·.generation = g) ++ w.returned
    cancelled := g :: w.cancelled })
    ⟨⟨hnodup.filter _, by grind, by grind, by grind⟩, hactive.filter _, by grind, by grind, by grind⟩ rfl
  refine ⟨hinv, fun hw => hsum.trans ?_⟩
  have hunset : (w.active.filter (·.generation = g)).countP (· ∉ w.returned) =
      (w.active.filter (·.generation = g)).length :=
    countP_eq_length.mpr (by grind)
  have hgranted := length_eq_length_filter_add (l := w.granted) (· == g)
  have hpermits := length_eq_length_filter_add (l := w.active) (·.generation = g)
  simp only [accounted, decide_not, bne] at hw ⊢
  rw [hunset, count_eq_length_filter] at hav
  omega

/-- A permit that a cancellation took back is dropped only while nobody waits. -/
def Settled (w : Workers) : Call → Prop
  | .drop permit => permit ∈ w.held → permit ∈ w.active ∨ w.order = []
  | _ => True

theorem Inv.call (h : w.Inv) (c : Call) : (w.call c).Inv ∧ (w.accounted = globalWorkers →
    ((w.call c).accounted = globalWorkers ↔ w.Settled c)) := by
  cases c with
  | tryAcquire g =>
    obtain ⟨hinv, hsum⟩ := h.tryAcquire g
    exact ⟨hinv, fun hw => iff_of_true (hsum.trans hw) trivial⟩
  | drop p =>
    by_cases hp : p ∈ w.held
    · obtain ⟨hinv, hsum⟩ := h.drop hp
      exact ⟨hinv, fun hw => (hsum hw).trans ⟨fun hs _ => hs, fun hs => hs hp⟩⟩
    · rw [Workers.call, if_neg hp]
      exact ⟨h, fun hw => iff_of_true hw fun hmem => absurd hmem hp⟩
  | cancel g =>
    obtain ⟨hinv, hsum⟩ := h.cancel g
    exact ⟨hinv, fun hw => iff_of_true (hsum hw) trivial⟩
  | retire g =>
    obtain ⟨⟨⟨hnodup, hwaiting, hclean, htombs⟩, hp⟩, hidle⟩ := h
    refine ⟨⟨⟨⟨hnodup, hwaiting, hclean, ?_⟩, hp⟩, hidle⟩, fun hw => iff_of_true hw trivial⟩
    exact fun k hk => htombs k (mem_filter.mp hk).1

theorem new_inv : Inv {} := by
  refine ⟨⟨⟨nodup_nil, ?_, ?_, ?_⟩, nodup_nil, ?_, ?_, ?_⟩, ?_⟩ <;> simp

theorem run_inv (calls : List Call) : (run calls).Inv :=
  foldlRecOn calls call new_inv fun _ h c _ => (h.call c).1

/-- Workers are neither lost nor issued twice as long as no permit of a cancelled generation is
dropped while others wait. -/
theorem workers_accounted_iff (calls : List Call) :
    (run calls).order.Nodup ∧ (∀ g, g ∈ (run calls).order ↔ g ∈ (run calls).waiting) ∧
      (∀ g ∈ (run calls).cancelled, g ∉ (run calls).order ∧ g ∉ (run calls).granted) ∧
      (∀ g ∈ (run calls).tombstones, g ∈ (run calls).cancelled) ∧
      ((∀ front, front <+: calls → (run front).accounted = globalWorkers) ↔
        Every (fun front c => (run front).Settled c) calls) := by
  obtain ⟨hnodup, hwaits, hclean, hmarked⟩ := (run_inv calls).queue
  exact ⟨hnodup, hwaits, hclean, hmarked,
    every_iff (P := fun w => w.accounted = globalWorkers) new_inv rfl fun _ c h => h.call c⟩

/-- A permit of a cancelled generation is dropped after eight others were given out. -/
theorem nine_workers : (run ([.tryAcquire 1, .cancel 1] ++ replicate 8 (.tryAcquire 2) ++
    [.tryAcquire 3, .drop ⟨1, 0⟩])).accounted = 9 := by
  decide

/-- No worker is free while a generation waits, and permits count once and while held. -/
theorem run_idle (calls : List Call) :
    let w := run calls
    (w.order = [] ∨ w.available = 0) ∧ w.active.Nodup ∧ ∀ p ∈ w.active, p ∈ w.held := by
  have h := run_inv calls
  exact ⟨or_iff_not_imp_left.mpr h.idle, h.permits.nodup, h.permits.isHeld⟩

end Workers

end Rustscale.Controlclient
