import Rustscale.Tka.Authority

/-! The order between fork candidates is total up to their hash, and `pick_next` returns its least
element. -/
namespace Rustscale.Tka
open Std AumHash List
variable [Crypto]

def removalKey (aum : Aum) : Bool := !(aum.messageKind == .removeKey)

theorem compareCandidates_eq (state : State) :
    compareCandidates state =
      compareLex (fun l r => compareOn (signatureWeight state) r l)
        (compareLex (compareOn removalKey) (compareOn Aum.hash)) := by
  funext l r
  simp only [compareCandidates, compareLex, compareOn, removalKey, Ordering.then_assoc]
  congr 2
  cases l.messageKind == .removeKey <;> cases r.messageKind == .removeKey <;> rfl

omit [Crypto] in
theorem AumHash.compare_def (a b : AumHash) : compare a b = compare a.bytes b.bytes := rfl

instance : TransOrd AumHash where
  eq_swap := by
    intro a b
    rw [compare_def, compare_def]
    exact OrientedCmp.eq_swap
  isLE_trans := by
    intro a b c
    simp only [compare_def]
    exact TransCmp.isLE_trans

instance : LawfulEqOrd AumHash where
  compare_self := by
    intro a
    rw [compare_def]
    exact ReflCmp.compare_self
  eq_of_compare := fun h => ext_bytes (compare_eq_iff_eq.mp h)

instance compareCandidates_transCmp (state : State) : TransCmp (compareCandidates state) := by
  rw [compareCandidates_eq]
  infer_instance

theorem hash_eq_of_compareCandidates {state : State} {l r : Aum}
    (h : compareCandidates state l r = .eq) : l.hash = r.hash := by
  rw [compareCandidates_eq] at h
  simp only [compareLex, Ordering.then_eq_eq] at h
  exact compare_eq_iff_eq.mp h.2.2

instance (state : State) : Std.Total fun l r => compareCandidates state l r ≠ .gt where
  total := fun l r => by
    have hswap : compareCandidates state r l = (compareCandidates state l r).swap :=
      OrientedCmp.eq_swap
    rw [hswap]
    cases compareCandidates state l r <;> simp

instance (state : State) : IsTrans Aum fun l r => compareCandidates state l r ≠ .gt where
  trans := fun a b c hab hbc => by
    rw [ne_eq, Ordering.ne_gt_iff_isLE] at *
    exact TransCmp.isLE_trans hab hbc

/-- The pick is one of the candidates and comes before every other. -/
theorem pickNext_spec (state : State) (c : Aum) (cs : List Aum) :
    pickNext state c cs ∈ c :: cs ∧
      ∀ d ∈ c :: cs, d.hash ≠ (pickNext state c cs).hash →
        compareCandidates state (pickNext state c cs) d = .lt := by
  have hperm := perm_insertionSort (fun l r => compareCandidates state l r ≠ .gt) (c :: cs)
  have hsorted := pairwise_insertionSort (fun l r => compareCandidates state l r ≠ .gt) (c :: cs)
  unfold pickNext
  cases hl : (c :: cs).insertionSort fun l r => compareCandidates state l r ≠ .gt with
  | nil =>
    rw [hl] at hperm
    exact absurd hperm.symm (not_perm_cons_nil)
  | cons x xs =>
    rw [hl] at hperm hsorted
    refine ⟨hperm.mem_iff.mp mem_cons_self, fun d hd hne => ?_⟩
    simp only [headD_cons] at hne ⊢
    have hle : compareCandidates state x d ≠ .gt := by
      rcases mem_cons.mp (hperm.mem_iff.mpr hd) with rfl | hd
      · exact absurd rfl hne
      · exact (pairwise_cons.mp hsorted).1 d hd
    cases hcmp : compareCandidates state x d with
    | lt => rfl
    | eq => exact absurd (hash_eq_of_compareCandidates hcmp).symm hne
    | gt => exact absurd hcmp hle

end Rustscale.Tka
