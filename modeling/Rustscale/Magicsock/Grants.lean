import Rustscale.Magicsock.Receive

/-! The generations that netmaps hand out, and the table of generations read off the log. -/
namespace Rustscale.Magicsock
open Disco List Option Notice
open Udprelay (SocketAddr)

namespace PeerAuthorization
variable {refreshed : List NodePublic} {auth : PeerAuthorization} {peer q : NodePublic}

theorem generation_refresh_of_ne (h : q ≠ peer) :
    (auth.refresh refreshed peer).generation q = auth.generation q := by
  unfold refresh
  split
  · exact AList.lookup_insert_ne h
  · rfl

theorem generation_refresh_self (h : peer ∈ refreshed ∨ auth.generation peer = none) :
    (auth.refresh refreshed peer).generation peer =
      some (auth.refresh refreshed peer).nextGeneration := by
  unfold refresh
  rw [if_pos h]
  exact AList.lookup_insert _

theorem refresh_of_not (h : ¬ (peer ∈ refreshed ∨ auth.generation peer = none)) :
    auth.refresh refreshed peer = auth := if_neg h

theorem lookup_grants_of_not_mem {order : List NodePublic} {auth : PeerAuthorization}
    (hq : q ∉ order) : (grants refreshed auth order).lookup q = none := by
  induction order generalizing auth with
  | nil => rfl
  | cons peer order ih =>
    rw [mem_cons, not_or] at hq
    obtain ⟨hne, hq⟩ := hq
    rw [grants, lookup_append, ih hq, or_none]
    split
    · simp [lookup_cons, beq_eq_false_iff_ne.mpr hne]
    · rfl

theorem generation_foldl_refresh {order : List NodePublic} (hnodup : order.Nodup)
    {auth : PeerAuthorization} : (order.foldl (refresh refreshed) auth).generation q =
      ((grants refreshed auth order).lookup q).or (auth.generation q) := by
  induction order generalizing auth with
  | nil => rfl
  | cons peer order ih =>
    obtain ⟨hpeer, hnodup⟩ := nodup_cons.mp hnodup
    rw [foldl_cons, ih hnodup, grants, lookup_append]
    by_cases hq : q = peer
    · subst hq
      rw [lookup_grants_of_not_mem hpeer, none_or, or_none]
      split
      · next h => simp [generation_refresh_self h]
      · next h => simp [refresh_of_not h]
    · have hhead : (if peer ∈ refreshed ∨ auth.generation peer = none
          then [(peer, (auth.refresh refreshed peer).nextGeneration)] else []).lookup q = none := by
        split
        · simp [lookup_cons, beq_eq_false_iff_ne.mpr hq]
        · rfl
      rw [hhead, none_or, generation_refresh_of_ne hq]

/-- Generations are handed out in order, as long as there are new ones. -/
theorem grants_count (refreshed order : List NodePublic) : ∀ auth : PeerAuthorization,
    auth.nextGeneration + (grants refreshed auth order).length < 2 ^ 64 →
    (order.foldl (refresh refreshed) auth).nextGeneration =
        auth.nextGeneration + (grants refreshed auth order).length ∧
      (grants refreshed auth order).map Prod.snd =
        range' (auth.nextGeneration + 1) (grants refreshed auth order).length := by
  induction order with
  | nil => exact fun _ _ => ⟨rfl, rfl⟩
  | cons peer order ih =>
    intro auth hcount
    by_cases h : peer ∈ refreshed ∨ auth.generation peer = none
    · have hgrants : grants refreshed auth (peer :: order) =
          (peer, (auth.refresh refreshed peer).nextGeneration) ::
            grants refreshed (auth.refresh refreshed peer) order := by
        rw [grants, if_pos h]
        rfl
      have hnext : (auth.refresh refreshed peer).nextGeneration = auth.nextGeneration + 1 := by
        rw [hgrants, length_cons] at hcount
        unfold refresh
        rw [if_pos h]
        dsimp only
        rw [Nat.mod_eq_of_lt (by omega)]
        omega
      rw [hgrants, length_cons] at hcount ⊢
      obtain ⟨hnext', hmap⟩ := ih (auth.refresh refreshed peer) (by omega)
      rw [foldl_cons, hnext', map_cons, hmap, hnext, range'_succ]
      exact ⟨by omega, rfl⟩
    · have hgrants : grants refreshed auth (peer :: order) = grants refreshed auth order := by
        rw [grants, if_neg h, refresh_of_not h]
        rfl
      rw [hgrants] at hcount ⊢
      rw [foldl_cons, refresh_of_not h]
      exact ih auth hcount

end PeerAuthorization

def Notice.after (table : NodePublic → Option ℕ) : Notice → NodePublic → Option ℕ
  | .returned peers grants => fun p => if p ∈ desired peers then (grants.lookup p).or (table p) else none
  | .published _ _ => table

def replay (log : List Notice) : NodePublic → Option ℕ := log.foldl after fun _ => none

def Notice.grants : Notice → List (NodePublic × ℕ)
  | .returned _ grants => grants
  | .published _ _ => []

def grantsOf (log : List Notice) : List (NodePublic × ℕ) := log.flatMap grants

def Notice.netmap : Notice → Option (List NetmapPeer)
  | .returned peers _ => some peers
  | .published _ _ => none

def lastReturned (log : List Notice) : List NetmapPeer :=
  (log.filterMap netmap).getLast?.getD []

section
variable {log new before after : List Notice} {p : NodePublic} {g : ℕ}

theorem replay_append : replay (log ++ new) = new.foldl Notice.after (replay log) :=
  foldl_append

theorem replay_concat (e : Notice) : replay (log ++ [e]) = e.after (replay log) := replay_append

theorem replay_of_not_desired
    (h : ∀ peers grants, returned peers grants ∈ after → p ∉ desired peers)
    (hp : replay (before ++ after) p = some g) : replay before p = some g := by
  induction after using reverseRecOn with
  | nil => simpa using hp
  | append_singleton after e ih =>
    rw [← append_assoc, replay_concat] at hp
    cases e with
    | published q n =>
      exact ih (fun peers grants hmem => h peers grants (mem_append_left _ hmem)) hp
    | returned peers grants =>
      have hnot := h peers grants (by simp)
      simp [Notice.after, hnot] at hp

/-- A grant in force was made later, or earlier and kept since. -/
theorem replay_cases (before after : List Notice) (hp : replay (before ++ after) p = some g) : (p, g) ∈ grantsOf after ∨
    replay before p = some g ∧ ∀ peers grants, returned peers grants ∈ after →
      p ∈ desired peers ∧ grants.lookup p = none := by
  induction after using reverseRecOn with
  | nil => exact .inr ⟨by simpa using hp, by simp⟩
  | append_singleton after e ih =>
    rw [← append_assoc, replay_concat] at hp
    have hgrants : grantsOf (after ++ [e]) = grantsOf after ++ e.grants := by
      simp [grantsOf]
    rw [hgrants]
    cases e with
    | published q n =>
      rcases ih hp with hmem | ⟨hbefore, hall⟩
      · exact .inl (mem_append_left _ hmem)
      · exact .inr ⟨hbefore, fun peers grants hmem => hall peers grants (by simpa using hmem)⟩
    | returned peers grants =>
      simp only [Notice.after] at hp
      split at hp
      · next hdesired =>
        cases hlookup : grants.lookup p with
        | some g' =>
          rw [hlookup, some_or, some.injEq] at hp
          refine .inl (mem_append_right _ ?_)
          rw [← hp]
          obtain ⟨l1, l2, rfl, -⟩ := lookup_eq_some_iff.mp hlookup
          simp [grants]
        | none =>
          rw [hlookup, none_or] at hp
          rcases ih hp with hmem | ⟨hbefore, hall⟩
          · exact .inl (mem_append_left _ hmem)
          · refine .inr ⟨hbefore, fun peers' grants' hmem => ?_⟩
            rcases mem_append.mp hmem with hmem | hmem
            · exact hall peers' grants' hmem
            · cases mem_singleton.mp hmem
              exact ⟨hdesired, hlookup⟩
      · cases hp

theorem replay_mem_grantsOf (hp : replay log p = some g) : (p, g) ∈ grantsOf log := by
  rcases replay_cases [] log hp with h | ⟨h, -⟩
  · exact h
  · cases h

end

end Rustscale.Magicsock
