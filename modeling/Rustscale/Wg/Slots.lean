import Rustscale.Wg.Tunnel

/-! The slots of outstanding tokens are never shared, in whatever order these are opened, committed
and aborted. -/
namespace Rustscale.Wg
open Octets List WgPlaintextBatch Nat WgOpenedPacket

variable {E : Engine}

section
variable {packets : List Buffer} {len : ℕ}

theorem collapse_le (packets : List Buffer) (len reserved : ℕ) :
    collapse packets len reserved ≤ reserved := by
  induction reserved with
  | zero => exact le_rfl
  | succ reserved ih =>
    rw [collapse]
    split
    · exact ih.trans (le_succ _)
    · exact le_rfl

theorem le_collapse {reserved : ℕ} (h : len ≤ reserved) : len ≤ collapse packets len reserved := by
  induction reserved with
  | zero => exact h
  | succ reserved ih =>
    rw [collapse]
    split
    · next hc => exact ih (le_of_lt_succ hc.1)
    · exact h

theorem lt_collapse {slot reserved : ℕ} (hslot : slot < reserved)
    (hlent : packets.getD slot none = none) :
    slot < collapse packets len reserved := by
  induction reserved with
  | zero => exact hslot
  | succ reserved ih =>
    rw [collapse]
    split
    · next hc =>
      refine ih ((le_of_lt_succ hslot).lt_of_ne ?_)
      rintro rfl
      rw [hlent] at hc
      simp [Buffer.allocated] at hc
    · exact hslot

end

namespace WgPlaintextBatch

/-- The filled buffers are lent ones, and these exist. -/
structure Wf (b : WgPlaintextBatch) : Prop where
  len : b.len ≤ b.reserved
  reserved : b.reserved ≤ b.packets.length

/-- A slot that a token holds: it is empty, or packets have moved over it. -/
def Lends (b : WgPlaintextBatch) (slot : ℕ) : Prop :=
  slot < b.reserved ∧ (slot < b.len ∨ b.packets.getD slot none = none)

variable {b : WgPlaintextBatch} {slot slot' : ℕ} {packet : Buffer}

theorem clear_wf (b : WgPlaintextBatch) : b.clear.Wf := ⟨le_rfl, zero_le _⟩

theorem getD_set_of_ne {xs : List Buffer} (h : slot ≠ slot') :
    (xs.set slot packet).getD slot' none = xs.getD slot' none := by
  simp [getD_eq_getElem?_getD, h]

theorem lt_length_extended {packets : List Buffer} {used : ℕ} (h : used ≤ packets.length) :
    used < (extended packets used).length := by
  unfold extended
  split
  · simp; omega
  · omega

theorem getD_extended (packets : List Buffer) (used slot : ℕ) :
    (extended packets used).getD slot none = packets.getD slot none := by
  unfold extended
  split
  · rw [getD_eq_getElem?_getD, getD_eq_getElem?_getD, getElem?_append]
    split
    · rfl
    · next hslot =>
      rw [getElem?_eq_none (not_lt.mp hslot)]
      cases slot - packets.length <;> simp
  · rfl

theorem take_extended {packets : List Buffer} {used : ℕ} (h : used ≤ packets.length) :
    (extended packets used).take used = packets.take used := by
  unfold extended
  split
  · exact take_append_of_le_length h
  · rfl

/-- Whatever else was lent stays so. -/
structure Keeps (b b' : WgPlaintextBatch) (slot : ℕ) : Prop where
  wf : b'.Wf
  id : b'.id = b.id
  epoch : b'.epoch = b.epoch
  lends : ∀ slot', slot' ≠ slot → b.Lends slot' → b'.Lends slot'

theorem Keeps.refl (h : b.Wf) (slot : ℕ) : Keeps b b slot :=
  ⟨h, rfl, rfl, fun _ _ hlends => hlends⟩

theorem takeOpenSlot_spec {b' : WgPlaintextBatch} {n : ℕ} (h : b.Wf)
    (ht : b.takeOpenSlot n = .ok (slot, packet, b')) :
    slot = b.reserved ∧ Keeps b b' slot ∧ b'.Lends slot := by
  unfold takeOpenSlot at ht
  split_ifs at ht
  cases ht
  have hlt := lt_length_extended h.reserved
  refine ⟨rfl, ⟨⟨h.len.trans (le_succ _), ?_⟩, rfl, rfl, fun slot' hne hlends => ?_⟩, ?_⟩
  · simpa using hlt
  · refine ⟨hlends.1.trans (lt_succ_self _), hlends.2.imp (fun hlt => hlt) fun hnone => ?_⟩
    rw [getD_set_of_ne (Ne.symm hne), getD_extended]
    exact hnone
  · refine ⟨lt_succ_self _, .inr ?_⟩
    simp [getD_eq_getElem?_getD, hlt]

theorem takeOpenSlot_counts {b' : WgPlaintextBatch} {n : ℕ}
    (ht : b.takeOpenSlot n = .ok (slot, packet, b')) :
    b.reserved ≠ maxPackets ∧ b'.reserved = b.reserved + 1 ∧ b'.len = b.len := by
  unfold takeOpenSlot at ht
  split_ifs at ht with _ hfull
  cases ht
  exact ⟨hfull, rfl, rfl⟩

theorem returnOpenSlot_none_spec (h : b.Wf) (slot : ℕ) (packet : Buffer) :
    Keeps b (b.returnOpenSlot slot packet none).2 slot := by
  unfold returnOpenSlot
  split
  · exact .refl h slot
  · refine ⟨⟨le_collapse h.len, ?_⟩, rfl, rfl, fun slot' hne hlends => ?_⟩
    · simpa using (collapse_le _ _ _).trans h.reserved
    · rcases hlends.2 with hlt | hnone
      · exact ⟨hlt.trans_le (le_collapse h.len), .inl hlt⟩
      · have hnone' : (b.packets.set slot packet).getD slot' none = none :=
          (getD_set_of_ne (Ne.symm hne)).trans hnone
        exact ⟨lt_collapse hlends.1 hnone', .inr hnone'⟩

theorem returnOpenSlot_some_spec (h : b.Wf) (slot : ℕ) (packet : Buffer) (len : ℕ) :
    Keeps b (b.returnOpenSlot slot packet (some len)).2 slot := by
  unfold returnOpenSlot
  split
  · exact .refl h slot
  · next hslot =>
    simp only [not_or, not_lt, not_le] at hslot
    refine ⟨⟨by dsimp only; omega, ?_⟩, rfl, rfl, fun slot' hne hlends => ⟨hlends.1, ?_⟩⟩
    · dsimp only
      split <;> simpa [swap] using h.reserved
    · by_cases hlen : slot' ≤ b.len
      · exact .inl (lt_succ_of_le hlen)
      · -- only the slot itself and the end of the packets are touched
        refine .inr ?_
        have hnone := hlends.2.resolve_left (by omega)
        dsimp only
        split
        · rw [swap, getD_set_of_ne (by omega), getD_set_of_ne (Ne.symm hne),
            getD_set_of_ne (Ne.symm hne)]
          exact hnone
        · rw [getD_set_of_ne (Ne.symm hne)]
          exact hnone

end WgPlaintextBatch

/-- What a burst does with its buffers. -/
inductive SlotOp (E : Engine) where
  | open (t : WgTunn E) (datagram : List Byte) (prepared : E.Prepared)
  | commit (t : WgTunn E) (i : ℕ)
  | abort (i : ℕ)
  | clear

/-- A batch and the tokens that were opened in it, the spent ones among them. -/
structure Lending (E : Engine) where
  batch : WgPlaintextBatch
  tokens : List (WgOpenedPacket E)

def Lending.step (s : Lending E) : SlotOp E → Lending E
  | .open t datagram prepared =>
    let opened := t.openPreparedInto datagram prepared s.batch
    ⟨opened.2, s.tokens ++ opened.1.toList⟩
  | .commit t i =>
    match s.tokens[i]? with
    | none => s
    | some token =>
      let committed := t.commitOpened token s.batch
      ⟨committed.2.2.2, s.tokens.set i committed.2.2.1⟩
  | .abort i =>
    match s.tokens[i]? with
    | none => s
    | some token => ⟨token.abort s.batch, s.tokens.set i { token with opened := none }⟩
  | .clear => ⟨(s.tokens.foldl (fun batch token => token.abort batch) s.batch).clear, []⟩

/-- No two outstanding tokens hold one slot. -/
def Lending.Distinct (s : Lending E) : Prop :=
  ∀ (i j : ℕ) (a b : WgOpenedPacket E), i ≠ j → s.tokens[i]? = some a →
    s.tokens[j]? = some b → a.opened.isSome → b.opened.isSome → a.slot ≠ b.slot

/-- Tokens that are not used up own different buffers. -/
structure Lending.Inv (s : Lending E) : Prop where
  wf : s.batch.Wf
  lends : ∀ (i : ℕ) (a : WgOpenedPacket E), s.tokens[i]? = some a → a.opened.isSome →
    s.batch.Lends a.slot
  distinct : s.Distinct

open WgPlaintextBatch

variable (b : WgPlaintextBatch)

theorem Lending.Inv.empty : Lending.Inv (E := E) ⟨b.clear, []⟩ :=
  ⟨clear_wf b, by simp, fun i j a c _ hi => by simp at hi⟩

variable {s : Lending E}

/-- Using up one token leaves the other loans as they were. -/
theorem Lending.Inv.spend (h : s.Inv) {i : ℕ} {a a' : WgOpenedPacket E} {batch : WgPlaintextBatch}
    (ha : s.tokens[i]? = some a) (ha' : a'.opened = none)
    (hkeeps : a.opened.isSome → Keeps s.batch batch a.slot)
    (hnone : a.opened = none → batch = s.batch) : Lending.Inv ⟨batch, s.tokens.set i a'⟩ := by
  have hrest : ∀ (j : ℕ) (c : WgOpenedPacket E), (s.tokens.set i a')[j]? = some c →
      c.opened.isSome → j ≠ i ∧ s.tokens[j]? = some c := by
    intro j c hj hc
    rw [getElem?_set] at hj
    split_ifs at hj with hij
    · cases hj
      simp [ha'] at hc
    · exact ⟨Ne.symm hij, hj⟩
  cases hopen : a.opened with
  | none =>
    rw [hnone hopen]
    refine ⟨h.wf, fun j c hj hc => ?_, fun j k c d hjk hj hk hc hd => ?_⟩
    · exact h.lends j c (hrest j c hj hc).2 hc
    · exact h.distinct j k c d hjk (hrest j c hj hc).2 (hrest k d hk hd).2 hc hd
  | some vendor =>
    have hk := hkeeps (by simp [hopen])
    refine ⟨hk.wf, fun j c hj hc => ?_, fun j k c d hjk hj hk hc hd => ?_⟩
    · obtain ⟨hne, hj⟩ := hrest j c hj hc
      exact hk.lends c.slot (h.distinct j i c a hne hj ha hc (by simp [hopen])) (h.lends j c hj hc)
    · exact h.distinct j k c d hjk (hrest j c hj hc).2 (hrest k d hk hd).2 hc hd

/-- Opening lends the slot it takes to the token, or gives it back. -/
theorem openPreparedInto_cases (t : WgTunn E) (datagram : List Byte) (prepared : E.Prepared)
    (b : WgPlaintextBatch) :
    t.openPreparedInto datagram prepared b = (none, b) ∨
      ∃ slot packet b', b.takeOpenSlot (datagram.length - 16) = .ok (slot, packet, b') ∧
        ((∃ packet, t.openPreparedInto datagram prepared b =
            (none, (b'.returnOpenSlot slot packet none).2)) ∨
          ∃ vendor, E.openPreparedData t.tunn datagram prepared packet = .ok vendor ∧
            t.openPreparedInto datagram prepared b =
              (some ⟨some vendor, slot, b'.id, b'.epoch, t.pipelineInstanceId⟩, b')) := by
  unfold WgTunn.openPreparedInto
  generalize b.takeOpenSlot (datagram.length - 16) = taken
  rcases taken with e | ⟨slot, packet, b'⟩
  · exact .inl rfl
  · refine .inr ⟨slot, packet, b', rfl, ?_⟩
    dsimp only
    generalize E.openPreparedData t.tunn datagram prepared packet = opened
    rcases opened with packet | vendor
    · exact .inl ⟨packet, rfl⟩
    · exact .inr ⟨vendor, rfl, rfl⟩

/-- Step: opening a datagram lends at most one further slot. -/
theorem Lending.Inv.open (h : s.Inv) {t : WgTunn E} {datagram : List Byte} {prepared : E.Prepared} :
    (s.step (.open t datagram prepared)).Inv := by
  rw [Lending.step]
  rcases openPreparedInto_cases t datagram prepared s.batch with
    heq | ⟨slot, packet, b, htake, hcases⟩
  · rw [heq]
    exact (append_nil s.tokens).symm ▸ h
  · obtain ⟨rfl, hkeeps, hlends⟩ := takeOpenSlot_spec h.wf htake
    -- no outstanding token holds the next slot
    have hne : ∀ (i : ℕ) (a : WgOpenedPacket E), s.tokens[i]? = some a → a.opened.isSome →
        a.slot ≠ s.batch.reserved := fun i a hi ha => (h.lends i a hi ha).1.ne
    have hrest : ∀ (i : ℕ) (a : WgOpenedPacket E), s.tokens[i]? = some a →
        a.opened.isSome → b.Lends a.slot :=
      fun i a hi ha => hkeeps.lends a.slot (hne i a hi ha) (h.lends i a hi ha)
    rcases hcases with ⟨packet, heq⟩ | ⟨vendor, -, heq⟩
    · rw [heq, Option.toList_none, append_nil]
      have hback := returnOpenSlot_none_spec hkeeps.wf s.batch.reserved packet
      exact ⟨hback.wf, fun i a hi ha => hback.lends _ (hne i a hi ha) (hrest i a hi ha), h.distinct⟩
    · rw [heq, Option.toList_some]
      have hcases : ∀ (i : ℕ) (token a : WgOpenedPacket E), (s.tokens ++ [token])[i]? = some a →
          s.tokens[i]? = some a ∨ i = s.tokens.length ∧ a = token := by
        intro i token a hi
        rw [getElem?_append] at hi
        split at hi
        · exact .inl hi
        · obtain ⟨hlt, rfl⟩ := List.getElem?_eq_some_iff.mp hi
          refine .inr ⟨?_, by simp⟩
          simp only [length_singleton] at hlt
          omega
      refine ⟨hkeeps.wf, fun i a hi ha => ?_, fun i j a c hij hi hj ha hc => ?_⟩
      · rcases hcases i _ a hi with hi | ⟨-, rfl⟩
        · exact hrest i a hi ha
        · exact hlends
      · rcases hcases i _ a hi with hi | ⟨rfl, rfl⟩ <;> rcases hcases j _ c hj with hj | ⟨rfl, rfl⟩
        · exact h.distinct i j a c hij hi hj ha hc
        · exact hne i a hi ha
        · exact (hne j c hj hc).symm
        · exact absurd rfl hij

theorem abort_keeps {b : WgPlaintextBatch} (h : b.Wf) (token : WgOpenedPacket E) :
    Keeps b (token.abort b) token.slot := by
  unfold abort
  split
  · exact .refl h _
  · split
    · exact returnOpenSlot_none_spec h _ _
    · exact .refl h _

theorem commitOpened_keeps {b : WgPlaintextBatch} (h : b.Wf) (t : WgTunn E)
    (token : WgOpenedPacket E) : Keeps b (t.commitOpened token b).2.2.2 token.slot ∧
      (t.commitOpened token b).2.2.1.opened = none ∧
      (token.opened = none → (t.commitOpened token b).2.2.2 = b) := by
  unfold WgTunn.commitOpened
  cases hv : token.opened with
  | none => exact ⟨.refl h _, hv, fun _ => rfl⟩
  | some vendor =>
    simp only [reduceCtorEq, false_implies, and_true]
    split
    · exact ⟨abort_keeps h token, rfl⟩
    · rcases (E.commitOpenedData t.tunn vendor).1 with packet | ⟨packet, _ | len⟩
      iterate 2 · exact ⟨returnOpenSlot_none_spec h _ _, rfl⟩
      · exact ⟨returnOpenSlot_some_spec h _ _ _, rfl⟩

theorem Lending.Inv.step (h : s.Inv) (op : SlotOp E) : (s.step op).Inv := by
  cases op with
  | «open» t datagram prepared => exact h.open
  | commit t i =>
    simp only [Lending.step]
    split
    · exact h
    · next token ha =>
      obtain ⟨hkeeps, hspent, hnone⟩ := commitOpened_keeps h.wf t token
      exact h.spend ha hspent (fun _ => hkeeps) hnone
  | abort i =>
    simp only [Lending.step]
    split
    · exact h
    · next token ha =>
      refine h.spend ha rfl (fun _ => abort_keeps h.wf token) fun hnone => ?_
      simp [abort, hnone]
  | clear => exact .empty _

/-- Whatever is opened, committed, aborted and cleared, in whatever order. -/
theorem Lending.run_distinct (ops : List (SlotOp E)) :
    (ops.foldl Lending.step ⟨b.clear, []⟩).Distinct := by
  have hinv : ∀ s : Lending E, s.Inv → (ops.foldl Lending.step s).Inv := by
    induction ops with
    | nil => exact fun s h => h
    | cons op ops ih => exact fun s h => ih _ (h.step op)
  exact (hinv _ (.empty b)).distinct

end Rustscale.Wg
