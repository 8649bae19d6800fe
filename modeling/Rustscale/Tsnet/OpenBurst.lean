import Rustscale.Tsnet.ScalarReceive

/-! What speculation asks of an engine, and the bursts that the worker opens. -/
namespace Rustscale.Inbound
open Octets Tailcfg Wg WgPlaintextBatch InboundBatchScratch

variable {E : Engine}

def OpenedAt (E : Engine) (t : E.Tunn) (d : List Byte) (vendor : E.Opened) : Prop :=
  d.length - 16 ≤ maxPipelinedEncryptedBody ∧ ∃ prepared buf,
    E.preflightData t d = some prepared ∧ E.openPreparedData t d prepared buf = .ok vendor

/-- Opening and committing accept what scalar decapsulation does. The states of a tunnel where
tokens were opened, after some commits, and after the same datagrams one by one are related. -/
structure Speculates (E : Engine) (agrees : E.Tunn → E.Tunn → E.Tunn → Prop) : Prop where
  start : ∀ t, agrees t t t
  commit : ∀ t0 t t' d vendor, OpenedAt E t0 d vendor → E.validateOpenedData t0 vendor = true →
    agrees t0 t t' → ∃ buf len, (E.commitOpenedData t vendor).1 = .ok (buf, len) ∧
      (packetsOf t' d).1 = len.toList.map (fun n => (Buffer.truncate buf n).bytes) ∧
      agrees t0 (E.commitOpenedData t vendor).2 (packetsOf t' d).2
  fits : ∀ (t : E.Tunn) (d p : List Byte), d.length - 16 ≤ maxPipelinedEncryptedBody → p ∈ (packetsOf t d).1 →
    p.length ≤ maxWgMsg

namespace Slot
variable {b : WgPlaintextBatch} {slot : ℕ}

/-- Returning the lent slot with a length appends one packet. -/
theorem returnOpenSlot_accepted (h : b.Wf) (hlends : b.Lends slot) (hlen : b.len ≤ slot)
    (packet : Buffer) (n : ℕ) :
    (b.returnOpenSlot slot packet (some n)).1 = true ∧
      (b.returnOpenSlot slot packet (some n)).2.len = b.len + 1 ∧
      (b.returnOpenSlot slot packet (some n)).2.initialized =
        b.initialized ++ [(packet.truncate n).bytes] := by
  have hslot : ¬ (slot < b.len ∨ b.reserved ≤ slot ∨ b.packets.length ≤ slot) := by
    have := hlends.1
    have := h.reserved
    omega
  rw [returnOpenSlot, if_neg hslot]
  refine ⟨rfl, rfl, ?_⟩
  have hlt : slot < b.packets.length := by omega
  simp only [initialized]
  rw [List.take_add_one, List.map_append]
  split
  · next hne =>
    rw [swap, List.take_set_of_le le_rfl, List.take_set_of_le hlen, List.take_set_of_le hlen,
      List.getElem?_set_self (by simp; omega)]
    simp [List.getD_eq_getElem?_getD, hlt]
  · next heq =>
    obtain rfl := not_not.mp heq
    rw [List.take_set_of_le le_rfl, List.getElem?_set_self hlt]
    simp

theorem returnOpenSlot_dropped (hlen : b.len ≤ slot) (packet : Buffer) :
    (b.returnOpenSlot slot packet none).2.len = b.len ∧
      (b.returnOpenSlot slot packet none).2.initialized = b.initialized := by
  unfold returnOpenSlot
  split
  · exact ⟨rfl, rfl⟩
  · refine ⟨rfl, ?_⟩
    simp only [initialized, List.take_set_of_le hlen]

end Slot

/-- A token holds the slot of its index, and its engine part is of the tunnel of the datagram's
peer. -/
def Holds (valid : E.Tunn → List Byte → E.Opened → Prop) (w : Tunnels E)
    (s : InboundBatchScratch E) (j : ℕ) : Prop :=
  ∀ d, s.datagrams[j]? = some d → ∃ tunnel vendor, w.byPeer d.peer = some tunnel ∧
    s.opened[j]? = some (some ⟨some vendor, j, s.plaintext.id, s.plaintext.epoch,
      (w.arena tunnel).pipelineInstanceId⟩) ∧
    valid (w.arena tunnel).tunn d.data vendor ∧ s.plaintext.Lends j

variable {w : Tunnels E} {s : InboundBatchScratch E} {k : ℕ} {datagrams : List WgDatagram}
  {tunnel : ℕ}

theorem Holds.of_keeps {valid : E.Tunn → List Byte → E.Opened → Prop} {s' : InboundBatchScratch E}
    {j : ℕ} (h : Holds valid w s j) (hne : j ≠ k) (hkeeps : s.plaintext.Keeps s'.plaintext k)
    (hd : s'.datagrams = s.datagrams) {token : Option (WgOpenedPacket E)}
    (ho : s'.opened = s.opened.set k token) :
    Holds valid w s' j := by
  intro d hj
  obtain ⟨tunnel, vendor, ht, hopened, hvalid, hlends⟩ := h d (hd ▸ hj)
  refine ⟨tunnel, vendor, ht, ?_, hvalid, hkeeps.lends j hne hlends⟩
  rw [ho, List.getElem?_set_ne hne.symm, hopened, hkeeps.id, hkeeps.epoch]

/-- A scratch that is loaded with a burst. -/
structure Fresh (datagrams : List WgDatagram) (s : InboundBatchScratch E) : Prop where
  datagrams : s.datagrams = datagrams
  peers : s.plaintextPeers = []
  generations : s.plaintextGenerations = []

/-- After `k` datagrams each has its own slot of plaintext. -/
structure Opening (w : Tunnels E) (s : InboundBatchScratch E) (k : ℕ) : Prop where
  wf : s.plaintext.Wf
  len : s.plaintext.len = 0
  reserved : s.plaintext.reserved = k
  room : k ≤ maxPackets
  length : s.opened.length = s.datagrams.length
  holds : ∀ j < k, Holds (OpenedAt E) w s j

theorem preflightData_eq_some {t : WgTunn E} {d : List Byte} {prepared : E.Prepared}
    (h : t.preflightData d = some prepared) :
    d.length - 16 ≤ maxPipelinedEncryptedBody ∧ E.preflightData t.tunn d = some prepared := by
  unfold WgTunn.preflightData at h
  split_ifs at h with hlarge
  exact ⟨not_lt.mp hlarge, h⟩

/-- Step: opening one datagram fills its own position and no other. -/
theorem openDatagram_opening {d : WgDatagram} (hfresh : Fresh datagrams s) (h : Opening w s k)
    (hd : s.datagrams[k]? = some d) (ht : w.byPeer d.peer = some tunnel) :
    Fresh datagrams (openDatagram (w.arena tunnel) k s d).1 ∧
      (openDatagram (w.arena tunnel) k s d).1.runs = s.runs ∧
      ((openDatagram (w.arena tunnel) k s d).2 = false →
        Opening w (openDatagram (w.arena tunnel) k s d).1 (k + 1)) := by
  unfold openDatagram
  cases hp : (w.arena tunnel).preflightData d.data with
  | none => exact ⟨hfresh, rfl, by simp⟩
  | some prepared =>
    obtain ⟨hsmall, hprepared⟩ := preflightData_eq_some hp
    rcases openPreparedInto_cases (w.arena tunnel) d.data prepared s.plaintext with
      heq | ⟨slot, packet, b, htake, ⟨packet', heq⟩ | ⟨vendor, hvendor, heq⟩⟩
    · simp only [heq]
      exact ⟨⟨hfresh.datagrams, hfresh.peers, hfresh.generations⟩, trivial, by simp⟩
    · simp only [heq]
      exact ⟨⟨hfresh.datagrams, hfresh.peers, hfresh.generations⟩, trivial, by simp⟩
    · simp only [heq]
      refine ⟨⟨hfresh.datagrams, hfresh.peers, hfresh.generations⟩, trivial, fun _ => ?_⟩
      obtain ⟨rfl, hkeeps, hlends⟩ := takeOpenSlot_spec h.wf htake
      obtain ⟨hfull, hreserved, hlen⟩ := takeOpenSlot_counts htake
      have hk : s.plaintext.reserved = k := h.reserved
      rw [hk] at hkeeps hlends hfull
      have hroom := h.room
      have hlt : k < s.opened.length := h.length ▸ (List.getElem?_eq_some_iff.mp hd).1
      refine ⟨hkeeps.wf, hlen.trans h.len, by rw [hreserved, hk], by omega, by simp [h.length], ?_⟩
      intro j hj
      rcases Nat.lt_succ_iff_lt_or_eq.mp hj with hj | rfl
      · exact (h.holds j hj).of_keeps hj.ne hkeeps rfl rfl
      · intro e he
        obtain rfl := Option.mem_unique hd he
        refine ⟨tunnel, vendor, ht, ?_, ⟨hsmall, prepared, packet, hprepared, hvendor⟩, hlends⟩
        rw [List.getElem?_set_self hlt, hk]

/-- Opening the datagrams of one run. -/
theorem openDatagrams_opening {peer : PublicKey} (ht : w.byPeer peer = some tunnel)
    {batch : List WgDatagram} (hpeer : ∀ d ∈ batch, d.peer = peer)
    (hs : batch <+: s.datagrams.drop k) (hfresh : Fresh datagrams s) (h : Opening w s k) :
    Fresh datagrams (openDatagrams (w.arena tunnel) k s batch).1 ∧
      (openDatagrams (w.arena tunnel) k s batch).1.runs = s.runs ∧
      ((openDatagrams (w.arena tunnel) k s batch).2 = false →
        Opening w (openDatagrams (w.arena tunnel) k s batch).1 (k + batch.length)) := by
  induction batch generalizing k s with
  | nil => exact ⟨hfresh, rfl, fun _ => h⟩
  | cons d batch ih =>
    obtain ⟨hd, hs⟩ := cons_isPrefix_drop hs
    obtain ⟨hfresh1, hruns1, h1⟩ := openDatagram_opening hfresh h hd
      ((hpeer d List.mem_cons_self).symm ▸ ht)
    simp only [openDatagrams]
    split
    · exact ⟨hfresh1, hruns1, by simp⟩
    · next hok =>
      rw [hfresh.datagrams, ← hfresh1.datagrams] at hs
      obtain ⟨hfresh2, hruns2, h2⟩ := ih (fun e he => hpeer e (List.mem_cons_of_mem _ he)) hs
        hfresh1 (h1 (Bool.eq_false_iff.mpr hok))
      rw [List.length_cons, Nat.add_comm batch.length 1, ← Nat.add_assoc]
      exact ⟨hfresh2, hruns2.trans hruns1, h2⟩

/-- The whole burst is opened, and nothing is committed. -/
structure AllOpened (w : Tunnels E) (s : InboundBatchScratch E) : Prop where
  wf : s.plaintext.Wf
  len : s.plaintext.len = 0
  room : s.datagrams.length ≤ maxPackets
  length : s.opened.length = s.datagrams.length
  holds : ∀ j, Holds (OpenedAt E) w s j

theorem Opening.all (h : Opening w s k) (hk : s.datagrams.length ≤ k) : AllOpened w s where
  wf := h.wf
  len := h.len
  room := hk.trans h.room
  length := h.length
  holds j d hj := h.holds j ((List.getElem?_eq_some_iff.mp hj).1.trans_le hk) d hj

/-- Run lemma: opening every run opens the whole burst. -/
theorem openRuns_opening {start : ℕ} {ds : List WgDatagram} {runs : List InboundBatchRun}
    (hruns : Runs w.byPeer start ds runs) (hs : s.datagrams.drop start = ds)
    (hfresh : Fresh datagrams s) (h : Opening w s start) :
    ∃ s' failed, openRuns .quiet w s runs = some (w, s', failed) ∧
      Fresh datagrams s' ∧ s'.runs = s.runs ∧ (failed = false → AllOpened w s') := by
  induction hruns generalizing s with
  | nil start => exact ⟨s, false, rfl, hfresh, rfl, fun _ => h.all (List.drop_eq_nil_iff.mp hs)⟩
  | drop _ _ _ ih => exact ⟨s, true, rfl, hfresh, rfl, by simp⟩
  | @routed start tunnel _ batch rest _ ht hpeer _ ih =>
    obtain ⟨hfresh1, hruns1, h1⟩ := openDatagrams_opening ht hpeer ⟨rest, hs.symm⟩ hfresh h
    rw [openRuns, if_neg (by simp [Env.quiet]), slice_eq hs]
    by_cases hfail : (openDatagrams (w.arena tunnel) start s batch).2 = true
    · exact ⟨_, true, if_pos hfail, hfresh1, hruns1, by simp⟩
    · obtain ⟨s2, failed, heq, hfresh2, hruns2, h2⟩ := ih (by
        rw [hfresh1.datagrams, ← hfresh.datagrams]
        exact drop_add_length hs) hfresh1 (h1 (Bool.eq_false_iff.mpr hfail))
      exact ⟨s2, failed, (if_neg hfail).trans heq, hfresh2, hruns2.trans hruns1, h2⟩

theorem preflightRuns_quiet (s : InboundBatchScratch E) (w : Tunnels E)
    (runs : List InboundBatchRun) : ∃ scalarOnly, preflightRuns .quiet s w runs = some (w, scalarOnly) := by
  induction runs with
  | nil => exact ⟨false, rfl⟩
  | cons run runs ih =>
    cases run with
    | drop start stop => exact ⟨true, rfl⟩
    | routed run =>
      rw [preflightRuns, if_neg (by simp [Env.quiet])]
      dsimp only
      generalize List.any _ _ = scalar
      cases scalar with
      | true => exact ⟨true, rfl⟩
      | false => exact ih

/-- Undisturbed, a burst is either opened completely or left to the scalar path. -/
theorem openTunInboundBatch_quiet (w : Tunnels E) (s : InboundBatchScratch E)
    (datagrams : List WgDatagram) :
    ∃ s1, openTunInboundBatch .quiet w (s.load datagrams) = some (w, s1) ∧ Fresh datagrams s1 ∧
      (AllOpened w s1 ∧ s1.runs = buildInboundRuns w.byPeer 0 datagrams ∨
        datagrams ≠ [] ∧ s1.opened = [] ∧ s1.plaintext.len = 0) := by
  let s0 : InboundBatchScratch E :=
    { s.load datagrams with runs := buildInboundRuns w.byPeer 0 datagrams }
  obtain ⟨scalarOnly, hpre⟩ := preflightRuns_quiet s0 w s0.runs
  let n := datagrams.length
  let s1 : InboundBatchScratch E := { s0 with opened := [].take n ++ List.replicate (n - 0) none }
  have hstart : Opening w s1 0 := {
      wf := clear_wf _
      len := rfl
      reserved := rfl
      room := Nat.zero_le _
      length := by simp [s1, s0, n, load]
      holds := fun j hj => absurd hj (Nat.not_lt_zero j) }
  obtain ⟨s2, failed, hopen, hfresh, hruns, hall⟩ := openRuns_opening (runs_buildInboundRuns 0 datagrams) rfl
    (show Fresh datagrams s1 from ⟨rfl, rfl, rfl⟩) hstart
  have hrun : openTunInboundBatch .quiet w (s.load datagrams) =
      if scalarOnly then some (w, s0.abortOpened)
      else some (w, if failed then s2.giveUp else s2) := by
    unfold openTunInboundBatch
    rw [if_neg (by simp [Env.quiet])]
    change Option.bind (preflightRuns .quiet s0 w s0.runs) _ = _
    rw [hpre]
    cases scalarOnly with
    | true => rfl
    | false =>
      change Option.bind (openRuns .quiet w s1 s1.runs) _ = _
      rw [show s1.runs = buildInboundRuns w.byPeer 0 datagrams from rfl, hopen]
      rfl
  have hnil : datagrams = [] → s0.runs = [] := by
    rintro rfl
    exact buildInboundRuns.eq_1 _ _
  cases scalarOnly with
  | true =>
    refine ⟨_, hrun, ⟨rfl, rfl, rfl⟩, .inr ⟨fun hempty => ?_, rfl, rfl⟩⟩
    rw [hnil hempty] at hpre
    cases hpre
  | false =>
    cases failed with
    | true =>
      refine ⟨_, hrun, ⟨hfresh.datagrams, hfresh.peers, hfresh.generations⟩,
        .inr ⟨fun hempty => ?_, rfl, rfl⟩⟩
      rw [show buildInboundRuns w.byPeer 0 datagrams = [] from hnil hempty] at hopen
      cases hopen
    | false => exact ⟨_, hrun, hfresh, .inl ⟨hall rfl, hruns⟩⟩

end Rustscale.Inbound
