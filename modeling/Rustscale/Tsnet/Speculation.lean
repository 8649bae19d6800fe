import Rustscale.Tsnet.OpenBurst

/-! The pipelined path gives the packets that decapsulating one by one gives. -/
namespace Rustscale.Inbound
open Octets Tailcfg Wg List Option InboundBatchScratch Nat Received WgOpenedPacket

variable {E : Engine}

/-- A token that holds under the locks. -/
def ValidAt (E : Engine) (t : E.Tunn) (d : List Byte) (vendor : E.Opened) : Prop :=
  OpenedAt E t d vendor ∧ E.validateOpenedData t vendor = true

variable {w : Tunnels E} {s : InboundBatchScratch E} {k : ℕ} {t : WgTunn E}
  {agrees : E.Tunn → E.Tunn → E.Tunn → Prop} {tunnel : ℕ} {w0 : Tunnels E}
  {datagrams : List WgDatagram} {env : Env E} {w' : Tunnels E}

/-- Where the runs validate, every opened position is valid against its tunnel. -/
theorem holds_valid (h : ∀ j, Holds (OpenedAt E) w s j) {start : ℕ} {ds : List WgDatagram}
    {runs : List InboundBatchRun} (hruns : Runs w.byPeer start ds runs)
    (hs : s.datagrams.drop start = ds) (hvalid : validRuns w s runs = true) {j : ℕ}
    (hj : start ≤ j) : Holds (ValidAt E) w s j := by
  induction hruns with
  | nil start =>
    intro d hd
    have hle := drop_eq_nil_iff.mp hs
    have hlt := (List.getElem?_eq_some_iff.mp hd).1
    omega
  | drop => simp [validRuns] at hvalid
  | @routed start tunnel peer batch rest _ ht hpeer _ ih =>
    simp only [validRuns, all_cons, Bool.and_eq_true, Nat.add_sub_cancel_left] at hvalid
    by_cases hlt : j < start + batch.length
    · intro d hd
      obtain ⟨tunnel', vendor, hpeer', hopened, hat, hlends⟩ := h j d hd
      have hbatch : d ∈ batch := by
        have hget : (batch ++ rest)[j - start]? = some d := by
          rw [← hs, getElem?_drop, Nat.add_sub_cancel' hj, hd]
        rw [getElem?_append_left (by omega)] at hget
        exact mem_of_getElem? hget
      rw [hpeer d hbatch, ht] at hpeer'
      cases hpeer'
      have hj := all_eq_true.mp hvalid.1 j (mem_range'_1.mpr ⟨hj, hlt⟩)
      rw [hopened] at hj
      simp only [join_some, WgTunn.preflightOpened, Bool.and_eq_true] at hj
      exact ⟨tunnel, vendor, hpeer d hbatch ▸ ht, hopened, ⟨hat, hj.2⟩, hlends⟩
    · exact ih (drop_add_length hs) hvalid.2 (not_lt.mp hlt)

/-- While a burst is committed, what is still open stays valid. -/
structure Committing (w : Tunnels E) (s : InboundBatchScratch E) (k : ℕ) : Prop where
  wf : s.plaintext.Wf
  len : s.plaintext.len ≤ k
  holds : ∀ j, k ≤ j → Holds (ValidAt E) w s j

theorem Committing.mono (h : Committing w s k) (n : ℕ) : Committing w s (k + n) :=
  ⟨h.wf, h.len.trans (le_add_right k n), fun j hj => h.holds j ((le_add_right k n).trans hj)⟩

theorem commitOpened_ok {b : WgPlaintextBatch} {slot : ℕ} (h : b.Wf) (hlends : b.Lends slot)
    {vendor : E.Opened} {packet : Buffer} {len : Option ℕ}
    (hok : (E.commitOpenedData t.tunn vendor).1 = .ok (packet, len)) :
    t.commitOpened ⟨some vendor, slot, b.id, b.epoch, t.pipelineInstanceId⟩ b =
      (if len.isSome && (b.returnOpenSlot slot packet len).1 then .accepted else .dropped,
        { t with tunn := (E.commitOpenedData t.tunn vendor).2 },
        ⟨none, slot, b.id, b.epoch, t.pipelineInstanceId⟩, (b.returnOpenSlot slot packet len).2) := by
  have hfits : fits ⟨some vendor, slot, b.id, b.epoch, t.pipelineInstanceId⟩ b = true := by
    have hlt := hlends.1
    have hle := h.reserved
    simp only [fits, beq_self_eq_true, Bool.true_and, Bool.and_eq_true, decide_eq_true_eq]
    omega
  cases len <;> simp [WgTunn.commitOpened, hfits, hok]

/-- Step: committing one datagram is what the scalar engine would have done with it. -/
theorem commitDatagram_receives (hE : Speculates E agrees) {d : WgDatagram} (h : Committing w s k)
    (hd : s.datagrams[k]? = some d) (ht : w.byPeer d.peer = some tunnel) {scalar : E.Tunn}
    (hid : t.pipelineInstanceId = (w.arena tunnel).pipelineInstanceId)
    (hagrees : agrees (w.arena tunnel).tunn t.tunn scalar) :
    ∃ t' s', commitDatagram d.peer k t s d = some (t', s') ∧ Committing w s' (k + 1) ∧
      Receives s s' ((packetsOf scalar d.data).1.map (⟨d.peer, d.authorizationGeneration, ·⟩)) ∧
      t'.pipelineInstanceId = t.pipelineInstanceId ∧
      agrees (w.arena tunnel).tunn t'.tunn (packetsOf scalar d.data).2 ∧
      ∀ p ∈ (packetsOf scalar d.data).1, p.length ≤ maxWgMsg := by
  obtain ⟨tunnel', vendor, ht', hopened, ⟨hat, hvalid⟩, hlends⟩ := h.holds k le_rfl d hd
  rw [ht] at ht'
  cases ht'
  obtain ⟨buf, len, hcommit, hpackets, hagrees'⟩ := hE.commit _ _ _ _ _ hat hvalid hagrees
  rw [← hid] at hopened
  have heq := commitOpened_ok h.wf hlends hcommit
  have hkeeps := (commitOpened_keeps h.wf t
    ⟨some vendor, k, s.plaintext.id, s.plaintext.epoch, t.pipelineInstanceId⟩).1
  have hsmall := fun p => hE.fits scalar d.data p hat.1
  unfold commitDatagram
  rw [hopened]
  simp only [join_some]
  have hnext {s' : InboundBatchScratch E} (hd' : s'.datagrams = s.datagrams)
      (hlen : s'.plaintext.len ≤ k + 1) (hkeeps : s.plaintext.Keeps s'.plaintext k)
      {token : Option (WgOpenedPacket E)} (ho : s'.opened = s.opened.set k token) :
      Committing w s' (k + 1) :=
    ⟨hkeeps.wf, hlen, fun j hj => (h.holds j (by omega)).of_keeps (by omega) hkeeps hd' ho⟩
  cases len with
  | none =>
    obtain ⟨hlen, hinit⟩ := Slot.returnOpenSlot_dropped h.len buf
    rw [heq] at hkeeps ⊢
    refine ⟨_, _, rfl, hnext rfl (hlen.trans_le (h.len.trans (le_succ k))) hkeeps rfl, ?_, rfl,
      hagrees', hsmall⟩
    rw [hpackets]
    exact ⟨rfl, by simpa using hlen, by simpa using hinit, by simp, by simp⟩
  | some n =>
    obtain ⟨hinstalled, hlen, hinit⟩ := Slot.returnOpenSlot_accepted h.wf hlends h.len buf n
    simp only [isSome_some, hinstalled, Bool.and_self, if_true] at heq
    rw [heq] at hkeeps ⊢
    refine ⟨_, _, rfl, hnext rfl (hlen.trans_le (succ_le_succ h.len)) hkeeps rfl, ?_, rfl,
      hagrees', hsmall⟩
    rw [hpackets]
    exact ⟨rfl, by simpa using hlen, by simpa using hinit, by simp, by simp⟩

/-- Committing one run is what the scalar engine would have done with it. -/
theorem commitDatagrams_receives (hE : Speculates E agrees) {peer : PublicKey}
    (ht : w.byPeer peer = some tunnel) {batch : List WgDatagram} {scalar : E.Tunn}
    (hpeer : ∀ d ∈ batch, d.peer = peer) (hs : batch <+: s.datagrams.drop k)
    (h : Committing w s k) (hid : t.pipelineInstanceId = (w.arena tunnel).pipelineInstanceId)
    (hagrees : agrees (w.arena tunnel).tunn t.tunn scalar) :
    ∃ t' s', commitDatagrams peer k t s batch = some (t', s') ∧
      Committing w s' (k + batch.length) ∧ Receives s s' (receiveFrom scalar batch).1 ∧
      t'.pipelineInstanceId = t.pipelineInstanceId ∧
      agrees (w.arena tunnel).tunn t'.tunn (receiveFrom scalar batch).2 ∧
      ∀ r ∈ (receiveFrom scalar batch).1, r.packet.length ≤ maxWgMsg := by
  induction batch generalizing k s t scalar with
  | nil => exact ⟨t, s, rfl, h, .refl s, rfl, hagrees, by simp [receiveFrom]⟩
  | cons d batch ih =>
    obtain ⟨hd, hs⟩ := cons_isPrefix_drop hs
    obtain ⟨t1, s1, hs1, h1, hrecv1, hid1, hagrees1, hsmall1⟩ := commitDatagram_receives hE h hd
      ((hpeer d mem_cons_self).symm ▸ ht) hid hagrees
    obtain ⟨t2, s2, hs2, h2, hrecv2, hid2, hagrees2, hsmall2⟩ :=
      ih (fun e he => hpeer e (mem_cons_of_mem _ he)) (hrecv1.datagrams ▸ hs) h1 (hid1.trans hid)
        hagrees1
    refine ⟨t2, s2, ?_, ?_, hrecv1.trans hrecv2, hid2.trans hid1, hagrees2, ?_⟩
    · rw [hpeer d mem_cons_self] at hs1
      simp [commitDatagrams, hs1, hs2]
    · rw [length_cons, add_comm batch.length 1, ← add_assoc]
      exact h2
    · intro r hr
      rcases mem_append.mp hr with hr | hr
      · obtain ⟨p, hp, rfl⟩ := mem_map.mp hr
        exact hsmall1 p hp
      · exact hsmall2 r hr

/-- The tunnels where tokens were opened, after some commits, and one by one. -/
structure AgreeTunnels (agrees : E.Tunn → E.Tunn → E.Tunn → Prop) (w0 w scalar : Tunnels E) :
    Prop where
  byPeer : scalar.byPeer = w0.byPeer
  id : ∀ i, (w.arena i).pipelineInstanceId = (w0.arena i).pipelineInstanceId
  agrees : ∀ i, agrees (w0.arena i).tunn (w.arena i).tunn (scalar.arena i).tunn

theorem AgreeTunnels.put {scalar : Tunnels E} (h : AgreeTunnels agrees w0 w scalar) (t' : WgTunn E)
    (hid : t.pipelineInstanceId = (w0.arena tunnel).pipelineInstanceId)
    (hagrees : agrees (w0.arena tunnel).tunn t.tunn t'.tunn) :
    AgreeTunnels agrees w0 (w.put tunnel t) (scalar.put tunnel t') where
  byPeer := h.byPeer
  id i := by
    rcases eq_or_ne i tunnel with rfl | hne
    · simpa using hid
    · simpa [Tunnels.put, hne] using h.id i
  agrees i := by
    rcases eq_or_ne i tunnel with rfl | hne
    · simpa using hagrees
    · simpa [Tunnels.put, hne] using h.agrees i

/-- Run lemma: committing a burst is what the scalar engines would have done with it. -/
theorem commitRuns_receives (hE : Speculates E agrees) {start : ℕ} {ds : List WgDatagram}
    {runs : List InboundBatchRun} (hruns : Runs w0.byPeer start ds runs) {scalar : Tunnels E}
    (hs : s.datagrams.drop start = ds) (hle : start ≤ s.datagrams.length)
    (h : Committing w0 s start) (hagree : AgreeTunnels agrees w0 w scalar) :
    ∃ w' s', commitRuns w s runs = some (w', s') ∧
      Receives s s' (receive scalar ds) ∧ s'.plaintext.len ≤ s.datagrams.length ∧
      ∀ r ∈ receive scalar ds, r.packet.length ≤ maxWgMsg := by
  induction hruns generalizing w scalar s with
  | nil start => exact ⟨w, s, rfl, .refl s, h.len.trans hle, by simp [receive]⟩
  | drop ht hpeer _ ih =>
    rw [receive_append_of_none (hagree.byPeer ▸ ht) hpeer]
    exact ih (drop_add_length hs) (add_length_le hs hle) (h.mono _) hagree
  | @routed start tunnel _ batch rest _ ht hpeer _ ih =>
    rw [receive_append_of_some hpeer rest (hagree.byPeer ▸ ht)]
    obtain ⟨t, s1, hs1, h1, hrecv1, hid1, hagrees1, hsmall1⟩ := commitDatagrams_receives hE ht hpeer
      ⟨rest, hs.symm⟩ h (hagree.id tunnel) (hagree.agrees tunnel)
    obtain ⟨w2, s2, hs2, hrecv2, hlen2, hsmall2⟩ := ih (hrecv1.datagrams ▸ drop_add_length hs)
      (hrecv1.datagrams ▸ add_length_le hs hle) h1
      (hagree.put { scalar.arena tunnel with tunn := (receiveFrom (scalar.arena tunnel).tunn batch).2 }
        (hid1.trans (hagree.id tunnel)) hagrees1)
    refine ⟨w2, s2, ?_, hrecv1.trans hrecv2, hrecv1.datagrams ▸ hlen2, ?_⟩
    · rw [commitRuns, slice_eq hs, hs1]
      exact hs2
    · intro r hr
      exact (mem_append.mp hr).elim (hsmall1 r) (hsmall2 r)

theorem lockRuns_quiet (w : Tunnels E) (runs : List InboundBatchRun) :
    ∃ locked, lockRuns .quiet w runs = some (w, locked) := by
  induction runs with
  | nil => exact ⟨true, rfl⟩
  | cons run runs ih =>
    cases run with
    | drop start stop => exact ⟨false, rfl⟩
    | routed run => exact ih

theorem alike_load {s1 : InboundBatchScratch E} (h : Fresh datagrams s1)
    (hlen : s1.plaintext.len = 0) (s : InboundBatchScratch E) :
    Alike s1 (s.load datagrams) where
  datagrams := h.datagrams
  plaintext := {
    len := hlen
    packets := by simp [WgPlaintextBatch.initialized, hlen, load, clear, WgPlaintextBatch.clear]
    dense := hlen.le.trans (zero_le _)
    dense' := zero_le _ }
  peers := h.peers
  generations := h.generations

theorem commit_receives (hE : Speculates E agrees) (hopened : AllOpened w s)
    (hruns : s.runs = buildInboundRuns w.byPeer 0 s.datagrams)
    (hvalid : validRuns w s s.runs = true) :
    ∃ w' s', commitRuns w s s.runs = some (w', s') ∧ Receives s s' (receive w s.datagrams) ∧
      Room 0 ((receive w s.datagrams).map packet) := by
  rw [hruns] at hvalid ⊢
  have hagree : AgreeTunnels agrees w w w := ⟨rfl, fun _ => rfl, fun _ => hE.start _⟩
  obtain ⟨w', s', hs', hrecv, hlen, hsmall⟩ := commitRuns_receives hE
    (runs_buildInboundRuns 0 s.datagrams) rfl (zero_le _) ⟨hopened.wf, hopened.len.le, fun j hj =>
      holds_valid hopened.holds (runs_buildInboundRuns 0 _) rfl hvalid hj⟩ hagree
  refine ⟨w', s', hs', hrecv, fun p hp => ?_, ?_⟩
  · obtain ⟨r, hr, rfl⟩ := mem_map.mp hp
    exact hsmall r hr
  · have hroom := hopened.room
    have hcount := hrecv.len
    rw [length_map]
    omega

/-- What a scratch has delivered. -/
structure Gives (s : InboundBatchScratch E) (out : List Received) : Prop where
  packets : s.plaintext.initialized = out.map packet
  peers : s.plaintextPeers = out.map peer
  generations : s.plaintextGenerations = out.map generation

/-- Two scratches have delivered the same. -/
structure SameReceived (s s' : InboundBatchScratch E) : Prop where
  packets : s.plaintext.initialized = s'.plaintext.initialized
  peers : s.plaintextPeers = s'.plaintextPeers
  generations : s.plaintextGenerations = s'.plaintextGenerations

theorem Receives.gives {s' : InboundBatchScratch E} {out : List Received} (h : Receives s s' out)
    (hfresh : Fresh datagrams s) (hlen : s.plaintext.len = 0) : Gives s' out where
  packets := by simpa [WgPlaintextBatch.initialized, hlen] using h.packets
  peers := by simpa [hfresh.peers] using h.peers
  generations := by simpa [hfresh.generations] using h.generations

/-- Tunnels that only others have changed. -/
def Interfered (env : Env E) (w w' : Tunnels E) : Prop :=
  ∃ moments : List Moment, w' = moments.foldl (fun w moment => env.interfere moment w) w

theorem Interfered.refl (env : Env E) (w : Tunnels E) : Interfered env w w := ⟨[], rfl⟩

theorem Interfered.head {moment : Moment} (h : Interfered env (env.interfere moment w) w') :
    Interfered env w w' := by
  obtain ⟨moments, rfl⟩ := h
  exact ⟨moment :: moments, rfl⟩

theorem Interfered.trans {w'' : Tunnels E} (h : Interfered env w w') (h' : Interfered env w' w'') :
    Interfered env w w'' := by
  obtain ⟨moments, rfl⟩ := h
  obtain ⟨moments', rfl⟩ := h'
  exact ⟨moments ++ moments', by rw [foldl_append]⟩

section
variable {s' : InboundBatchScratch E} {runs : List InboundBatchRun}

theorem lockRuns_interfered {locked : Bool} (h : lockRuns env w runs = some (w', locked)) :
    Interfered env w w' := by
  fun_induction lockRuns env w runs with
  | case1 | case2 => cases h; exact .refl env _
  | case3 => cases h
  | case4 _ _ _ _ ih => exact (ih h).head

theorem preflightRuns_interfered {scalarOnly : Bool}
    (h : preflightRuns env s w runs = some (w', scalarOnly)) : Interfered env w w' := by
  fun_induction preflightRuns env s w runs with
  | case1 | case2 => cases h; exact .refl env _
  | case3 => cases h
  | case4 => exact (Prod.mk.inj (some.inj h)).1 ▸ (Interfered.refl env _).head
  | case5 _ _ _ _ _ _ ih => exact (ih h).head

theorem openRuns_interfered {failed : Bool} (h : openRuns env w s runs = some (w', s', failed)) :
    Interfered env w w' := by
  fun_induction openRuns env w s runs with
  | case1 | case2 => cases h; exact .refl env _
  | case3 => cases h
  | case4 => exact (Prod.mk.inj (some.inj h)).1 ▸ (Interfered.refl env _).head
  | case5 _ _ _ _ _ _ _ _ _ _ ih => exact (ih h).head

theorem openTunInboundBatch_interfered
    (h : openTunInboundBatch env w s = some (w', s')) : Interfered env w w' := by
  unfold openTunInboundBatch at h
  split_ifs at h
  simp only [bind_eq_bind, bind_eq_some_iff, Prod.exists] at h
  obtain ⟨w1, scalarOnly, hpre, h⟩ := h
  have hpre := (preflightRuns_interfered hpre).head
  split_ifs at h
  · cases h
    exact hpre
  · simp only [bind_eq_some_iff, Prod.exists] at h
    obtain ⟨w2, s2, failed, hopen, hend⟩ := h
    have hopen := openRuns_interfered hopen
    cases hend
    exact hpre.trans hopen

/-- Before it takes the scalar path, the pump does not change a tunnel. -/
theorem commitOrScalar_fallback
    (hc : isCommitted env w s = false) (h : commitOrScalarTunInboundBatch env w s = some (w', s')) :
    ∃ w1 s1, Interfered env w w1 ∧ s1.datagrams = s.datagrams ∧
      collectTunInboundBatch env w1 s1 = some (w', s') := by
  unfold commitOrScalarTunInboundBatch at h
  unfold isCommitted at hc
  by_cases hlen : s.opened.length = s.datagrams.length
  · rw [if_neg (not_not.mpr hlen)] at h
    simp only [bind_eq_bind, bind_eq_some_iff, Prod.exists] at h
    obtain ⟨w1, locked, hl, h⟩ := h
    simp only [hlen, hl, beq_self_eq_true, Bool.true_and] at hc
    rw [if_neg (by simp [hc])] at h
    exact ⟨w1, s.giveUp, lockRuns_interfered hl, rfl, h⟩
  · rw [if_pos hlen] at h
    exact ⟨w, s, .refl env w, rfl, h⟩

end

/-- The pipelined and the scalar path deliver the same packets from the same burst. -/
theorem pipelined_sameReceived (hE : Speculates E agrees) (w : Tunnels E)
    (s : InboundBatchScratch E) (datagrams : List WgDatagram) :
    ∃ s1 w2 s2 w3 s3, openTunInboundBatch .quiet w (s.load datagrams) = some (w, s1) ∧
      commitOrScalarTunInboundBatch .quiet w s1 = some (w2, s2) ∧
      collectTunInboundBatch .quiet w (s.load datagrams) = some (w3, s3) ∧ SameReceived s2 s3 ∧
      (isCommitted .quiet w s1 = true → Gives s2 (receive w datagrams)) := by
  obtain ⟨s1, hopen, hfresh, hcases⟩ := openTunInboundBatch_quiet w s datagrams
  refine ⟨s1, ?_⟩
  have hfallback (s1' : InboundBatchScratch E) (hf : Fresh datagrams s1')
      (hl : s1'.plaintext.len = 0) :
      ∃ w2 s2 s3, collectTunInboundBatch .quiet w s1' = some (w2, s2) ∧
        collectTunInboundBatch .quiet w (s.load datagrams) = some (w2, s3) ∧ SameReceived s2 s3 := by
    obtain ⟨w2, s2, s3, h2, h3, halike⟩ := collectTunInboundBatch_alike w (alike_load hf hl s)
    exact ⟨w2, s2, s3, h2, h3, halike.plaintext.packets, halike.peers, halike.generations⟩
  have hlen : s1.plaintext.len = 0 := hcases.elim (·.1.len) (·.2.2)
  obtain ⟨locked, hlock⟩ := lockRuns_quiet w s1.runs
  by_cases hc : isCommitted .quiet w s1 = true
  · have hc' := hc
    simp only [isCommitted, hlock, commits, Bool.and_eq_true, beq_iff_eq] at hc'
    obtain ⟨hcount, hlocked, hvalid⟩ := hc'
    rcases hcases with ⟨hall, hruns⟩ | ⟨hne, hempty, -⟩
    · rw [← hfresh.datagrams] at hruns
      obtain ⟨w2, s2, hs2, hrecv, hroom⟩ := commit_receives hE hall hruns hvalid
      rw [hfresh.datagrams] at hrecv hroom
      obtain ⟨w3, s3, hs3, hrecv3⟩ := collectTunInboundBatch_receives w (s := s.load datagrams)
        (zero_le _) hroom
      have hgives := hrecv.gives hfresh hlen
      have hgives3 : Gives s3 (receive w datagrams) :=
        hrecv3.gives (show Fresh datagrams (s.load datagrams) from ⟨rfl, rfl, rfl⟩) rfl
      refine ⟨w2, { s2 with runs := [], opened := [] }, w3, s3, hopen, ?_, hs3, ?_, fun _ => ?_⟩
      · rw [commitOrScalarTunInboundBatch, if_neg (not_not.mpr hcount), hlock]
        simp only [bind_eq_bind, bind_some, commits, hlocked, hvalid, Bool.and_self, if_true, hs2]
        rfl
      · exact ⟨hgives.packets.trans hgives3.packets.symm, hgives.peers.trans hgives3.peers.symm,
          hgives.generations.trans hgives3.generations.symm⟩
      · exact ⟨hgives.packets, hgives.peers, hgives.generations⟩
    · rw [hempty, hfresh.datagrams] at hcount
      exact absurd (length_eq_zero_iff.mp hcount.symm) hne
  · by_cases hcount : s1.opened.length = s1.datagrams.length
    · have hc' : commits w s1 locked = false := by
        simpa [isCommitted, hlock, hcount] using hc
      obtain ⟨w2, s2, s3, h2, h3, hsame⟩ := hfallback s1.giveUp
        ⟨hfresh.datagrams, hfresh.peers, hfresh.generations⟩ rfl
      refine ⟨w2, s2, w2, s3, hopen, ?_, h3, hsame, fun h => absurd h hc⟩
      rw [commitOrScalarTunInboundBatch, if_neg (not_not.mpr hcount), hlock]
      simp only [hc', bind_eq_bind, bind_some]
      exact h2
    · obtain ⟨w2, s2, s3, h2, h3, hsame⟩ := hfallback s1 hfresh hlen
      refine ⟨w2, s2, w2, s3, hopen, ?_, h3, hsame, fun h => absurd h hc⟩
      rw [commitOrScalarTunInboundBatch, if_pos hcount]
      exact h2

/-- If no tunnel changes meanwhile, the pipelined path gives the packets of the scalar path, with
the same peers and generations; a burst that it commits gives those of its datagrams one by one.
Whatever others do, neither opening nor a commit that falls back changes a tunnel, and tokens never
share a slot. -/
theorem speculative_eq_scalar {agrees : E.Tunn → E.Tunn → E.Tunn → Prop} (hE : Speculates E agrees) :
    (∀ (w : Tunnels E) (s : InboundBatchScratch E) (datagrams : List WgDatagram),
      ∃ s1 w2 s2 w3 s3, openTunInboundBatch .quiet w (s.load datagrams) = some (w, s1) ∧
        commitOrScalarTunInboundBatch .quiet w s1 = some (w2, s2) ∧
        collectTunInboundBatch .quiet w (s.load datagrams) = some (w3, s3) ∧ SameReceived s2 s3 ∧
        (isCommitted .quiet w s1 = true → Gives s2 (receive w datagrams))) ∧
    (∀ (env : Env E) (w w' : Tunnels E) (s s' : InboundBatchScratch E),
      (openTunInboundBatch env w s = some (w', s') → Interfered env w w') ∧
      (isCommitted env w s = false → commitOrScalarTunInboundBatch env w s = some (w', s') →
        ∃ w1 s1, Interfered env w w1 ∧ s1.datagrams = s.datagrams ∧
          collectTunInboundBatch env w1 s1 = some (w', s'))) ∧
    ∀ (b : WgPlaintextBatch) (ops : List (SlotOp E)),
      (ops.foldl Lending.step ⟨b.clear, []⟩).Distinct :=
  ⟨pipelined_sameReceived hE, fun _ _ _ _ _ => ⟨openTunInboundBatch_interfered,
    commitOrScalar_fallback⟩, Lending.run_distinct⟩

theorem plain_drainPackets (t : plain.Tunn) : drainPackets t = ([], t) := by
  rw [drainPackets]
  rfl

def plainPackets (t : List Byte) : List Byte → List (List Byte) × List Byte
  | [] => ([], t)
  | n :: body => if n ∈ t then ([], t) else (if body = [] then [] else [body], n :: t)

theorem plain_packetsOf (t : plain.Tunn) (d : List Byte) : packetsOf t d = plainPackets t d := by
  change List Byte at t
  rcases d with _ | ⟨n, body⟩
  · rfl
  by_cases hn : n ∈ t
  · have h : plain.decapsulate t (n :: body) = (.err, t) := if_pos hn
    simp only [packetsOf, h, plainPackets, if_pos hn]
    rfl
  by_cases hbody : body = []
  · have h : plain.decapsulate t (n :: body) = (.done, (n :: t : List Byte)) := by
      simp [plain, hn, hbody]
    simp only [packetsOf, h, plainPackets, if_neg hn, if_pos hbody]
    rfl
  · have h : plain.decapsulate t (n :: body) = (.writeToTunnel body, (n :: t : List Byte)) := by
      simp [plain, hn, hbody]
    have hdrain : drainPackets (E := plain) (n :: t : List Byte) = ([], (n :: t : List Byte)) :=
      plain_drainPackets _
    simp only [packetsOf, h, hdrain, plainPackets, if_neg hn, if_neg hbody]
    rfl

theorem plain_speculates : Speculates plain (fun _ t t' => t = t') where
  start _ := rfl
  commit t0 t t' d vendor hat hvalid hagrees := by
    obtain rfl : t = t' := hagrees
    obtain ⟨-, prepared, buf, -, hopen⟩ := hat
    rcases d with _ | ⟨n, body⟩
    · cases hopen
    simp only [plain] at hopen
    split_ifs at hopen with hn
    cases hopen
    subst hn
    rw [plain_packetsOf]
    change List Byte at t
    by_cases htaken : n ∈ t
    · have hcommit : plain.commitOpenedData t (n, body) = (.ok (some body, none), t) := if_pos htaken
      have hpackets : plainPackets t (n :: body) = ([], t) := if_pos htaken
      rw [hcommit, hpackets]
      exact ⟨_, _, rfl, rfl, rfl⟩
    · have hcommit : plain.commitOpenedData t (n, body) =
          (.ok (some body, if body = [] then none else some body.length), (n :: t : List Byte)) :=
        if_neg htaken
      have hpackets : plainPackets t (n :: body) = (if body = [] then [] else [body], n :: t) :=
        if_neg htaken
      rw [hcommit, hpackets]
      refine ⟨_, _, rfl, ?_, rfl⟩
      split <;> simp [Buffer.truncate, Buffer.bytes]
  fits t d p hsmall hp := by
    have hlen : p.length ≤ d.length := by
      rw [plain_packetsOf] at hp
      rcases d with _ | ⟨n, body⟩
      · cases hp
      simp only [plainPackets] at hp
      split_ifs at hp <;> simp at hp
      simp [hp]
    simp only [maxPipelinedEncryptedBody, maxWgMsg] at *
    omega

/-- A datagram that comes twice in a burst is received once. -/
theorem speculative_eq_scalar_twice : Speculates plain (fun _ t t' => t = t') ∧
    receive (plainTunnels []) [fromDirect [7, 1], fromDirect [7, 1]] = [⟨1, 0, [1]⟩] ∧
    ∃ s1 w2 s2 w3 s3, openTunInboundBatch .quiet (plainTunnels [])
        ((new 0).load [fromDirect [7, 1], fromDirect [7, 1]]) = some (plainTunnels [], s1) ∧
      commitOrScalarTunInboundBatch .quiet (plainTunnels []) s1 = some (w2, s2) ∧
      collectTunInboundBatch .quiet (plainTunnels [])
        ((new 0).load [fromDirect [7, 1], fromDirect [7, 1]]) = some (w3, s3) ∧
      SameReceived s2 s3 ∧
      (isCommitted .quiet (plainTunnels []) s1 = true →
        Gives s2 (receive (plainTunnels []) [fromDirect [7, 1], fromDirect [7, 1]])) := by
  refine ⟨plain_speculates, ?_, (speculative_eq_scalar plain_speculates).1 (plainTunnels []) (.new 0)
    [fromDirect [7, 1], fromDirect [7, 1]]⟩
  simp only [receive, receiveFrom, plain_packetsOf]
  decide

end Rustscale.Inbound
