import Rustscale.Tsnet.PathEvidence
import Rustscale.Wg.Slots

/-! What decapsulating a burst one by one gives, and the scalar receive path. -/
namespace Rustscale.Inbound
open Octets Tailcfg Wg List InboundBatchScratch

variable {E : Engine}

def drainPackets (t : E.Tunn) : List (List Byte) × E.Tunn :=
  match _ : (E.decapsulate t []).1 with
  | .writeToNetwork _ => drainPackets (E.decapsulate t []).2
  | .writeToTunnel buf =>
    (buf :: (drainPackets (E.decapsulate t []).2).1, (drainPackets (E.decapsulate t []).2).2)
  | .done => ([], (E.decapsulate t []).2)
  | .err => ([], (E.decapsulate t []).2)
termination_by E.pending t
decreasing_by all_goals exact E.pending_decapsulate t (by rw [‹(E.decapsulate t []).1 = _›]; rfl)

variable (t : E.Tunn)

def packetsOf (d : List Byte) : List (List Byte) × E.Tunn :=
  match (E.decapsulate t d).1 with
  | .writeToNetwork _ => drainPackets (E.decapsulate t d).2
  | .writeToTunnel buf =>
    (buf :: (drainPackets (E.decapsulate t d).2).1, (drainPackets (E.decapsulate t d).2).2)
  | .done => ([], (E.decapsulate t d).2)
  | .err => ([], (E.decapsulate t d).2)

/-- A packet that was delivered, with the peer and its authorization. -/
structure Received where
  peer : PublicKey
  generation : ℕ
  packet : List Byte
  deriving DecidableEq

def receiveFrom (t : E.Tunn) : List WgDatagram → List Received × E.Tunn
  | [] => ([], t)
  | d :: ds =>
    ((packetsOf t d.data).1.map (⟨d.peer, d.authorizationGeneration, ·⟩) ++
      (receiveFrom (packetsOf t d.data).2 ds).1, (receiveFrom (packetsOf t d.data).2 ds).2)

/-- The packets of a burst; a datagram whose peer has no tunnel is ignored. -/
def receive (w : Tunnels E) : List WgDatagram → List Received
  | [] => []
  | d :: ds =>
    match w.byPeer d.peer with
    | none => receive w ds
    | some tunnel =>
      let t := w.arena tunnel
      (receiveFrom t.tunn [d]).1 ++
        receive (w.put tunnel { t with tunn := (receiveFrom t.tunn [d]).2 }) ds

variable (w : Tunnels E)

@[simp] theorem Tunnels.put_self (tunnel : ℕ) : w.put tunnel (w.arena tunnel) = w := by
  simp [Tunnels.put]

@[simp] theorem Tunnels.arena_put (tunnel : ℕ) (t : WgTunn E) :
    (w.put tunnel t).arena tunnel = t := by
  simp [Tunnels.put]

variable {peer : PublicKey} {batch : List WgDatagram} {tunnels : PublicKey → Option ℕ}
  {s : InboundBatchScratch E} {start : ℕ} {rest datagrams : List WgDatagram} {qs : List (List Byte)}
  {b b' : WgPlaintextBatch} {d : WgDatagram} {s' : InboundBatchScratch E}

theorem receive_append_of_none {w : Tunnels E} (h : w.byPeer peer = none)
    (hb : ∀ d ∈ batch, d.peer = peer) (rest : List WgDatagram) :
    receive w (batch ++ rest) = receive w rest := by
  induction batch with
  | nil => rfl
  | cons d batch ih =>
    rw [cons_append, receive, hb d mem_cons_self, h]
    exact ih fun e he => hb e (mem_cons_of_mem _ he)

theorem receive_append_of_some {tunnel : ℕ} (hb : ∀ d ∈ batch, d.peer = peer)
    (rest : List WgDatagram) {w : Tunnels E} (h : w.byPeer peer = some tunnel) :
    receive w (batch ++ rest) = (receiveFrom (w.arena tunnel).tunn batch).1 ++
      receive (w.put tunnel { w.arena tunnel with
        tunn := (receiveFrom (w.arena tunnel).tunn batch).2 }) rest := by
  induction batch generalizing w with
  | nil => exact congrArg (receive · rest) (w.put_self tunnel).symm
  | cons d batch ih =>
    rw [cons_append, receive, hb d mem_cons_self, h]
    dsimp only
    rw [ih (fun e he => hb e (mem_cons_of_mem _ he)) (w := w.put tunnel _) h]
    simp [receiveFrom, Tunnels.put]

theorem InboundBatchScratch.slice_eq (h : s.datagrams.drop start = batch ++ rest) (peer : PublicKey)
    (tunnel : ℕ) : s.slice ⟨peer, tunnel, start, start + batch.length⟩ = batch := by
  simp [slice, h]

theorem drop_add_length (h : datagrams.drop start = batch ++ rest) :
    datagrams.drop (start + batch.length) = rest := by
  rw [← drop_drop, h, drop_left]

theorem add_length_le (h : datagrams.drop start = batch ++ rest) (hle : start ≤ datagrams.length) :
    start + batch.length ≤ datagrams.length := by
  have hlen := congrArg length h
  rw [length_drop, length_append] at hlen
  omega

/-- A step that appends packets to a batch. -/
structure Receives (s s' : InboundBatchScratch E) (out : List Received) : Prop where
  datagrams : s'.datagrams = s.datagrams
  len : s'.plaintext.len = s.plaintext.len + out.length
  packets : s'.plaintext.initialized = s.plaintext.initialized ++ out.map Received.packet
  peers : s'.plaintextPeers = s.plaintextPeers ++ out.map Received.peer
  generations : s'.plaintextGenerations = s.plaintextGenerations ++ out.map Received.generation

section
variable {s s' s'' : InboundBatchScratch E} {out out' : List Received}

theorem Receives.refl (s : InboundBatchScratch E) : Receives s s [] :=
  ⟨rfl, rfl, by simp, by simp, by simp⟩

theorem Receives.trans (h : Receives s s' out) (h' : Receives s' s'' out') :
    Receives s s'' (out ++ out') where
  datagrams := h'.datagrams.trans h.datagrams
  len := by rw [h'.len, h.len, length_append, Nat.add_assoc]
  packets := by rw [h'.packets, h.packets, map_append, append_assoc]
  peers := by rw [h'.peers, h.peers, map_append, append_assoc]
  generations := by rw [h'.generations, h.generations, map_append, append_assoc]

end

def Dense (b : WgPlaintextBatch) : Prop := b.len ≤ b.packets.length

theorem bytes_copyFrom (buf : Buffer) (packet : List Byte) : (buf.copyFrom packet).bytes = packet := by
  unfold Buffer.copyFrom Buffer.grown
  split
  · next h => exact (length_eq_zero_iff.mp h.2).symm
  · rfl

/-- Whether a copy is refused depends on its size and the batch's length only. -/
theorem pushCopy_cases (packet : List Byte) (n : ℕ) :
    (∃ e, (maxWgMsg < packet.length ∨ n = maxPackets) ∧
      ∀ b : WgPlaintextBatch, b.len = n → b.pushCopy packet = .error e) ∨
    ∀ b : WgPlaintextBatch, b.len = n → Dense b → ∃ b', b.pushCopy packet = .ok b' ∧
      b'.len = n + 1 ∧ b'.initialized = b.initialized ++ [packet] ∧ Dense b' := by
  by_cases hlarge : maxWgMsg < packet.length
  · exact .inl ⟨_, .inl hlarge, fun b _ => if_pos hlarge⟩
  by_cases hfull : n = maxPackets
  · exact .inl ⟨_, .inr hfull, fun b hb => by
      rw [WgPlaintextBatch.pushCopy, if_neg hlarge, if_pos (hb.trans hfull)]⟩
  refine .inr fun b hb hdense => ?_
  refine ⟨_, by rw [WgPlaintextBatch.pushCopy, if_neg hlarge, if_neg (hb ▸ hfull)], by rw [hb], ?_, ?_⟩
  · have hlt := WgPlaintextBatch.lt_length_extended hdense
    simp only [WgPlaintextBatch.initialized]
    rw [take_add_one, map_append, take_set_of_le le_rfl, getElem?_set_self hlt]
    congr 1
    · rw [WgPlaintextBatch.take_extended hdense]
    · simp [bytes_copyFrom]
  · have hlt := WgPlaintextBatch.lt_length_extended hdense
    simpa [Dense] using hlt

def Room (n : ℕ) (packets : List (List Byte)) : Prop :=
  (∀ p ∈ packets, p.length ≤ maxWgMsg) ∧ n + packets.length ≤ maxPackets

theorem Room.append {n : ℕ} (ps : List (List Byte)) (h : Room n (ps ++ qs)) :
    Room n ps ∧ Room (n + ps.length) qs := by
  obtain ⟨hsmall, hlen⟩ := h
  rw [length_append] at hlen
  exact ⟨⟨fun p hp => hsmall p (mem_append_left _ hp), by omega⟩,
    fun p hp => hsmall p (mem_append_right _ hp), by omega⟩

/-- A batch that has got more packets. -/
structure Copies (b b' : WgPlaintextBatch) (packets : List (List Byte)) : Prop where
  len : b'.len = b.len + packets.length
  initialized : b'.initialized = b.initialized ++ packets
  dense : Dense b'

theorem Copies.refl (h : Dense b) : Copies b b [] := ⟨rfl, by simp, h⟩

theorem Copies.trans {b'' : WgPlaintextBatch} {ps : List (List Byte)} (h : Copies b b' ps)
    (h' : Copies b' b'' qs) : Copies b b'' (ps ++ qs) :=
  ⟨by rw [h'.len, h.len, length_append, Nat.add_assoc],
    by rw [h'.initialized, h.initialized, append_assoc], h'.dense⟩

theorem pushCopy_of_room (hb : Dense b) {p : List Byte} (h : Room b.len [p]) :
    ∃ b', b.pushCopy p = .ok b' ∧ Copies b b' [p] := by
  rcases pushCopy_cases p b.len with ⟨e, hcause, -⟩ | hok
  · have hsmall := h.1 p (mem_singleton_self p)
    have hlen := h.2
    rw [length_singleton] at hlen
    omega
  · obtain ⟨b', hpush, hlen, hinit, hdense⟩ := hok b rfl hb
    exact ⟨b', hpush, hlen, hinit, hdense⟩

/-- With room left, draining copies exactly the packets the engine returns. -/
theorem drainInto_packets (b : WgPlaintextBatch) (replies : List (List Byte)) (hb : Dense b)
    (h : Room b.len (drainPackets t).1) :
    ∃ replies' b', drainInto t b replies = (.ok replies', (drainPackets t).2, b') ∧
      Copies b b' (drainPackets t).1 := by
  fun_induction drainInto t b replies with
  | case1 t b replies buf ha ih =>
    rw [drainPackets, ha] at h ⊢
    exact ih hb h
  | case2 t b replies buf ha e hpush =>
    rw [drainPackets, ha] at h
    obtain ⟨b', hpush', -⟩ := pushCopy_of_room hb (Room.append [buf] h).1
    rw [hpush] at hpush'
    cases hpush'
  | case3 t b replies buf ha b' hpush ih =>
    rw [drainPackets, ha] at h ⊢
    obtain ⟨hbuf, hrest⟩ := Room.append [buf] h
    obtain ⟨b1, hpush', hcopy⟩ := pushCopy_of_room hb hbuf
    rw [hpush] at hpush'
    cases hpush'
    rw [← hcopy.len] at hrest
    obtain ⟨replies', b2, hdrain, hcopies⟩ := ih hcopy.dense hrest
    exact ⟨replies', b2, hdrain, hcopy.trans hcopies⟩
  | case4 t b replies ha | case5 t b replies ha =>
    rw [drainPackets, ha]
    exact ⟨replies, b, rfl, .refl hb⟩

theorem decapsulateInto_packets (t : WgTunn E) (d : List Byte) (hb : Dense b)
    (h : Room b.len (packetsOf t.tunn d).1) :
    ∃ replies b', t.decapsulateInto d b =
      (.ok replies, { t with tunn := (packetsOf t.tunn d).2 }, b') ∧
      Copies b b' (packetsOf t.tunn d).1 := by
  unfold WgTunn.decapsulateInto
  unfold packetsOf at h ⊢
  cases ha : (E.decapsulate t.tunn d).1 with
  | done | err => exact ⟨[], b, by simp [ha], .refl hb⟩
  | writeToNetwork buf =>
    rw [ha] at h
    obtain ⟨replies, b', hdrain, hcopies⟩ := drainInto_packets _ b [buf] hb h
    exact ⟨replies, b', by simp [ha, hdrain], hcopies⟩
  | writeToTunnel buf =>
    rw [ha] at h
    obtain ⟨hbuf, hrest⟩ := Room.append [buf] h
    obtain ⟨b1, hpush, hcopy⟩ := pushCopy_of_room hb hbuf
    rw [← hcopy.len] at hrest
    obtain ⟨replies, b', hdrain, hcopies⟩ := drainInto_packets _ b1 [] hcopy.dense hrest
    exact ⟨replies, b', by simp [ha, hpush, hdrain], hcopy.trans hcopies⟩

theorem Receives.of_copies {packets : List (List Byte)} (h : Copies s.plaintext b packets)
    (hd : s'.datagrams = s.datagrams) (hb : s'.plaintext = b)
    (hpeers : s'.plaintextPeers = s.plaintextPeers ++ replicate packets.length d.peer)
    (hgens : s'.plaintextGenerations =
      s.plaintextGenerations ++ replicate packets.length d.authorizationGeneration) :
    Receives s s' (packets.map (⟨d.peer, d.authorizationGeneration, ·⟩)) where
  datagrams := hd
  len := by rw [hb, h.len, length_map]
  packets := by simp [hb, h.initialized, Function.comp_def]
  peers := by simp [hpeers, Function.comp_def]
  generations := by simp [hgens, Function.comp_def]

theorem collectDatagram_receives (index : ℕ) (t : WgTunn E) (hb : Dense s.plaintext)
    (h : Room s.plaintext.len (packetsOf t.tunn d.data).1) :
    ∃ s', collectDatagram d.peer index t s d =
      ({ t with tunn := (packetsOf t.tunn d.data).2 }, s') ∧ Dense s'.plaintext ∧
      Receives s s' ((packetsOf t.tunn d.data).1.map (⟨d.peer, d.authorizationGeneration, ·⟩)) := by
  obtain ⟨replies, b, hdecap, hcopies⟩ := decapsulateInto_packets t d.data hb h
  unfold collectDatagram
  rw [hdecap]
  refine ⟨_, rfl, hcopies.dense, .of_copies hcopies rfl rfl ?_ ?_⟩
  all_goals simp [hcopies.len]

/-- With room left, one run delivers what its tunnel decapsulates, in order. -/
theorem collectDatagrams_receives (hpeer : ∀ d ∈ batch, d.peer = peer) (index : ℕ) (t : WgTunn E)
    (hb : Dense s.plaintext)
    (h : Room s.plaintext.len ((receiveFrom t.tunn batch).1.map Received.packet)) :
    ∃ s', collectDatagrams peer index t s batch =
      ({ t with tunn := (receiveFrom t.tunn batch).2 }, s') ∧ Dense s'.plaintext ∧
      Receives s s' (receiveFrom t.tunn batch).1 := by
  induction batch generalizing index t s with
  | nil => exact ⟨s, rfl, hb, .refl s⟩
  | cons d batch ih =>
    rw [receiveFrom, map_append, map_map] at h
    obtain ⟨hd, hrest⟩ := h.append _
    have hid : (Received.packet ∘ (⟨d.peer, d.authorizationGeneration, ·⟩)) = id := rfl
    rw [hid, map_id] at hd hrest
    obtain ⟨s1, hs1, hb1, hrecv⟩ := collectDatagram_receives index t hb hd
    have hlen := hrecv.len
    rw [length_map] at hlen
    rw [← hlen] at hrest
    obtain ⟨s2, hs2, hb2, hrecv2⟩ := ih (fun e he => hpeer e (mem_cons_of_mem _ he)) (index + 1)
      { t with tunn := (packetsOf t.tunn d.data).2 } hb1 hrest
    refine ⟨s2, ?_, hb2, hrecv.trans hrecv2⟩
    rw [collectDatagrams, ← hpeer d mem_cons_self, hs1, hpeer d mem_cons_self]
    exact hs2

/-- With room left, the scalar path delivers what the tunnels decapsulate, in order. -/
theorem collectRuns_receives {runs : List InboundBatchRun} {ds : List WgDatagram}
    (hruns : Runs tunnels start ds runs) {w : Tunnels E} (hw : w.byPeer = tunnels)
    (hs : s.datagrams.drop start = ds) (hb : Dense s.plaintext)
    (h : Room s.plaintext.len ((receive w ds).map Received.packet)) :
    ∃ w' s', collectRuns .quiet w s runs = some (w', s') ∧ Receives s s' (receive w ds) := by
  induction hruns generalizing w s with
  | nil start => exact ⟨w, s, rfl, .refl s⟩
  | drop ht hpeer _ ih =>
    rw [receive_append_of_none (hw ▸ ht) hpeer] at h ⊢
    exact ih hw (drop_add_length hs) hb h
  | @routed start tunnel _ _ rest _ ht hpeer _ ih =>
    rw [receive_append_of_some hpeer rest (hw ▸ ht)] at h ⊢
    rw [map_append] at h
    obtain ⟨hbatch, hrest⟩ := h.append _
    obtain ⟨s1, hs1, hb1, hrecv⟩ :=
      collectDatagrams_receives hpeer start (w.arena tunnel) hb hbatch
    rw [length_map, ← hrecv.len] at hrest
    obtain ⟨w2, s2, hs2, hrecv2⟩ := ih (w := w.put tunnel _) hw
      (hrecv.datagrams ▸ drop_add_length hs) hb1 hrest
    refine ⟨w2, s2, ?_, hrecv.trans hrecv2⟩
    rw [collectRuns, if_neg (by simp [Env.quiet]), slice_eq hs]
    simp only [Env.quiet]
    rw [hs1]
    exact hs2

/-- Batches with the same packets. -/
structure AlikeBatch (b b' : WgPlaintextBatch) : Prop where
  len : b.len = b'.len
  packets : b.initialized = b'.initialized
  dense : Dense b
  dense' : Dense b'

/-- Scratches that have delivered the same. -/
structure Alike (s s' : InboundBatchScratch E) : Prop where
  datagrams : s.datagrams = s'.datagrams
  plaintext : AlikeBatch s.plaintext s'.plaintext
  peers : s.plaintextPeers = s'.plaintextPeers
  generations : s.plaintextGenerations = s'.plaintextGenerations

theorem AlikeBatch.pushCopy (h : AlikeBatch b b') (packet : List Byte) :
    (∃ e, b.pushCopy packet = .error e ∧ b'.pushCopy packet = .error e) ∨
      ∃ b1 b1', b.pushCopy packet = .ok b1 ∧ b'.pushCopy packet = .ok b1' ∧ AlikeBatch b1 b1' := by
  rcases pushCopy_cases packet b.len with ⟨e, -, hfails⟩ | hok
  · exact .inl ⟨e, hfails b rfl, hfails b' h.len.symm⟩
  · obtain ⟨b1, hpush, hlen, hinit, hdense⟩ := hok b rfl h.dense
    obtain ⟨b1', hpush', hlen', hinit', hdense'⟩ := hok b' h.len.symm h.dense'
    refine .inr ⟨b1, b1', hpush, hpush', hlen.trans hlen'.symm, ?_, hdense, hdense'⟩
    rw [hinit, hinit', h.packets]

/-- Results that agree up to unused buffers. -/
structure AlikeDecap {α β : Type} (r r' : α × β × WgPlaintextBatch) : Prop where
  result : r.1 = r'.1
  tunnel : r.2.1 = r'.2.1
  plaintext : AlikeBatch r.2.2 r'.2.2

theorem drainInto_alike (replies : List (List Byte)) (h : AlikeBatch b b') :
    AlikeDecap (drainInto t b replies) (drainInto t b' replies) := by
  fun_induction drainInto t b replies generalizing b' with
  | case1 t b replies buf ha ih =>
    rw [drainInto.eq_def t b', ha]
    exact ih h
  | case2 t b replies buf ha e hpush =>
    rw [drainInto.eq_def t b', ha]
    rcases h.pushCopy buf with ⟨e', hfail, hfail'⟩ | ⟨b1, b1', hok, hok', h1⟩
    · rw [hpush] at hfail
      cases hfail
      simp only [hfail']
      exact ⟨rfl, rfl, h⟩
    · rw [hpush] at hok
      cases hok
  | case3 t b replies buf ha b1 hpush ih =>
    rw [drainInto.eq_def t b', ha]
    rcases h.pushCopy buf with ⟨e', hfail, hfail'⟩ | ⟨b2, b1', hok, hok', h1⟩
    · rw [hpush] at hfail
      cases hfail
    · rw [hpush] at hok
      cases hok
      simp only [hok']
      exact ih h1
  | case4 t b replies ha | case5 t b replies ha =>
    rw [drainInto.eq_def t b', ha]
    exact ⟨rfl, rfl, h⟩

theorem decapsulateInto_alike (t : WgTunn E) (d : List Byte) (h : AlikeBatch b b') :
    AlikeDecap (t.decapsulateInto d b) (t.decapsulateInto d b') := by
  have hput {r r' : Except WgError (List (List Byte)) × E.Tunn × WgPlaintextBatch}
      (hr : AlikeDecap r r') : AlikeDecap (r.1, { t with tunn := r.2.1 }, r.2.2)
        (r'.1, { t with tunn := r'.2.1 }, r'.2.2) :=
    ⟨hr.result, congrArg (fun tunn => { t with tunn }) hr.tunnel, hr.plaintext⟩
  unfold WgTunn.decapsulateInto
  cases ha : (E.decapsulate t.tunn d).1 with
  | done | err => simpa [ha] using ⟨rfl, rfl, h⟩
  | writeToNetwork buf => simpa [ha] using hput (drainInto_alike _ [buf] h)
  | writeToTunnel buf =>
    rcases h.pushCopy buf with ⟨e, hfail, hfail'⟩ | ⟨b1, b1', hok, hok', h1⟩
    · simpa [ha, hfail, hfail'] using ⟨rfl, rfl, h⟩
    · simpa [ha, hok, hok'] using hput (drainInto_alike _ [] h1)

theorem collectDatagram_alike (peer : PublicKey) (index : ℕ) (t : WgTunn E) (h : Alike s s')
    (d : WgDatagram) :
    (collectDatagram peer index t s d).1 = (collectDatagram peer index t s' d).1 ∧
      Alike (collectDatagram peer index t s d).2 (collectDatagram peer index t s' d).2 := by
  have hdecap := decapsulateInto_alike t d.data h.plaintext
  unfold collectDatagram
  obtain ⟨r, t1, b, hr⟩ : ∃ r t1 b, t.decapsulateInto d.data s.plaintext = (r, t1, b) :=
    ⟨_, _, _, rfl⟩
  obtain ⟨r', t1', b', hr'⟩ : ∃ r t1 b, t.decapsulateInto d.data s'.plaintext = (r, t1, b) :=
    ⟨_, _, _, rfl⟩
  rw [hr, hr'] at hdecap
  obtain ⟨rfl, rfl, hb⟩ := hdecap
  rw [hr, hr']
  cases r with
  | error e => exact ⟨rfl, h.datagrams, hb, h.peers, h.generations⟩
  | ok replies =>
    dsimp only
    rw [hb.len, h.plaintext.len, h.peers, h.generations]
    exact ⟨rfl, h.datagrams, hb, rfl, rfl⟩

theorem collectDatagrams_alike (peer : PublicKey) (batch : List WgDatagram) (index : ℕ)
    (t : WgTunn E) (h : Alike s s') :
    (collectDatagrams peer index t s batch).1 = (collectDatagrams peer index t s' batch).1 ∧
      Alike (collectDatagrams peer index t s batch).2
        (collectDatagrams peer index t s' batch).2 := by
  induction batch generalizing index t s s' with
  | nil => exact ⟨rfl, h⟩
  | cons d batch ih =>
    obtain ⟨ht, hs⟩ := collectDatagram_alike peer index t h d
    simp only [collectDatagrams]
    rw [ht]
    exact ih _ _ hs

theorem collectRuns_alike (runs : List InboundBatchRun) (w : Tunnels E) (h : Alike s s') :
    ∃ w' s1 s1', collectRuns .quiet w s runs = some (w', s1) ∧
      collectRuns .quiet w s' runs = some (w', s1') ∧ Alike s1 s1' := by
  induction runs generalizing w s s' with
  | nil => exact ⟨w, s, s', rfl, rfl, h⟩
  | cons run runs ih =>
    cases run with
    | drop start stop => exact ih w h
    | routed run =>
      have hslice : s.slice run = s'.slice run := by
        rw [slice, h.datagrams]
        rfl
      obtain ⟨ht, hs⟩ := collectDatagrams_alike run.peer (s'.slice run) run.start
        (w.arena run.tunnel) h
      simp only [collectRuns, Env.quiet, Bool.false_eq_true, if_false]
      rw [hslice, ht]
      exact ih _ hs

theorem collectTunInboundBatch_quiet (s : InboundBatchScratch E) :
    collectTunInboundBatch .quiet w s =
      collectRuns .quiet w { s with runs := [] } (buildInboundRuns w.byPeer 0 s.datagrams) := by
  simp [collectTunInboundBatch, Env.quiet]

/-- The scalar path depends on what the scratch shows only. -/
theorem collectTunInboundBatch_alike (h : Alike s s') :
    ∃ w' s1 s1', collectTunInboundBatch .quiet w s = some (w', s1) ∧
      collectTunInboundBatch .quiet w s' = some (w', s1') ∧ Alike s1 s1' := by
  rw [collectTunInboundBatch_quiet, collectTunInboundBatch_quiet, h.datagrams]
  exact collectRuns_alike _ w ⟨rfl, h.plaintext, h.peers, h.generations⟩

theorem collectTunInboundBatch_receives (hb : Dense s.plaintext)
    (h : Room s.plaintext.len ((receive w s.datagrams).map Received.packet)) :
    ∃ w' s', collectTunInboundBatch .quiet w s = some (w', s') ∧
      Receives s s' (receive w s.datagrams) := by
  rw [collectTunInboundBatch_quiet]
  obtain ⟨w', s', hs', hrecv⟩ := collectRuns_receives (runs_buildInboundRuns 0 s.datagrams)
    (s := { s with runs := [] }) rfl rfl hb h
  exact ⟨w', s', hs', hrecv.datagrams, hrecv.len, hrecv.packets, hrecv.peers, hrecv.generations⟩

end Rustscale.Inbound
