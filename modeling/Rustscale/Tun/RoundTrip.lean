import Rustscale.Tun.GroRoundTrip

/-! Planning the writes of a batch of packets, and splitting what is written. -/
namespace Rustscale.Tun
open Octets Bytes Checks List Option

def TcpVerifies (v6 : Bool) (p : List Byte) : Prop :=
  onesSum (pseudoSum protoTcp (slice p (addressAt v6).1 (addressAt v6).2)
    (slice p ((addressAt v6).1 + (addressAt v6).2) (addressAt v6).2) (p.length - ipLenOf v6) +
      wordSum (p.drop (ipLenOf v6))) = 65535

def sequenceOf (v6 : Bool) (p : List Byte) : ℕ := num 4 p (ipLenOf v6 + 4)

def payloadLenOf (v6 : Bool) (p : List Byte) : ℕ :=
  p.length - ipLenOf v6 - (get p (ipLenOf v6 + 12) >>> 4).toNat * 4

/-- A merged write is a frame whose segments are its members. -/
structure MergedWrite (e : Endian) (packets : List (List Byte)) (members : List ℕ) (v6 : Bool)
    (frame : List Byte) : Prop where
  length : frame.length ≤ virtioNetHdrLen + 65535
  lengthField : num 2 (frame.drop virtioNetHdrLen) (if v6 then 4 else 2) =
    frame.length - virtioNetHdrLen - if v6 then 40 else 0
  verified : ∀ i ∈ members, TcpVerifies v6 (packetAt packets i)
  inSequence : ∀ j a b, members[j]? = some a → members[j + 1]? = some b →
    sequenceOf v6 (packetAt packets b) = (sequenceOf v6 (packetAt packets a) +
      payloadLenOf v6 (packetAt packets a)) % 2 ^ 32
  split : members.length ≤ TunPacketBatch.maxPackets → ∀ batch, ∃ batch',
    splitVirtio e frame batch = .ok () batch' ∧
      List.Forall₂ (fun i seg => Restored v6 (packetAt packets i) seg) members batch'.packets

/-- What is written gives every packet back, in one write each. -/
structure RoundTrip (e : Endian) (packets : List (List Byte))
    (r : List GroOutput × List (List Byte)) : Prop where
  once : (r.1.flatMap GroOutput.members).Perm (List.range packets.length)
  single : ∀ o ∈ r.1, o.fragments = [] →
    o.header = replicate virtioNetHdrLen 0 ∧ packetAt r.2 o.head = packetAt packets o.head
  merged : ∀ o ∈ r.1, o.fragments ≠ [] →
    ∃ bufs, groWriteIovecs maxGroIovecs o r.2 = .ok (bufs, bufs.flatten.length) ∧
      bufs.length ≤ maxGroIovecs ∧
      MergedWrite e packets o.members (isV6 (packetAt packets o.head)) bufs.flatten

section
variable {e : Endian} {packets : List (List Byte)} {item : TcpItem} {o : GroOutput}

theorem tcpVerifies_of_valid {p : List Byte} {v6 : Bool}
    (h : tcpChecksumValid e p (ipLenOf v6) v6 = true) : TcpVerifies v6 p := by
  simp only [tcpChecksumValid, Bool.and_eq_true, decide_eq_true_eq, beq_iff_eq] at h
  obtain ⟨hlt, hsum⟩ := h
  rw [checksum_pseudo_eq _ _ _ _ _ hlt] at hsum
  have hle := onesSum_le (pseudoSum protoTcp (slice p (addressAt v6).1 (addressAt v6).2)
    (slice p ((addressAt v6).1 + (addressAt v6).2) (addressAt v6).2) (p.length - ipLenOf v6) +
      wordSum (p.drop (ipLenOf v6)))
  unfold TcpVerifies
  omega

section
variable (h : Merged e packets item o)
include h

theorem Merged.isV6_head : isV6 (packetAt packets o.head) = item.key.v6 := by
  obtain ⟨m, hm, hp, -, -⟩ := h.head_meta
  rw [hm.isV6_eq, hp.key]

theorem Merged.inSequence {j a b : ℕ} (ha : o.members[j]? = some a)
    (hb : o.members[j + 1]? = some b) :
    sequenceOf item.key.v6 (packetAt packets b) = (sequenceOf item.key.v6 (packetAt packets a) +
      payloadLenOf item.key.v6 (packetAt packets a)) % 2 ^ 32 := by
  obtain ⟨m, hm, hp, hip, hlen⟩ := h.isMeta ha
  obtain ⟨m', hm', hp', hip', -⟩ := h.isMeta hb
  have hlt := (List.getElem?_eq_some_iff.mp hb).1
  have hpay := (hp.inner hlt).1
  have hs := hp.seq
  have hs' := hp'.seq
  have htl := hm.tcpLen
  rw [hm.seq, hip, h.ipLen] at hs
  rw [hm'.seq, hip', h.ipLen] at hs'
  rw [hip, hp.tcpLen, h.ipLen] at htl
  have hpl : payloadLenOf item.key.v6 (packetAt packets a) = item.gsoSize := by
    rw [payloadLenOf, ← htl, hlen, h.ipLen]
    omega
  rw [sequenceOf, sequenceOf, hs, hs', hpl, Nat.mod_add_mod, Nat.add_mul, Nat.one_mul,
    ← Nat.add_assoc]

section
variable (hf : o.fragments ≠ []) (hc : o.members.length ≤ TunPacketBatch.maxPackets)
  (batch : TunPacketBatch)
include hf hc

theorem Merged.splitVirtio_eq :
    ∃ batch', splitVirtio e (mergedFrame e packets item o) batch = .ok () batch' ∧ batch'.packets =
        (List.range o.members.length).map ((mergedGso e packets item o).segment e) := by
  have hraw : Frame.ofRaw e (mergedFrame e packets item o) = mergedGso e packets item o :=
    h.ofRaw_eq hf
  have hfits := h.fits hf
  have hfull : ¬(mergedGso e packets item o).payload.length <
      (mergedGso e packets item o).gsoSize := not_lt.mpr hfits.full
  have hcount := h.count_eq hf
  obtain ⟨batch', hrun, hb⟩ := Frame.splitSegments_run hfits (hcount ▸ hc) batch.clear
  refine ⟨batch', splitVirtio_eq_ok.mpr ?_, hcount ▸ hb⟩
  rw [(h.accepted hf).run_eq, hraw, if_neg hfull, hrun]

/-- Splitting the frame of a merged output gives its packets back. -/
theorem Merged.split :
    ∃ batch', splitVirtio e (mergedFrame e packets item o) batch = .ok () batch' ∧
      List.Forall₂ (fun i seg => Restored item.key.v6 (packetAt packets i) seg) o.members
        batch'.packets := by
  obtain ⟨batch', hrun, hb⟩ := h.splitVirtio_eq hf hc batch
  refine ⟨batch', hrun, ?_⟩
  rw [hb, List.forall₂_iff_get]
  refine ⟨by simp, fun j hj _ => ?_⟩
  simp only [get_eq_getElem, getElem_map, getElem_range]
  exact h.restored (getElem?_eq_getElem hj) (Frame.segment_spec (h.fits hf)) hf

end

theorem Merged.lengthField : num 2 (mergedInput e packets item o) (if item.key.v6 then 4 else 2) =
      (mergedInput e packets item o).length - if item.key.v6 then 40 else 0 := by
  have hlong := h.head_long
  have hle := h.le_ipLen
  have hoff : (if item.key.v6 then 4 else 2) + 2 ≤ 6 := by split_ifs <;> decide
  have hip := h.ipLen
  rw [h.length_mergedInput, mergedInput, num_append_left (by rw [length_account hlong]; omega),
    num_account hlong hle h.bound]
  cases hv : item.key.v6 <;> simp [hv, ipLenOf] at hip ⊢
  omega

theorem Merged.write (hf : o.fragments ≠ []) :
    MergedWrite e packets o.members item.key.v6 (mergedFrame e packets item o) := by
  have hlen := h.length_mergedInput
  have hb := h.bound
  have hframe : (mergedFrame e packets item o).length =
      virtioNetHdrLen + (mergedInput e packets item o).length := by
    rw [mergedFrame, length_append, length_vnetTcpHeader]
    rfl
  have hdrop : (mergedFrame e packets item o).drop virtioNetHdrLen =
      mergedInput e packets item o := drop_left' (length_vnetTcpHeader e item)
  refine ⟨by omega, ?_, fun i hi => ?_, fun j a b => h.inSequence, h.split hf⟩
  · rw [hdrop, hframe, Nat.add_sub_cancel_left, h.lengthField]
  · exact tcpVerifies_of_valid (h.ipLen ▸ h.valid hf i hi)

end

end

/-- Nothing is lost between planning and splitting: each packet is in one output, a packet alone is
written as it was, and up to 128 merged ones come back, with at most `unkept` changed. -/
theorem plan_roundTrip (e : Endian) (order : HashOrder) (packets : List (List Byte)) :
    RoundTrip e packets (plan e order packets) where
  once := plan_perm e order packets
  single o ho hf := by
    obtain ⟨k, hk⟩ := getElem?_of_mem ho
    rcases plan_output (List.getElem?_eq_some_iff.mp hk).1 with
      ⟨o', hout, -, hheader, hhead⟩ | ⟨o', item, -, hne, hout, -, -⟩
    · obtain rfl := mem_unique hk hout
      exact ⟨hheader, hhead⟩
    · obtain rfl := mem_unique hk hout
      exact absurd hf hne
  merged o ho hf := by
    obtain ⟨k, hk⟩ := getElem?_of_mem ho
    rcases plan_output (List.getElem?_eq_some_iff.mp hk).1 with
      ⟨o', hout, hnil, -, -⟩ | ⟨o', item, hm, hne, hout, hhead, hrest⟩
    · obtain rfl := mem_unique hk hout
      exact absurd hnil hf
    · obtain rfl : o = { o' with header := vnetTcpHeader e item } :=
        mem_unique hk hout
      have hin : ∀ f ∈ o'.fragments,
          (plan e order packets).2[f.packet]? = some (packetAt packets f.packet) := by
        intro f hfm
        have hlt : f.packet < packets.length := by
          refine mem_range.mp ((plan_perm e order packets).mem_iff.mp ?_)
          exact mem_flatMap.mpr ⟨_, ho, mem_cons_of_mem _ (mem_map_of_mem hfm)⟩
        rw [hrest f hfm, packetAt, getD_eq_getElem?_getD, getElem?_eq_getElem hlt]
        rfl
      obtain ⟨bufs, hbufs, hflat, hcount⟩ := hm.groWriteIovecs_eq hhead hin
      refine ⟨bufs, ?_, hcount ▸ hm.iovecs, ?_⟩
      · rw [hbufs, hflat, mergedFrame, length_append, length_vnetTcpHeader]
        rfl
      · rw [hflat]
        exact hm.isV6_head ▸ hm.write hne

def splitWritten (e : Endian) (r : List GroOutput × List (List Byte)) (k : ℕ) :
    Option (List (List Byte)) := do
  let o ← r.1[k]?
  let (bufs, _) ← (groWriteIovecs maxGroIovecs o r.2).toOption
  match splitVirtio e bufs.flatten ⟨[], 0⟩ with
  | .ok () batch => some batch.packets
  | .error _ _ => none

/-- Packets of one byte each, more of them than a batch holds. -/
def oneByteEach : List (List Byte) := (List.range 129).map fun i => tcpPacket (i + 1) 100 [97]

/-- Two packets with different windows and wrong IPv4 checksums come back with one window; 129
packets are merged into a frame that is not split. -/
theorem plan_not_restored : (splitWritten .little (plan .little inOrder twoWindows) 0).map
        (fun segs => segs.map fun p => (headerFields p).window) = some [100, 100] ∧
    (twoWindows.map fun p => (headerFields p).window) = [100, 200] ∧
    (∀ p ∈ twoWindows, onesSum (wordSum (p.take 20)) ≠ 65535) ∧
    ((plan .little inOrder oneByteEach).1.map fun o => o.members.length) = [129] ∧
    splitWritten .little (plan .little inOrder oneByteEach) 0 = none := by
  decide +kernel

end Rustscale.Tun
