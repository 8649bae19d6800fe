import Rustscale.Tun.GroFrame
import Rustscale.Tun.GroHeaders

/-! Splitting a merged frame gives its packets back. -/
namespace Rustscale.Tun
open Octets Bytes Checks List Tun.Frame Nat

section
variable {e : Endian} {packets : List (List Byte)} {item : TcpItem} {o : GroOutput}

theorem length_vnetTcpHeader (e : Endian) (item : TcpItem) : (vnetTcpHeader e item).length = 10 := by
  simp [vnetTcpHeader]

theorem slice_vnetTcpHeader (e : Endian) (item : TcpItem) (rest : List Byte) :
    slice (vnetTcpHeader e item ++ rest) 4 2 = toBytes e 2 item.gsoSize ∧
    slice (vnetTcpHeader e item ++ rest) 6 2 = toBytes e 2 item.ipLen ∧
    slice (vnetTcpHeader e item ++ rest) 8 2 = toBytes e 2 16 := by
  have hlen : ∀ x, ∃ a b, toBytes e 2 x = [a, b] := by
    intro x
    have h := toBytes_length e 2 x
    match toBytes e 2 x, h with
    | [a, b], _ => exact ⟨a, b, rfl⟩
  obtain ⟨a, b, h1⟩ := hlen (item.ipLen + item.tcpLen)
  obtain ⟨c, d, h2⟩ := hlen item.gsoSize
  obtain ⟨f, g, h3⟩ := hlen item.ipLen
  obtain ⟨i, j, h4⟩ := hlen 16
  simp only [vnetTcpHeader, h1, h2, h3, h4]
  exact ⟨rfl, rfl, rfl⟩

theorem get_one_vnetTcpHeader (e : Endian) (item : TcpItem) (rest : List Byte) :
    get (vnetTcpHeader e item ++ rest) 1 = if item.key.v6 then gsoTcpv6 else gsoTcpv4 := rfl

theorem ofBytes_toBytes_of_lt {x : ℕ} (h : x < 2 ^ 16) : ofBytes e (toBytes e 2 x) = x := by
  rw [ofBytes_toBytes]
  exact mod_eq_of_lt h

theorem Merged.gsoSize_le (h : Merged e packets item o) (hf : o.fragments ≠ []) :
    item.gsoSize ≤ item.payloadLen := by
  obtain ⟨i, m, -, -, hp⟩ := h.last_place
  have hlen := (hp.last (length_members o).symm).2.2
  have hpos : 0 < o.fragments.length := length_pos_iff_ne_nil.mpr hf
  have : 1 * item.gsoSize ≤ o.fragments.length * item.gsoSize := mul_le_mul_right _ hpos
  omega

/-- The splitter reads off the frame what the planner put there. -/
theorem Merged.ofRaw_eq (h : Merged e packets item o) (hf : o.fragments ≠ []) :
    ofRaw e (mergedFrame e packets item o) =
      ⟨mergedInput e packets item o, true, item.ipLen, item.gsoSize⟩ := by
  have hb := h.bound
  have hg := h.gsoSize_le hf
  obtain ⟨h4, h6, -⟩ := slice_vnetTcpHeader e item (mergedInput e packets item o)
  have h1 := get_one_vnetTcpHeader e item (mergedInput e packets item o)
  have htcp : decide (get (vnetTcpHeader e item ++ mergedInput e packets item o) 1 = gsoTcpv4 ∨
      get (vnetTcpHeader e item ++ mergedInput e packets item o) 1 = gsoTcpv6) = true := by
    rw [h1]
    split_ifs <;> decide
  have hdrop : (vnetTcpHeader e item ++ mergedInput e packets item o).drop virtioNetHdrLen =
      mergedInput e packets item o :=
    drop_left' (length_vnetTcpHeader e item)
  unfold ofRaw mergedFrame
  rw [h4, h6, ofBytes_toBytes_of_lt (by omega), ofBytes_toBytes_of_lt (by omega), htcp, hdrop]

def mergedGso (e : Endian) (packets : List (List Byte)) (item : TcpItem) (o : GroOutput) : Frame :=
  ⟨mergedInput e packets item o, true, item.ipLen, item.gsoSize⟩

section
variable (h : Merged e packets item o)
include h

theorem Merged.get_zero :
    get (mergedInput e packets item o) 0 = get (packetAt packets o.head) 0 := by
  have := h.le_ipLen
  rw [h.get_mergedInput (by omega), get_account h.head_long (by rw [mem_accountBytes]; omega)]

theorem Merged.v6_eq : (mergedGso e packets item o).v6 = item.key.v6 := by
  obtain ⟨m, hm, hp, -, -⟩ := h.head_meta
  rw [v6, mergedGso, h.get_zero, ← hp.key]
  exact hm.isV6_eq

theorem Merged.ipLen_eq : (mergedGso e packets item o).ipLen = item.ipLen := by
  obtain ⟨m, hm, hp, -, -⟩ := h.head_meta
  rw [Frame.ipLen, h.v6_eq, h.ipLen, ipLenOf]
  cases hv : item.key.v6 with
  | true => rfl
  | false =>
    have h4 := tcpVersion_v4 (hv ▸ hp.key ▸ hm.version)
    simp only [Bool.false_eq_true, if_false, mergedGso, h.get_zero, h4.2.1]
    rfl

theorem Merged.transportHeaderLen_eq :
    (mergedGso e packets item o).transportHeaderLen = item.tcpLen := by
  obtain ⟨m, hm, hp, hip, -⟩ := h.head_meta
  have h20 := h.tcpLen_bounds
  have hget : get (mergedInput e packets item o) (item.ipLen + 12) =
      get (packetAt packets o.head) (item.ipLen + 12) := by
    have := h.le_ipLen
    rw [h.get_mergedInput (by omega), get_account h.head_long (by rw [mem_accountBytes]; omega)]
  simp only [transportHeaderLen, mergedGso, if_true, hget]
  rw [← hp.tcpLen, hm.tcpLen, hip]

theorem Merged.headerLen_eq :
    (mergedGso e packets item o).headerLen = item.ipLen + item.tcpLen := by
  rw [headerLen, h.transportHeaderLen_eq]
  rfl

theorem Merged.payload_eq :
    (mergedGso e packets item o).payload = (chunks packets item o).flatten := by
  rw [payload, h.headerLen_eq]
  exact h.drop_mergedInput

/-- The frame written for a merged output is one the splitter accepts. -/
theorem Merged.accepted (hf : o.fragments ≠ []) :
    Frame.Accepted e (mergedFrame e packets item o) := by
  have hraw : ofRaw e (mergedFrame e packets item o) = mergedGso e packets item o :=
    h.ofRaw_eq hf
  have h1 := get_one_vnetTcpHeader e item (mergedInput e packets item o)
  have hlen := h.length_mergedInput
  have h20 := h.tcpLen_bounds
  refine ⟨?_, ?_, ?_, ?_, ?_, ?_, ?_, ?_⟩
  · rw [mergedFrame, length_append, length_vnetTcpHeader]
    exact le_add_right _ _
  · rw [mergedFrame, h1]
    split_ifs
    · exact .inr (.inr rfl)
    · exact .inl rfl
  · rw [hraw, mergedFrame, (slice_vnetTcpHeader e item _).2.2, ofBytes_toBytes_of_lt (by decide)]
    rfl
  · rw [hraw]
    exact h.gsoSize_pos
  · rw [hraw, h.headerLen_eq]
    exact (le_add_right _ _).trans hlen.ge
  · rw [hraw, h.transportHeaderLen_eq]
    exact fun _ => h20.1
  · rw [hraw, h.v6_eq, h.ipLen_eq]
    intro hv
    obtain ⟨m, hm, hp, -, -⟩ := h.head_meta
    have h4 := tcpVersion_v4 (hv ▸ hp.key ▸ hm.version)
    refine ⟨?_, ?_, h.le_ipLen, rfl⟩
    · rw [mergedGso, h.get_zero]
      exact h4.1
    · rw [mergedFrame, h1, hv]
      decide
  · rw [hraw, h.v6_eq]
    intro hv
    refine ⟨?_, ?_⟩
    · rw [mergedFrame, h1, hv]
      decide
    · have := h.ipLen
      rw [hv] at this
      exact this.ge

theorem Merged.fits (hf : o.fragments ≠ []) : (mergedGso e packets item o).Fits := by
  have hraw : ofRaw e (mergedFrame e packets item o) = mergedGso e packets item o :=
    h.ofRaw_eq hf
  have hb := h.bound
  have hg := h.gsoSize_le hf
  refine hraw ▸ (h.accepted hf).fits ?_ ?_
  · rw [hraw, h.payload_eq, h.length_flatten]
    exact hg
  · rw [hraw, h.headerLen_eq]
    have : (mergedGso e packets item o).gsoSize = item.gsoSize := rfl
    omega

theorem Merged.count_eq (hf : o.fragments ≠ []) :
    (mergedGso e packets item o).count = o.members.length := by
  have hfits := h.fits hf
  have hlen : (mergedGso e packets item o).payload.length = item.payloadLen := by
    rw [h.payload_eq, h.length_flatten]
  obtain ⟨i, m, -, hm, hp⟩ := h.last_place
  obtain ⟨hle, -, hpl⟩ := hp.last (length_members o).symm
  have hpos := (isMeta_of_tcpMeta hm).payload
  have hlt : ∀ i, i < (mergedGso e packets item o).count ↔ i * item.gsoSize < item.payloadLen :=
    fun i => (lt_count hfits).trans (by rw [hlen]; rfl)
  have h1 := (hlt o.fragments.length).mpr (by omega)
  have h2 := mt (hlt (o.fragments.length + 1)).mp (by rw [add_mul]; omega)
  rw [length_members]
  omega

end

end

/-- The IPv4 identification and the checksums, which are computed anew, and the window, urgent
pointer, reserved TCP bits and IPv6 flow label, which are those of the head. -/
def unkept (v6 : Bool) : List ℕ :=
  if v6 then [1, 2, 3, 52, 54, 55, 56, 57, 58, 59]
  else [4, 5, 10, 11, 32, 34, 35, 36, 37, 38, 39]

/-- A packet that came back. Two of the bytes are kept in their upper half. -/
structure Restored (v6 : Bool) (orig seg : List Byte) : Prop where
  length : seg.length = orig.length
  bytes : ∀ k, k ∉ unkept v6 → get seg k = get orig k
  dataOffset : get seg (ipLenOf v6 + 12) >>> 4 = get orig (ipLenOf v6 + 12) >>> 4
  trafficClass : v6 = true → get seg 1 >>> 4 = get orig 1 >>> 4

def placed (v6 : Bool) : List ℕ :=
  (if v6 then [4, 5] else [2, 3]) ++ [4, 5, 6, 7, 13].map (ipLenOf v6 + ·)

section
variable {p q : List Byte} {m m' : TcpMeta} {item : TcpItem}

section
variable (hp : IsMeta p m) (hq : IsMeta q m') (hkey : m.key = m'.key)
include hp hq hkey

theorem same_parts : slice p (addressAt m.key.v6).1 (addressAt m.key.v6).2 =
      slice q (addressAt m.key.v6).1 (addressAt m.key.v6).2 ∧
    slice p ((addressAt m.key.v6).1 + (addressAt m.key.v6).2) (addressAt m.key.v6).2 =
      slice q ((addressAt m.key.v6).1 + (addressAt m.key.v6).2) (addressAt m.key.v6).2 ∧
    slice p (ipLenOf m.key.v6) 2 = slice q (ipLenOf m.key.v6) 2 ∧
    slice p (ipLenOf m.key.v6 + 2) 2 = slice q (ipLenOf m.key.v6 + 2) 2 ∧
    slice p (ipLenOf m.key.v6 + 8) 4 = slice q (ipLenOf m.key.v6 + 8) 4 := by
  have hlp := hp.length
  have hlq := hq.length
  have h20p := hp.le_tcpLen
  have h20q := hq.le_tcpLen
  have hip := hp.ipLen
  have hiq : m'.ipLen = ipLenOf m.key.v6 := by rw [hq.ipLen, hkey]
  refine ⟨?_, ?_, ?_, ?_, ?_⟩
  · refine append_cancel_right (hp.src.symm.trans ?_)
    rw [hkey]
    exact hq.src
  · refine append_cancel_right (hp.dst.symm.trans ?_)
    rw [hkey]
    exact hq.dst
  · refine slice_eq_of_num_eq (by omega) (by omega) ?_
    rw [← hip, ← hp.srcPort, hip, ← hiq, ← hq.srcPort, hkey]
  · refine slice_eq_of_num_eq (by omega) (by omega) ?_
    rw [← hip, ← hp.dstPort, hip, ← hiq, ← hq.dstPort, hkey]
  · refine slice_eq_of_num_eq (by omega) (by omega) ?_
    rw [← hip, ← hp.ack, hip, ← hiq, ← hq.ack, hkey]

variable (hlike : likeIp p m.key.v6 = likeIp q m.key.v6) {k : ℕ} (hun : k ∉ unkept m.key.v6)
  (hpl : k ∉ placed m.key.v6)
include hlike hun hpl

/-- Packets alike to the planner agree on the IP header up to the addresses. -/
theorem same_ip (hk : k < (addressAt m.key.v6).1) : get p k = get q k := by
  have hvp := hp.version
  have hvq := hkey ▸ hq.version
  cases hv : m.key.v6 with
  | false =>
    rw [hv] at hvp hvq hlike hun hpl hk
    have h4p := tcpVersion_v4 hvp
    have h4q := tcpVersion_v4 hvq
    have hbyte : ∀ a : Byte, a >>> 4 = 4 → a &&& 0x0f = 5 → a = 0x45 := by decide
    have hfrag : ∀ a : Byte, a <<< 3 = 0 → a = (a >>> 5) <<< 5 := by decide
    obtain ⟨h1, h6, h8, -⟩ : get p 1 = get q 1 ∧ get p 6 >>> 5 = get q 6 >>> 5 ∧
        get p 8 = get q 8 ∧ True := by simpa [likeIp] using hlike
    have hcases : k = 0 ∨ k = 1 ∨ k = 6 ∨ k = 7 ∨ k = 8 ∨ k = 9 := by
      simp [addressAt, unkept, placed] at hk hun hpl
      omega
    rcases hcases with rfl | rfl | rfl | rfl | rfl | rfl
    · rw [hbyte _ h4p.1 h4p.2.1, hbyte _ h4q.1 h4q.2.1]
    · exact h1
    · rw [hfrag _ h4p.2.2.2.2.1, hfrag _ h4q.2.2.2.2.1, h6]
    · rw [h4p.2.2.2.2.2, h4q.2.2.2.2.2]
    · exact h8
    · rw [h4p.2.2.1, h4q.2.2.1]
  | true =>
    rw [hv] at hvp hvq hlike hun hpl hk
    obtain ⟨h0, -, h7⟩ : get p 0 = get q 0 ∧ get p 1 >>> 4 = get q 1 >>> 4 ∧ get p 7 = get q 7 := by
      simpa [likeIp] using hlike
    have hcases : k = 0 ∨ k = 6 ∨ k = 7 := by
      simp [addressAt, unkept, placed] at hk hun hpl
      omega
    rcases hcases with rfl | rfl | rfl
    · exact h0
    · rw [(tcpVersion_v6 hvp).2.2.1, (tcpVersion_v6 hvq).2.2.1]
    · exact h7

/-- Packets alike to the planner agree on every header byte it compares. -/
theorem same_bytes (hopt : tcpOptions p (ipLenOf m.key.v6) m.tcpLen =
    tcpOptions q (ipLenOf m.key.v6) m.tcpLen) (hk : k < ipLenOf m.key.v6 + m.tcpLen) :
    get p k = get q k := by
  obtain ⟨hsrc, hdst, hsp, hdp, hack⟩ := same_parts hp hq hkey
  have hip := same_ip hp hq hkey hlike hun hpl
  generalize m.key.v6 = v6 at *
  have hcases : k < (addressAt v6).1 ∨
      ((addressAt v6).1 ≤ k ∧ k < (addressAt v6).1 + (addressAt v6).2) ∨
      ((addressAt v6).1 + (addressAt v6).2 ≤ k ∧
        k < (addressAt v6).1 + (addressAt v6).2 + (addressAt v6).2) ∨
      (ipLenOf v6 ≤ k ∧ k < ipLenOf v6 + 2) ∨ (ipLenOf v6 + 2 ≤ k ∧ k < ipLenOf v6 + 2 + 2) ∨
      (ipLenOf v6 + 8 ≤ k ∧ k < ipLenOf v6 + 8 + 4) ∨ ipLenOf v6 + 20 ≤ k := by
    cases v6 <;> simp [addressAt, ipLenOf, unkept, placed] at hun hpl ⊢ <;> omega
  rcases hcases with h | h | h | h | h | h | h
  · exact hip h
  · exact get_of_slice_eq hsrc h.1 h.2
  · exact get_of_slice_eq hdst h.1 h.2
  · exact get_of_slice_eq hsp h.1 h.2
  · exact get_of_slice_eq hdp h.1 h.2
  · exact get_of_slice_eq hack h.1 h.2
  · exact get_of_slice_eq hopt h (by omega)

end

end

section
variable {e : Endian} {packets : List (List Byte)} {item : TcpItem} {o : GroOutput} {j i : ℕ}
  {seg : List Byte}

section
variable (h : Merged e packets item o)
include h

theorem Merged.same_bytes (hi : i ∈ o.members) {k : ℕ} (hk : k < item.ipLen + item.tcpLen)
    (hun : k ∉ unkept item.key.v6) (hpl : k ∉ placed item.key.v6) :
    get (packetAt packets o.head) k = get (packetAt packets i) k := by
  obtain ⟨j, hj⟩ := getElem?_of_mem hi
  obtain ⟨m, hm, hp, -, -⟩ := h.head_meta
  obtain ⟨m', hm', hp', -, -⟩ := h.isMeta hj
  have hkey : m.key = m'.key := hp.key.trans hp'.key.symm
  obtain ⟨hlike, hopt⟩ := Prod.mk.inj (h.alike i hi).symm
  rw [h.ipLen, ← hp.tcpLen, ← hp.key] at hk hopt
  rw [← hp.key] at hun hpl hlike
  exact Tun.same_bytes hm hm' hkey hlike hun hpl hopt hk

theorem Merged.flags_mergedInput (hf : o.fragments ≠ []) :
    get (mergedInput e packets item o) (item.ipLen + 13) =
      if item.psh then tcpAck ||| tcpPsh else tcpAck := by
  obtain ⟨m, hm, hp, hip, -⟩ := h.head_meta
  have h20 := h.tcpLen_bounds
  have hcount : 0 + 1 < o.members.length := by
    have := length_pos_iff_ne_nil.mpr hf
    rw [length_members]
    omega
  have hflags := hm.flags
  rw [(hp.inner hcount).2, hip] at hflags
  rw [h.get_mergedInput (by omega), flags_account h.head_long h.le_ipLen, hflags]
  rfl

theorem mem_rewritten {k : ℕ} : k ∈ (mergedGso e packets item o).rewritten ↔
      (item.key.v6 = true ∧ (k = 4 ∨ k = 5)) ∨
      (item.key.v6 = false ∧ (k = 2 ∨ k = 3 ∨ k = 4 ∨ k = 5 ∨ k = 10 ∨ k = 11)) ∨
      k = item.ipLen + 4 ∨ k = item.ipLen + 5 ∨ k = item.ipLen + 6 ∨ k = item.ipLen + 7 ∨
      k = item.ipLen + 13 ∨ k = item.ipLen + 16 ∨ k = item.ipLen + 17 := by
  have htcp : (mergedGso e packets item o).tcp = true := rfl
  have hcs : (mergedGso e packets item o).cs = item.ipLen := rfl
  simp only [rewritten, h.v6_eq, htcp, hcs]
  cases item.key.v6 <;> simp [or_assoc]

theorem Merged.get_segment (hs : (mergedGso e packets item o).SegmentOf j seg) {k : ℕ}
    (hk : k < item.ipLen + item.tcpLen) (hr : k ∉ (mergedGso e packets item o).rewritten) :
    get seg k = get (packetAt packets o.head) k := by
  have hhead : get seg k = get (mergedInput e packets item o) k :=
    hs.header k (by rwa [h.headerLen_eq]) hr
  rw [hhead, h.get_mergedInput hk, get_account h.head_long]
  rw [mem_rewritten h] at hr
  rw [mem_accountBytes]
  tauto

variable (hj : o.members[j]? = some i) (hs : (mergedGso e packets item o).SegmentOf j seg)
include hj hs

theorem Merged.drop_segment : seg.drop (item.ipLen + item.tcpLen) = tailOf item (packetAt packets i) := by
  have hc : (chunks packets item o)[j]? = some (tailOf item (packetAt packets i)) := by
    rw [chunks, getElem?_map, hj]
    rfl
  have hpay := hs.payload
  rw [h.headerLen_eq, h.payload_eq] at hpay
  exact hpay.trans (slice_flatten h.chunked hc)

theorem Merged.length_segment : seg.length = (packetAt packets i).length := by
  obtain ⟨m, -, -, -, hlen⟩ := h.isMeta hj
  have hdrop := congrArg length (h.drop_segment hj hs)
  have hle := hs.length
  rw [h.headerLen_eq] at hle
  rw [tailOf, length_drop, length_drop] at hdrop
  omega

theorem Merged.flags_segment (hf : o.fragments ≠ []) :
    get seg (item.ipLen + 13) = get (packetAt packets i) (item.ipLen + 13) := by
  obtain ⟨m, hm, hp, hip, -⟩ := h.isMeta hj
  have hflags : get seg (item.ipLen + 13) = if j + 1 < (mergedGso e packets item o).count then
      get (mergedInput e packets item o) (item.ipLen + 13) &&& ~~~0x09
      else get (mergedInput e packets item o) (item.ipLen + 13) := hs.flags rfl
  have horig := hm.flags
  rw [hip] at horig
  rw [hflags, h.count_eq hf, h.flags_mergedInput hf, horig]
  have hlt := (List.getElem?_eq_some_iff.mp hj).1
  by_cases hlast : j + 1 < o.members.length
  · rw [if_pos hlast, (hp.inner hlast).2]
    cases item.psh <;> rfl
  · rw [if_neg hlast, (hp.last (by omega)).2.1]

theorem Merged.sequence_segment :
    num 4 seg (item.ipLen + 4) = num 4 (packetAt packets i) (item.ipLen + 4) := by
  obtain ⟨m, hm, hp, hip, -⟩ := h.isMeta hj
  obtain ⟨m0, hm0, hp0, hip0, hlen0⟩ := h.head_meta
  have h20 := h.tcpLen_bounds
  have hlen := h.length_mergedInput
  have hseq : num 4 seg (item.ipLen + 4) =
      (num 4 (mergedInput e packets item o) (item.ipLen + 4) + j * item.gsoSize) % 2 ^ 32 :=
    hs.sequence rfl
  have hhead : num 4 (mergedInput e packets item o) (item.ipLen + 4) =
      num 4 (packetAt packets o.head) (item.ipLen + 4) := by
    have hle := h.le_ipLen
    refine num_congr (by omega) (by omega) fun k hk hk' => ?_
    rw [h.get_mergedInput (by omega), get_account h.head_long (by rw [mem_accountBytes]; omega)]
  have hs0 := hp0.seq
  rw [hm0.seq, hip0, zero_mul] at hs0
  have hs1 := hp.seq
  rw [hm.seq, hip] at hs1
  rw [hseq, hhead, hs0, hs1, mod_add_mod, add_zero]

theorem Merged.lengthField_segment : num 2 seg (if item.key.v6 then 4 else 2) =
      num 2 (packetAt packets i) (if item.key.v6 then 4 else 2) := by
  obtain ⟨m, hm, hp, -, -⟩ := h.isMeta hj
  have hlen := h.length_segment hj hs
  have hver := hm.version
  rw [hp.key] at hver
  cases hv : item.key.v6 with
  | true =>
    have h6 := tcpVersion_v6 (hv ▸ hver)
    have hseg := hs.payloadLen (h.v6_eq.trans hv)
    simp only [if_true]
    omega
  | false =>
    have h4 := tcpVersion_v4 (hv ▸ hver)
    have hseg := hs.totalLen (h.v6_eq.trans hv)
    simp only [Bool.false_eq_true, if_false]
    omega

/-- A segment has the header bytes of the packet it came from. -/
theorem Merged.get_header (hf : o.fragments ≠ []) {k : ℕ} (hk : k < item.ipLen + item.tcpLen)
    (hun : k ∉ unkept item.key.v6) : get seg k = get (packetAt packets i) k := by
  have h20 := h.tcpLen_bounds
  have hlen := h.length_segment hj hs
  obtain ⟨m, -, -, -, horig⟩ := h.isMeta hj
  have hip := h.ipLen
  by_cases hpl : k ∈ placed item.key.v6
  · have hlenField := h.lengthField_segment hj hs
    have hseq := slice_eq_of_num_eq (by omega) (by omega) (h.sequence_segment hj hs)
    have hflags := h.flags_segment hj hs hf
    have hcases : ((if item.key.v6 then 4 else 2) ≤ k ∧ k < (if item.key.v6 then 4 else 2) + 2) ∨
        (item.ipLen + 4 ≤ k ∧ k < item.ipLen + 4 + 4) ∨ k = item.ipLen + 13 := by
      rw [hip]
      simp only [placed, map_cons, map_nil, mem_append, mem_cons, not_mem_nil, or_false] at hpl
      cases hv : item.key.v6 <;> simp only [hv, ipLenOf] at hpl ⊢ <;> simp at hpl ⊢ <;> omega
    rcases hcases with hk' | hk' | rfl
    · have hle : (if item.key.v6 then 4 else 2) ≤ 4 := by split_ifs <;> omega
      exact get_of_slice_eq (slice_eq_of_num_eq (by omega) (by omega) hlenField) hk'.1 hk'.2
    · exact get_of_slice_eq hseq hk'.1 hk'.2
    · exact hflags
  · have hr : k ∉ (mergedGso e packets item o).rewritten := by
      rw [mem_rewritten h]
      rw [hip]
      simp only [placed, unkept, map_cons, map_nil, mem_append, mem_cons,
        not_mem_nil, or_false] at hpl hun
      cases hv : item.key.v6 <;> simp only [hv, ipLenOf] at hpl hun ⊢ <;> simp at hpl hun ⊢ <;> omega
    rw [h.get_segment hs hk hr, h.same_bytes (mem_of_getElem? hj) hk hun hpl]

/-- Splitting a merged frame restores each member. -/
theorem Merged.restored (hf : o.fragments ≠ []) :
    Restored item.key.v6 (packetAt packets i) seg := by
  have h20 := h.tcpLen_bounds
  have hip := h.ipLen
  have hle := h.le_ipLen
  obtain ⟨m, hm, hp, hmip, -⟩ := h.isMeta hj
  obtain ⟨m0, hm0, hp0, hmip0, -⟩ := h.head_meta
  refine ⟨h.length_segment hj hs, fun k hk => ?_, ?_, fun hv => ?_⟩
  · by_cases hlt : k < item.ipLen + item.tcpLen
    · exact h.get_header hj hs hf hlt hk
    · obtain ⟨d, rfl⟩ := Nat.exists_eq_add_of_le (not_lt.mp hlt)
      have hdrop := congrArg (fun l => get l d) (h.drop_segment hj hs)
      simpa only [tailOf, Bytes.get, getD_eq_getElem?_getD, getElem?_drop] using hdrop
  · have hseg := h.get_segment hs (k := item.ipLen + 12) (by omega) (by rw [mem_rewritten h]; omega)
    have htl := hm.tcpLen
    have htl0 := hm0.tcpLen
    rw [hp.tcpLen, hmip] at htl
    rw [hp0.tcpLen, hmip0] at htl0
    rw [← hip, hseg]
    refine BitVec.eq_of_toNat_eq ?_
    omega
  · have hseg := h.get_segment hs (k := 1) (by omega) (by rw [mem_rewritten h]; omega)
    have hlike := h.alike i (mem_of_getElem? hj)
    simp only [likeness, hv, likeIp, if_true, Prod.mk.injEq, cons.injEq, and_true] at hlike
    rw [hseg, hlike.1.2.1]

end

end

end Rustscale.Tun
