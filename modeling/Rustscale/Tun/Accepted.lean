import Rustscale.Tun.SplitLoop

/-! The frames that the splitter accepts, and what it does with one. -/
namespace Rustscale.Tun
open Octets Bytes Checks Except TunPacketBatch

namespace Frame

def ofRaw (e : Endian) (raw : List Byte) : Frame where
  input := raw.drop virtioNetHdrLen
  tcp := get raw 1 = gsoTcpv4 ∨ get raw 1 = gsoTcpv6
  cs := ofBytes e (slice raw 6 2)
  gsoSize := ofBytes e (slice raw 4 2)

/-- The frames that pass all checks of a split. -/
structure Accepted (e : Endian) (raw : List Byte) : Prop where
  long : virtioNetHdrLen ≤ raw.length
  gsoType : get raw 1 = gsoTcpv4 ∨ get raw 1 = gsoUdpL4 ∨ get raw 1 = gsoTcpv6
  csumOffset : ofBytes e (slice raw 8 2) = (ofRaw e raw).csumOffset
  gsoSize : 0 < (ofRaw e raw).gsoSize
  headers : (ofRaw e raw).headerLen ≤ (ofRaw e raw).input.length
  tcp : (ofRaw e raw).tcp = true → 20 ≤ (ofRaw e raw).transportHeaderLen
  v4 : (ofRaw e raw).v6 = false → get (ofRaw e raw).input 0 >>> 4 = 4 ∧ get raw 1 ≠ gsoTcpv6 ∧
    20 ≤ (ofRaw e raw).ipLen ∧ (ofRaw e raw).cs = (ofRaw e raw).ipLen
  v6 : (ofRaw e raw).v6 = true → get raw 1 ≠ gsoTcpv4 ∧ 40 ≤ (ofRaw e raw).cs

def header (e : Endian) (raw : List Byte) : VirtioHdr where
  flags := get raw 0
  gsoType := get raw 1
  hdrLen := BitVec.ofNat 16 (ofBytes e (slice raw 2 2))
  gsoSize := BitVec.ofNat 16 (ofBytes e (slice raw 4 2))
  csumStart := BitVec.ofNat 16 (ofBytes e (slice raw 6 2))
  csumOffset := BitVec.ofNat 16 (ofBytes e (slice raw 8 2))

section
variable {e : Endian} {raw : List Byte} {batch batch' : TunPacketBatch}

theorem index_eq {i : ℕ} (h : i < raw.length) : index raw i = .ok (get raw i) := by
  simp [index, Bytes.get, h, okOr]

theorem native16_eq {i : ℕ} (h : i + 2 ≤ raw.length) :
    native16 e raw i = .ok (BitVec.ofNat 16 (ofBytes e (slice raw i 2))) := by
  have hs : slice raw i 2 = [get raw i, get raw (i + 1)] := by
    refine ext_get (by rw [length_slice h]; rfl) fun k hk => ?_
    rw [length_slice h] at hk
    rw [get_slice, if_pos hk]
    interval_cases k <;> rfl
  simp only [native16, index_eq (show i < raw.length by omega),
    index_eq (show i + 1 < raw.length by omega), ok_bind, hs]
  rfl

theorem virtioHeader_eq (h : virtioNetHdrLen ≤ raw.length) :
    virtioHeader e raw = .ok (header e raw) := by
  have h10 : 10 ≤ raw.length := h
  simp only [virtioHeader, h, decide_true, ensure_true, ok_bind,
    index_eq (show 0 < raw.length by omega), index_eq (show 1 < raw.length by omega),
    native16_eq (show 2 + 2 ≤ raw.length by omega), native16_eq (show 4 + 2 ≤ raw.length by omega),
    native16_eq (show 6 + 2 ≤ raw.length by omega), native16_eq (show 8 + 2 ≤ raw.length by omega)]
  rfl

theorem toNat_ofNat_ofBytes (i : ℕ) :
    (BitVec.ofNat 16 (ofBytes e (slice raw i 2))).toNat = ofBytes e (slice raw i 2) := by
  have hlt := ofBytes_lt e (slice raw i 2)
  have hlen : (slice raw i 2).length ≤ 2 := by
    rw [slice, List.length_take]
    exact Nat.min_le_left _ _
  have hpow := Nat.pow_le_pow_right (show 0 < 256 by decide) hlen
  rw [BitVec.toNat_ofNat]
  exact Nat.mod_eq_of_lt (hlt.trans_le hpow)

/-- The transport header length is checked, and only then used. -/
theorem ipHeader_eq_ok {input : List Byte} {gsoType first : Byte} {cs ipLen off len : ℕ} :
    ipHeader input gsoType cs first = .ok (ipLen, off, len) ↔
      (first >>> 4 = 4 ∧ (gsoType = gsoTcpv4 ∨ gsoType = gsoUdpL4) ∧
        (20 ≤ ipLen ∧ ipLen ≤ input.length) ∧ ipLen = (first &&& 0x0f).toNat * 4 ∧
        off = 12 ∧ len = 4) ∨
      (first >>> 4 = 6 ∧ (gsoType = gsoTcpv6 ∨ gsoType = gsoUdpL4) ∧ 40 ≤ input.length ∧
        40 ≤ cs ∧ ipLen = 40 ∧ off = 8 ∧ len = 16) := by
  have hnibble : (first &&& 0x0f).toNat * 4 ≤ 60 := by
    have : (first &&& 0x0f).toNat ≤ 15 := by
      rw [BitVec.toNat_and]
      exact Nat.and_le_right
    omega
  unfold ipHeader
  split_ifs with h4 h6
  · simp only [bind_eq_ok, ensure_eq_ok, exists_unit, decide_eq_true_eq, pure, Except.pure,
      Except.ok.injEq, Prod.mk.injEq, h4, true_and]
    constructor
    · rintro ⟨ht, ⟨⟨h20, -⟩, hlen⟩, rfl, rfl, rfl⟩
      exact .inl ⟨ht, ⟨h20, hlen⟩, rfl, rfl, rfl⟩
    · rintro (⟨ht, ⟨h20, hlen⟩, rfl, rfl, rfl⟩ | ⟨h, -⟩)
      · exact ⟨ht, ⟨⟨h20, hnibble⟩, hlen⟩, rfl, rfl, rfl⟩
      · exact absurd h (by decide)
  · simp only [bind_eq_ok, ensure_eq_ok, exists_unit, decide_eq_true_eq, pure, Except.pure,
      Except.ok.injEq, Prod.mk.injEq, h6, true_and]
    constructor
    · rintro ⟨ht, hlen, hcs, rfl, rfl, rfl⟩
      exact .inr ⟨ht, hlen, hcs, rfl, rfl, rfl⟩
    · rintro (⟨h, -⟩ | ⟨ht, hlen, hcs, rfl, rfl, rfl⟩)
      · exact absurd h (by decide)
      · exact ⟨ht, hlen, hcs, rfl, rfl, rfl⟩
  · simp only [h4, h6, false_and, or_self]

/-- A UDP header has 8 bytes; a TCP header the length in its data offset, at least 20. -/
theorem transportHeader_eq_ok {input : List Byte} {gsoType : Byte} {cs len : ℕ} (hcs : cs < 2 ^ 16) :
    transportHeader input gsoType cs = .ok len ↔
      (gsoType = gsoUdpL4 ∧ len = 8) ∨ (gsoType ≠ gsoUdpL4 ∧ cs + 12 < input.length ∧
        len = (get input (cs + 12) >>> 4).toNat * 4 ∧ 20 ≤ len) := by
  have hnibble : (get input (cs + 12) >>> 4).toNat * 4 ≤ 60 := by
    have : (get input (cs + 12) >>> 4).toNat < 16 := by
      have hlt := (get input (cs + 12)).isLt
      simp only [BitVec.toNat_ushiftRight, Nat.shiftRight_eq_div_pow]
      omega
    omega
  unfold transportHeader
  split_ifs with hu
  · simp [hu, pure, Except.pure, eq_comm]
  · rw [add_eq (by omega), ok_bind]
    simp only [bind_eq_ok, okOr_eq_ok, ensure_eq_ok, exists_unit, decide_eq_true_eq, pure,
      Except.pure, Except.ok.injEq, hu, false_and, false_or, ne_eq, not_false_eq_true, true_and]
    constructor
    · rintro ⟨byte, hb, ⟨h20, -⟩, rfl⟩
      obtain ⟨hlt, hbyte⟩ := List.getElem?_eq_some_iff.mp hb
      have hget : get input (cs + 12) = byte := by simp [Bytes.get, hb]
      exact ⟨hlt, by rw [hget], h20⟩
    · rintro ⟨hlt, rfl, h20⟩
      exact ⟨get input (cs + 12), by simp [Bytes.get, hlt], ⟨h20, hnibble⟩, rfl⟩

theorem ofBytes_slice_lt (e : Endian) (raw : List Byte) (i : ℕ) :
    ofBytes e (slice raw i 2) < 2 ^ 16 := by
  rw [← toNat_ofNat_ofBytes]
  exact BitVec.isLt _

theorem getRange_drop (h : virtioNetHdrLen ≤ raw.length) :
    getRange raw virtioNetHdrLen raw.length = some (ofRaw e raw).input := by
  rw [getRange_eq h le_rfl, slice, List.take_of_length_le (by rw [List.length_drop])]
  rfl

def splitSegments (e : Endian) (f : Frame) : EStateM SplitError TunPacketBatch Unit := do
  lift (ensure (f.count ≤ maxPackets) (.invalid "too many GSO segments"))
  f.gso.segmentsFrom e 0 f.count
  setLen f.count

section
variable (ha : Accepted e raw)
include ha

theorem Accepted.transportHeader_eq :
    transportHeader (ofRaw e raw).input (get raw 1) (ofRaw e raw).cs =
      .ok (ofRaw e raw).transportHeaderLen := by
  have hlt : (ofRaw e raw).cs < 2 ^ 16 := ofBytes_slice_lt e raw 6
  rw [transportHeader_eq_ok hlt]
  have hh := ha.headers
  rw [headerLen] at hh
  rcases ha.gsoType with h | h | h
  case inr.inl =>
    have ht : (ofRaw e raw).tcp = false := by
      simp only [ofRaw, h]
      decide
    exact .inl ⟨h, by simp [transportHeaderLen, ht]⟩
  all_goals
    have ht : (ofRaw e raw).tcp = true := by simp [ofRaw, h]
    have h20 := ha.tcp ht
    exact .inr ⟨by rw [h]; decide, by omega, by simp [transportHeaderLen, ht], h20⟩

theorem Accepted.le_cs : 20 ≤ (ofRaw e raw).cs :=
  le_cs_of (fun hv => (ha.v4 hv).2.2) fun hv => (ha.v6 hv).2

theorem Accepted.ipHeader_eq :
    ipHeader (ofRaw e raw).input (get raw 1) (ofRaw e raw).cs (get (ofRaw e raw).input 0) =
      .ok ((ofRaw e raw).ipLen, (ofRaw e raw).addressOffset, (ofRaw e raw).addressLen) := by
  rw [ipHeader_eq_ok]
  have hh := ha.headers
  rw [headerLen] at hh
  cases hv : (ofRaw e raw).v6 with
  | false =>
    obtain ⟨h4, hne, h20, hcs⟩ := ha.v4 hv
    refine .inl ⟨h4, ?_, ⟨h20, by omega⟩, ?_, ?_, ?_⟩
    · rcases ha.gsoType with h | h | h
      · exact .inl h
      · exact .inr h
      · exact absurd h hne
    all_goals simp [ipLen, addressOffset, addressLen, hv]
  | true =>
    obtain ⟨hne, h40⟩ := ha.v6 hv
    refine .inr ⟨of_decide_eq_true hv, ?_, by omega, h40, ?_, ?_, ?_⟩
    · rcases ha.gsoType with h | h | h
      · exact absurd h hne
      · exact .inr h
      · exact .inl h
    all_goals simp [ipLen, addressOffset, addressLen, hv]

theorem Accepted.csumOffset_le :
    (ofRaw e raw).csumOffset + 2 ≤ (ofRaw e raw).transportHeaderLen := csumOffset_le_of ha.tcp

end

theorem transportHeaderLen_le (f : Frame) : f.transportHeaderLen ≤ 60 := by
  have hlt := (get f.input (f.cs + 12)).isLt
  unfold transportHeaderLen
  split_ifs
  · simp only [BitVec.toNat_ushiftRight, Nat.shiftRight_eq_div_pow]
    omega
  · decide

section
variable (e : Endian) (raw : List Byte)

theorem tcp_ofRaw : (ofRaw e raw).tcp = decide (get raw 1 = gsoTcpv4 ∨ get raw 1 = gsoTcpv6) := rfl

theorem cs_lt : (ofRaw e raw).cs < 2 ^ 16 := ofBytes_slice_lt e raw 6

theorem toNat_gsoSize :
    (header e raw).gsoSize.toNat = (ofRaw e raw).gsoSize := toNat_ofNat_ofBytes 4

end

section
variable (ha : Accepted e raw)
include ha

/-- On an accepted frame the checks pass and the split proper runs. -/
theorem Accepted.inner_eq :
    splitVirtioInner e raw = splitGso e (ofRaw e raw).input (header e raw) (ofRaw e raw).cs
      ((ofRaw e raw).cs + (ofRaw e raw).csumOffset) (ofRaw e raw).headerLen
      (ofRaw e raw).transportHeaderLen := by
  have hcs : (header e raw).csumStart.toNat = (ofRaw e raw).cs := toNat_ofNat_ofBytes 6
  have hoff : (header e raw).csumOffset.toNat = (ofRaw e raw).csumOffset :=
    (toNat_ofNat_ofBytes 8).trans ha.csumOffset
  have htype : (header e raw).gsoType = get raw 1 := rfl
  have hh := ha.headers
  have hcl := ha.csumOffset_le
  have hcslt := cs_lt e raw
  have hthl := transportHeaderLen_le (ofRaw e raw)
  rw [headerLen] at hh ⊢
  have hnone : get raw 1 ≠ gsoNone := by
    rcases ha.gsoType with h | h | h <;> rw [h] <;> decide
  have hzero : (header e raw).gsoSize ≠ 0 := by
    intro h0
    have := ha.gsoSize
    rw [← toNat_gsoSize, h0] at this
    exact absurd this (by decide)
  have hcsum := add_eq (n := (ofRaw e raw).cs) (o := (ofRaw e raw).csumOffset) (by omega)
  have hcsum2 := add_eq (n := (ofRaw e raw).cs + (ofRaw e raw).csumOffset) (o := 2) (by omega)
  have hhl := add_eq (n := (ofRaw e raw).cs) (o := (ofRaw e raw).transportHeaderLen) (by omega)
  have hbound : (ofRaw e raw).cs + (ofRaw e raw).csumOffset + 2 ≤ (ofRaw e raw).input.length := by
    omega
  simp only [splitVirtioInner, virtioHeader_eq ha.long, lift_ok_bind, getRange_drop (e := e) ha.long,
    okOr_some, htype, hnone, false_or, ha.gsoType, decide_true, ensure_true, ne_eq,
    not_false_eq_true, true_implies, hzero, hcs, hoff, hcsum, hcsum2, ok_bind, hbound, if_false,
    ha.transportHeader_eq, hhl, hh]

theorem Accepted.v4_eq : decide (get (ofRaw e raw).input 0 >>> 4 = 4) = !(ofRaw e raw).v6 := by
  cases hv : (ofRaw e raw).v6 with
  | false => simpa using (ha.v4 hv).1
  | true =>
    have h6 : get (ofRaw e raw).input 0 >>> 4 = 6 := of_decide_eq_true hv
    rw [h6]
    decide

theorem Accepted.sequence_eq :
    (if (ofRaw e raw).tcp = true then do be32 (ofRaw e raw).input (← add (ofRaw e raw).cs 4)
      else pure 0 : Except SplitError ℕ) =
      .ok (ofRaw e raw).gso.sequence := by
  have hh := ha.headers
  have hcslt := cs_lt e raw
  rw [headerLen] at hh
  cases ht : (ofRaw e raw).tcp with
  | false => simp [gso, ht, pure, Except.pure]
  | true =>
    have h20 := ha.tcp ht
    simp only [if_true, add_eq (n := (ofRaw e raw).cs) (o := 4) (by omega), ok_bind, be32, gso, ht]
    exact be_eq (by omega) (by omega)

theorem Accepted.baseId_eq :
    (if get (ofRaw e raw).input 0 >>> 4 = 4 then be16 (ofRaw e raw).input 4 else pure 0) =
      .ok (ofRaw e raw).gso.baseId := by
  have hh := ha.headers
  have h20 := ha.le_cs
  have hv4 := ha.v4_eq
  rw [headerLen] at hh
  cases hv : (ofRaw e raw).v6 with
  | true =>
    have h4 : get (ofRaw e raw).input 0 >>> 4 ≠ 4 := by simpa [hv] using hv4
    rw [if_neg h4]
    simp [gso, hv, pure, Except.pure]
  | false =>
    have h4 : get (ofRaw e raw).input 0 >>> 4 = 4 := (ha.v4 hv).1
    rw [if_pos h4]
    simp only [gso, hv, be16]
    exact be_eq (by omega) (by decide)

/-- An accepted frame shorter than one segment is copied; any other is split. -/
theorem Accepted.run_eq (batch : TunPacketBatch) : (splitVirtioInner e raw).run batch =
      if (ofRaw e raw).payload.length < (ofRaw e raw).gsoSize then
        (copySingle e (ofRaw e raw).input (get raw 0) (ofRaw e raw).cs
          ((ofRaw e raw).cs + (ofRaw e raw).csumOffset)).run batch
      else ((ofRaw e raw).splitSegments e).run batch := by
  have htype : (header e raw).gsoType = get raw 1 := rfl
  have hh := ha.headers
  have hcl := ha.csumOffset_le
  have h20 := ha.le_cs
  have hcslt := cs_lt e raw
  have hthl := transportHeaderLen_le (ofRaw e raw)
  rw [headerLen] at hh
  have hfirst : (ofRaw e raw).input.head? = some (get (ofRaw e raw).input 0) := by
    rw [List.head?_eq_getElem?, List.getElem?_eq_getElem (by omega)]
    simp [Bytes.get, List.getElem?_eq_getElem (show 0 < (ofRaw e raw).input.length by omega)]
  have hexp : add (ofRaw e raw).cs (if (ofRaw e raw).tcp = true then 16 else 6) =
      .ok ((ofRaw e raw).cs + (ofRaw e raw).csumOffset) := add_eq (by split_ifs <;> omega)
  have hoffs : checkOffsets (get (ofRaw e raw).input 0 >>> 4) (ofRaw e raw).ipLen (ofRaw e raw).cs
      ((ofRaw e raw).cs + (ofRaw e raw).csumOffset) ((ofRaw e raw).cs + (ofRaw e raw).csumOffset)
      (ofRaw e raw).transportHeaderLen = .ok () := by
    rw [checkOffsets, add_eq (by omega), add_eq (by omega)]
    simp only [ok_bind, bind_eq_ok, ensure_eq_ok, exists_unit, decide_eq_true_eq]
    refine ⟨fun h4 => ?_, trivial, by omega⟩
    have hv : (ofRaw e raw).v6 = false := by
      simpa [h4] using ha.v4_eq
    exact (ha.v4 hv).2.2.2
  have hsub : sub (ofRaw e raw).input.length
      ((ofRaw e raw).cs + (ofRaw e raw).transportHeaderLen) = .ok (ofRaw e raw).payload.length := by
    rw [sub, if_pos hh, length_payload, headerLen]
  have htcp : decide ((ofRaw e raw).tcp = true → 20 ≤ (ofRaw e raw).transportHeaderLen) = true :=
    decide_eq_true ha.tcp
  rw [ha.inner_eq]
  simp only [splitGso, htype, hfirst, okOr_some, lift_ok_bind, ha.ipHeader_eq, ← tcp_ofRaw e raw,
    hexp, hoffs, htcp, ensure_true, headerLen, hsub, toNat_gsoSize]
  by_cases hlt : (ofRaw e raw).payload.length < (ofRaw e raw).gsoSize
  · simp only [hlt, if_true]
    rfl
  · have hdiv : divCeil (ofRaw e raw).payload.length (ofRaw e raw).gsoSize =
        .ok (ofRaw e raw).count := if_neg ha.gsoSize.ne'
    have hpos : (ofRaw e raw).count ≠ 0 := by
      have := ha.gsoSize
      rw [count, Nat.div_ne_zero_iff]
      omega
    simp only [hlt, if_false, hdiv, lift_ok_bind, ne_eq, hpos, not_false_eq_true, decide_true,
      ensure_true, ha.sequence_eq, ha.baseId_eq, ha.v4_eq]
    rfl

end

theorem tcp_eq_false_iff (hg : get raw 1 = gsoTcpv4 ∨ get raw 1 = gsoUdpL4 ∨ get raw 1 = gsoTcpv6) :
    (ofRaw e raw).tcp = false ↔ get raw 1 = gsoUdpL4 := by
  rw [tcp_ofRaw]
  rcases hg with h | h | h <;> rw [h] <;> decide

/-- A split that succeeds has passed each check of the frame. -/
theorem checks_of_splitGso {f : Frame} {hdr : VirtioHdr} {csumAt : ℕ} (hcslt : f.cs < 2 ^ 16)
    (htcp : f.tcp = decide (hdr.gsoType = gsoTcpv4 ∨ hdr.gsoType = gsoTcpv6))
    (h : (splitGso e f.input hdr f.cs csumAt f.headerLen f.transportHeaderLen).run batch =
      .ok () batch') : csumAt = f.cs + f.csumOffset ∧
      (f.v6 = false → get f.input 0 >>> 4 = 4 ∧
        (hdr.gsoType = gsoTcpv4 ∨ hdr.gsoType = gsoUdpL4) ∧ 20 ≤ f.ipLen ∧ f.cs = f.ipLen) ∧
      (f.v6 = true → (hdr.gsoType = gsoTcpv6 ∨ hdr.gsoType = gsoUdpL4) ∧ 40 ≤ f.cs) := by
  have hexp : add f.cs (if f.tcp = true then 16 else 6) = .ok (f.cs + f.csumOffset) :=
    add_eq (by split_ifs <;> omega)
  have hthl := transportHeaderLen_le f
  simp only [splitGso, ← htcp, hexp, run_lift_bind_eq_ok, okOr_eq_ok] at h
  obtain ⟨first, hfirst, ⟨ipLen, off, len⟩, hip, csum, hcsum, _, hoffs, -⟩ := h
  have hget : get f.input 0 = first := by
    rw [List.head?_eq_getElem?] at hfirst
    simp [Bytes.get, hfirst]
  simp only [checkOffsets, bind_eq_ok, ensure_eq_ok, exists_unit, decide_eq_true_eq] at hoffs
  obtain ⟨hver, rfl, -⟩ := hoffs
  refine ⟨(ok.inj hcsum).symm, ?_, ?_⟩
  · intro hv
    have hv' : first >>> 4 ≠ 6 := hget ▸ of_decide_eq_false hv
    rcases ipHeader_eq_ok.mp hip with ⟨h4, ht, ⟨h20, -⟩, rfl, -⟩ | ⟨h6, -⟩
    · have hlen : f.ipLen = (first &&& 0x0f).toNat * 4 := by simp [ipLen, hv, hget]
      exact ⟨hget ▸ h4, ht, hlen ▸ h20, hlen ▸ hver h4⟩
    · exact absurd h6 hv'
  · intro hv
    have hv' : first >>> 4 = 6 := hget ▸ of_decide_eq_true hv
    rcases ipHeader_eq_ok.mp hip with ⟨h4, -⟩ | ⟨-, ht, -, h40, -⟩
    · rw [hv'] at h4
      exact absurd h4 (by decide)
    · exact ⟨ht, h40⟩

/-- Only accepted frames are split. -/
theorem accepted_of_ok (hg : get raw 1 ≠ gsoNone)
    (h : (splitVirtioInner e raw).run batch = .ok () batch') : Accepted e raw := by
  rw [splitVirtioInner, run_lift_bind_eq_ok] at h
  obtain ⟨hdr, hhdr, h⟩ := h
  have hlong : virtioNetHdrLen ≤ raw.length := by
    simp only [virtioHeader, bind_eq_ok, ensure_eq_ok, exists_unit, decide_eq_true_eq] at hhdr
    exact hhdr.1
  obtain rfl : header e raw = hdr := by simpa [virtioHeader_eq hlong] using hhdr
  have htype : (header e raw).gsoType = get raw 1 := rfl
  have hcs : (header e raw).csumStart.toNat = (ofRaw e raw).cs := toNat_ofNat_ofBytes 6
  have hcslt := cs_lt e raw
  have hofflt := (header e raw).csumOffset.isLt
  simp only [run_lift_bind_eq_ok, okOr_eq_ok, getRange_drop (e := e) hlong, Option.some.injEq,
    exists_eq_left', ensure_eq_ok, exists_unit, decide_eq_true_eq, htype, hg, false_or, hcs,
    add_eq (show (ofRaw e raw).cs + (header e raw).csumOffset.toNat < 2 ^ 64 by omega),
    add_eq (show (ofRaw e raw).cs + (header e raw).csumOffset.toNat + 2 < 2 ^ 64 by omega),
    ok.injEq, ok_bind, if_false, ne_eq, not_false_eq_true, true_implies,
    transportHeader_eq_ok hcslt] at h
  obtain ⟨hgso, hzero, -, thl, hthl, hl, hadd, hheaders, hrun⟩ := h
  obtain ⟨rfl, h20⟩ : thl = (ofRaw e raw).transportHeaderLen ∧
      ((ofRaw e raw).tcp = true → 20 ≤ (ofRaw e raw).transportHeaderLen) := by
    rcases hthl with ⟨hu, rfl⟩ | ⟨hu, -, rfl, h20⟩
    · have ht := (tcp_eq_false_iff (e := e) hgso).mpr hu
      simp [transportHeaderLen, ht]
    · have ht : (ofRaw e raw).tcp = true := by
        rw [← Bool.not_eq_false, tcp_eq_false_iff hgso]
        exact hu
      simp only [transportHeaderLen, ht, if_true, true_and]
      exact fun _ => h20
  obtain rfl : (ofRaw e raw).headerLen = hl := by
    rw [add_eq (by have := transportHeaderLen_le (ofRaw e raw); omega)] at hadd
    exact ok.inj hadd
  obtain ⟨hcsum, h4, h6⟩ := checks_of_splitGso hcslt (tcp_ofRaw e raw) hrun
  exact {
    long := hlong
    gsoType := hgso
    csumOffset := by
      rw [← toNat_ofNat_ofBytes]
      exact Nat.add_left_cancel hcsum
    gsoSize := by
      rw [← toNat_gsoSize, Nat.pos_iff_ne_zero]
      exact fun h0 => hzero (BitVec.eq_of_toNat_eq h0)
    headers := hheaders
    tcp := h20
    v4 := fun hv => by
      obtain ⟨hver, ht, h20, hcs⟩ := h4 hv
      refine ⟨hver, ?_, h20, hcs⟩
      rw [← htype]
      rcases ht with ht | ht <;> rw [ht] <;> decide
    v6 := fun hv => by
      obtain ⟨ht, h40⟩ := h6 hv
      refine ⟨?_, h40⟩
      rw [← htype]
      rcases ht with ht | ht <;> rw [ht] <;> decide }

end

end Frame

end Rustscale.Tun
