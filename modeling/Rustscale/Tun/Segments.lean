import Rustscale.Tun.Split

/-! What the segments of a GSO frame are, and that the splitter makes them. -/
namespace Rustscale.Tun
open Octets Bytes Checks List Nat

/-- A packet with the size that it is to be split at. -/
structure Frame where
  input : List Byte
  tcp : Bool
  cs : ℕ
  gsoSize : ℕ

namespace Frame

variable (e : Endian) (f : Frame)

def v6 : Bool := decide (get f.input 0 >>> 4 = 6)

def ipLen : ℕ := if f.v6 then 40 else (get f.input 0 &&& 0x0f).toNat * 4

def transportHeaderLen : ℕ :=
  if f.tcp then (get f.input (f.cs + 12) >>> 4).toNat * 4 else 8

def headerLen : ℕ := f.cs + f.transportHeaderLen

def payload : List Byte := f.input.drop f.headerLen

def csumOffset : ℕ := if f.tcp then 16 else 6

def protocol : Byte := if f.tcp then 6 else 17

def addressOffset : ℕ := if f.v6 then 8 else 12

def addressLen : ℕ := if f.v6 then 16 else 4

def count : ℕ := (f.payload.length + f.gsoSize - 1) / f.gsoSize

/-- The header bytes that differ from segment to segment. -/
def rewritten : List ℕ :=
  (if f.v6 then [4, 5] else [2, 3, 4, 5, 10, 11]) ++
    (if f.tcp then [4, 5, 6, 7, 13, 16, 17] else [4, 5, 6, 7]).map (f.cs + ·)

/-- A segment has its piece of the payload, and headers that fit it. -/
structure SegmentOf (f : Frame) (i : ℕ) (seg : List Byte) : Prop where
  length : f.headerLen ≤ seg.length
  payload : seg.drop f.headerLen = slice f.payload (i * f.gsoSize) f.gsoSize
  header : ∀ k < f.headerLen, k ∉ f.rewritten → get seg k = get f.input k
  totalLen : f.v6 = false → num 2 seg 2 = seg.length
  payloadLen : f.v6 = true → num 2 seg 4 + 40 = seg.length
  ident : f.v6 = false → num 2 seg 4 = (num 2 f.input 4 + i) % 2 ^ 16
  sequence : f.tcp = true →
    num 4 seg (f.cs + 4) = (num 4 f.input (f.cs + 4) + i * f.gsoSize) % 2 ^ 32
  flags : f.tcp = true → get seg (f.cs + 13) =
    if i + 1 < f.count then get f.input (f.cs + 13) &&& ~~~0x09 else get f.input (f.cs + 13)
  udpLen : f.tcp = false → num 2 seg (f.cs + 4) + f.cs = seg.length
  ipChecksum : f.v6 = false → onesSum (wordSum (seg.take f.ipLen)) = 65535
  checksum : onesSum (pseudoSum f.protocol (slice seg f.addressOffset f.addressLen)
    (slice seg (f.addressOffset + f.addressLen) f.addressLen) (seg.length - f.cs) +
      wordSum (seg.drop f.cs)) = 65535

/-- Frames whose headers are inside them. -/
structure Fits (f : Frame) : Prop where
  v4 : f.v6 = false → 20 ≤ f.ipLen ∧ f.cs = f.ipLen
  v6 : f.v6 = true → 40 ≤ f.cs
  headers : f.headerLen ≤ f.input.length
  tcp : f.tcp = true → 20 ≤ f.transportHeaderLen
  gsoSize : 0 < f.gsoSize
  small : f.headerLen + f.gsoSize < 2 ^ 16
  full : f.gsoSize ≤ f.payload.length

variable (i : ℕ)

def data : List Byte := slice f.payload (i * f.gsoSize) f.gsoSize

def total : ℕ := f.headerLen + (f.data i).length

/-- The bytes before the transport header, but for the checksum. -/
def ipFields : List Byte :=
  if f.v6 then
    writeAt (f.input.take f.cs) 4 (toBytes .big 2 (f.total i - 40))
  else
    writeAt (writeAt (f.input.take f.cs) 2 (toBytes .big 2 (f.total i))) 4
      (toBytes .big 2 ((num 2 f.input 4 + i) % 2 ^ 16))

def ipPart : List Byte :=
  if f.v6 then f.ipFields i else fillChecksum 10 (fun d => checksum e d 0) (f.ipFields i)

def body : List Byte := slice f.input f.cs f.transportHeaderLen ++ f.data i

def sequenced : List Byte :=
  writeAt (f.body i) 4 (toBytes .big 4 ((num 4 f.input (f.cs + 4) + f.gsoSize * i) % 2 ^ 32))

/-- The transport header and the payload, but for the checksum. -/
def transportFields : List Byte :=
  if f.tcp then
    if i + 1 < f.count then
      writeAt (f.sequenced i) 13 [get f.input (f.cs + 13) &&& ~~~0x09]
    else
      f.sequenced i
  else
    writeAt (f.body i) 4 (toBytes .big 2 (f.total i - f.cs))

def transportPart : List Byte :=
  fillChecksum f.csumOffset
    (fun d => checksum e d (pseudo e f.protocol (slice f.input f.addressOffset f.addressLen)
      (slice f.input (f.addressOffset + f.addressLen) f.addressLen) (f.total i - f.cs)))
    (f.transportFields i)

def segment : List Byte := f.ipPart e i ++ f.transportPart e i

section
variable {e : Endian} {f : Frame} {i : ℕ}

theorem Fits.cs_le (h : f.Fits) : f.cs ≤ f.input.length :=
  (le_add_right _ _).trans h.headers

section
variable (h4 : f.v6 = false → 20 ≤ f.ipLen ∧ f.cs = f.ipLen) (h6 : f.v6 = true → 40 ≤ f.cs)
include h4 h6

theorem addresses_le : f.addressOffset + 2 * f.addressLen ≤ f.cs := by
  cases hv : f.v6 with
  | false =>
    have := h4 hv
    simp only [addressOffset, addressLen, hv, Bool.false_eq_true, if_false]
    omega
  | true => simpa [addressOffset, addressLen, hv] using h6 hv

theorem le_cs_of : 20 ≤ f.cs := by
  cases hv : f.v6 with
  | false => exact (h4 hv).2 ▸ (h4 hv).1
  | true => exact (by decide : 20 ≤ 40).trans (h6 hv)

end

theorem csumOffset_le_of (h : f.tcp = true → 20 ≤ f.transportHeaderLen) :
    f.csumOffset + 2 ≤ f.transportHeaderLen := by
  cases ht : f.tcp with
  | false => simp [csumOffset, transportHeaderLen, ht]
  | true =>
    have := h ht
    simp only [csumOffset, ht, if_true]
    omega

theorem Fits.addresses (h : f.Fits) : f.addressOffset + 2 * f.addressLen ≤ f.cs :=
  addresses_le h.v4 h.v6

theorem Fits.csumOffset_le (h : f.Fits) : f.csumOffset + 2 ≤ f.transportHeaderLen :=
  csumOffset_le_of h.tcp

theorem length_data_le : (f.data i).length ≤ f.gsoSize := by
  rw [data, slice, length_take]
  exact min_le_left _ _

theorem Fits.total_lt (h : f.Fits) : f.total i < 2 ^ 16 :=
  (Nat.add_le_add_left length_data_le _).trans_lt h.small

theorem length_take_cs (h : f.Fits) : (f.input.take f.cs).length = f.cs := by
  rw [length_take, min_eq_left h.cs_le]

theorem Fits.le_cs (h : f.Fits) : 20 ≤ f.cs := le_cs_of h.v4 h.v6

variable {o k : ℕ}

section
variable (h : f.Fits)
include h

theorem length_write_ip {v : ℕ} (ho : o ≤ 18) :
    (writeAt (f.input.take f.cs) o (toBytes .big 2 v)).length = f.cs := by
  have := h.le_cs
  rw [length_writeAt (by rw [toBytes_length, length_take_cs h]; omega), length_take_cs h]

theorem length_ipFields : (f.ipFields i).length = f.cs := by
  have := h.le_cs
  unfold ipFields
  split_ifs
  · exact length_write_ip h (by decide)
  · rw [length_writeAt (by rw [toBytes_length, length_write_ip h (by decide)]; omega),
      length_write_ip h (by decide)]

theorem length_ipPart : (f.ipPart e i).length = f.cs := by
  have := h.le_cs
  unfold ipPart
  split_ifs
  · exact length_ipFields h
  · rw [length_fillChecksum (by rw [length_ipFields h]; omega), length_ipFields h]

theorem get_ipFields (hk : k < f.cs) (hne : k ∉ if f.v6 then [4, 5] else [2, 3, 4, 5]) :
    get (f.ipFields i) k = get f.input k := by
  have h20 := h.le_cs
  have hlen : 4 + (toBytes .big 2 (f.total i - 40)).length ≤ (f.input.take f.cs).length := by
    rw [toBytes_length, length_take_cs h]
    omega
  unfold ipFields
  split_ifs with hv
  · rw [if_pos hv] at hne
    simp only [mem_cons, not_mem_nil, or_false, not_or] at hne
    rw [get_writeAt_of_ne hlen (by rw [toBytes_length]; omega), get_take hk]
  · rw [if_neg hv] at hne
    simp only [mem_cons, not_mem_nil, or_false, not_or] at hne
    rw [get_writeAt_of_ne (by rw [toBytes_length, length_write_ip h (by decide)]; omega)
        (by rw [toBytes_length]; omega),
      get_writeAt_of_ne (by rw [toBytes_length, length_take_cs h]; omega)
        (by rw [toBytes_length]; omega), get_take hk]

theorem get_ipPart (hk : k < f.cs) (hne : k ∉ if f.v6 then [4, 5] else [2, 3, 4, 5, 10, 11]) :
    get (f.ipPart e i) k = get f.input k := by
  have h20 := h.le_cs
  unfold ipPart
  split_ifs with hv
  · exact get_ipFields h hk (by simpa [hv] using hne)
  · rw [if_neg hv] at hne
    simp only [mem_cons, not_mem_nil, or_false, not_or] at hne
    rw [get_fillChecksum (by rw [length_ipFields h]; omega) (by omega)]
    refine get_ipFields h hk ?_
    rw [if_neg hv]
    simp only [mem_cons, not_mem_nil, or_false, not_or]
    omega

theorem num_ipPart_of_v6 (hv : f.v6 = true) : num 2 (f.ipPart e i) 4 = f.total i - 40 := by
  have := h.le_cs
  have ht := h.total_lt (i := i)
  rw [ipPart, if_pos hv, ipFields, if_pos hv, num_writeAt (by rw [length_take_cs h]; omega)]
  exact mod_eq_of_lt (by omega)

section
variable (hv : f.v6 = false)
include hv

theorem num_ipPart_of_v4 (ho : o ≤ 8) : num 2 (f.ipPart e i) o = num 2 (f.ipFields i) o := by
  have := h.le_cs
  refine num_congr (by rw [length_ipPart h]; omega) (by rw [length_ipFields h]; omega)
    fun k _ hk => ?_
  simp only [ipPart, hv, Bool.false_eq_true, if_false]
  exact get_fillChecksum (by rw [length_ipFields h]; omega) (by omega)

theorem totalLen_ipPart : num 2 (f.ipPart e i) 2 = f.total i := by
  have := h.le_cs
  have hw := length_write_ip h (o := 2) (v := f.total i) (by decide)
  rw [num_ipPart_of_v4 h hv (by decide)]
  simp only [ipFields, hv, Bool.false_eq_true, if_false]
  rw [num, slice_writeAt_of_disjoint (by rw [toBytes_length, hw]; omega) (by rw [hw]; omega)
    (.inl (by decide)), ← num, num_writeAt (by rw [length_take_cs h]; omega)]
  exact mod_eq_of_lt h.total_lt

theorem ident_ipPart : num 2 (f.ipPart e i) 4 = (num 2 f.input 4 + i) % 2 ^ 16 := by
  have := h.le_cs
  have hw := length_write_ip h (o := 2) (v := f.total i) (by decide)
  rw [num_ipPart_of_v4 h hv (by decide)]
  simp only [ipFields, hv, Bool.false_eq_true, if_false]
  rw [num_writeAt (by rw [hw]; omega)]
  exact mod_mod _ _

theorem ipChecksum_ipPart : onesSum (wordSum (f.ipPart e i)) = 65535 := by
  have := h.le_cs
  simp only [ipPart, hv, Bool.false_eq_true, if_false]
  have hsum : ∀ d, checksum e d 0 = onesSum (0 + wordSum d) :=
    fun d => checksum_eq e d (by decide)
  simpa using onesSum_fillChecksum hsum (by decide)
    (show 10 + 2 ≤ (f.ipFields i).length by rw [length_ipFields h]; omega)

end

theorem length_body : (f.body i).length = f.transportHeaderLen + (f.data i).length := by
  rw [body, length_append, length_slice h.headers]

theorem Fits.le_transportHeaderLen : 8 ≤ f.transportHeaderLen := by
  cases ht : f.tcp with
  | false => simp [transportHeaderLen, ht]
  | true => exact (by decide : 8 ≤ 20).trans (h.tcp ht)

theorem length_sequenced : (f.sequenced i).length = (f.body i).length := by
  have := h.le_transportHeaderLen
  exact length_writeAt (by rw [toBytes_length, length_body h]; omega)

theorem length_transportFields :
    (f.transportFields i).length = f.transportHeaderLen + (f.data i).length := by
  have h8 := h.le_transportHeaderLen
  rw [← length_body h]
  unfold transportFields
  split_ifs with ht
  · have := h.tcp ht
    rw [length_writeAt (by rw [length_sequenced h, length_body h, length_singleton]; omega),
      length_sequenced h]
  · exact length_sequenced h
  · exact length_writeAt (by rw [toBytes_length, length_body h]; omega)

theorem length_transportPart :
    (f.transportPart e i).length = f.transportHeaderLen + (f.data i).length := by
  have := h.csumOffset_le
  rw [transportPart, length_fillChecksum (by rw [length_transportFields h]; omega),
    length_transportFields h]

theorem length_segment : (f.segment e i).length = f.total i := by
  rw [segment, length_append, length_ipPart h, length_transportPart h, total, headerLen, add_assoc]

theorem get_sequenced (hk : k < 4 ∨ 8 ≤ k) : get (f.sequenced i) k = get (f.body i) k := by
  have := h.le_transportHeaderLen
  exact get_writeAt_of_ne (by rw [toBytes_length, length_body h]; omega) (by rwa [toBytes_length])

theorem get_transportFields (hk : k ∉ if f.tcp then [4, 5, 6, 7, 13] else [4, 5]) :
    get (f.transportFields i) k = get (f.body i) k := by
  have h8 := h.le_transportHeaderLen
  unfold transportFields
  split_ifs at hk ⊢ with ht <;> simp only [mem_cons, not_mem_nil, or_false, not_or] at hk
  · have := h.tcp ht
    rw [get_writeAt_of_ne (by rw [length_sequenced h, length_body h, length_singleton]; omega)
      (by rw [length_singleton]; omega), get_sequenced h (by omega)]
  · exact get_sequenced h (by omega)
  · exact get_writeAt_of_ne (by rw [toBytes_length, length_body h]; omega)
      (by rw [toBytes_length]; omega)

theorem get_transportPart (hk : k < f.csumOffset ∨ f.csumOffset + 2 ≤ k) :
    get (f.transportPart e i) k = get (f.transportFields i) k := by
  have := h.csumOffset_le
  exact get_fillChecksum (by rw [length_transportFields h]; omega) hk

theorem get_body (hk : k < f.transportHeaderLen) : get (f.body i) k = get f.input (f.cs + k) := by
  rw [body, get_append, length_slice h.headers, if_pos hk, get_slice, if_pos hk]

theorem sequence_transportPart (ht : f.tcp = true) :
    num 4 (f.transportPart e i) 4 = (num 4 f.input (f.cs + 4) + i * f.gsoSize) % 2 ^ 32 := by
  have h20 := h.tcp ht
  have hc : f.csumOffset = 16 := by simp [csumOffset, ht]
  have hseq : num 4 (f.sequenced i) 4 = (num 4 f.input (f.cs + 4) + i * f.gsoSize) % 2 ^ 32 := by
    rw [sequenced, num_writeAt (by rw [length_body h]; omega), mul_comm i]
    exact mod_mod _ _
  rw [← hseq]
  refine num_congr (by rw [length_transportPart h]; omega)
    (by rw [length_sequenced h, length_body h]; omega) fun k _ hk => ?_
  rw [get_transportPart h (by omega), transportFields, if_pos ht]
  split_ifs
  · exact get_writeAt_of_ne
      (by rw [length_sequenced h, length_body h, length_singleton]; omega) (.inl (by omega))
  · rfl

theorem flags_transportPart (ht : f.tcp = true) : get (f.transportPart e i) 13 =
      if i + 1 < f.count then get f.input (f.cs + 13) &&& ~~~0x09 else get f.input (f.cs + 13) := by
  have h20 := h.tcp ht
  have hc : f.csumOffset = 16 := by simp [csumOffset, ht]
  rw [get_transportPart h (by omega), transportFields, if_pos ht]
  split_ifs
  · rw [get_writeAt (by rw [length_sequenced h, length_body h, length_singleton]; omega)]
    rfl
  · rw [get_sequenced h (by omega), get_body h (by omega)]

theorem udpLen_transportPart (ht : f.tcp = false) :
    num 2 (f.transportPart e i) 4 = f.total i - f.cs := by
  have h8 := h.le_transportHeaderLen
  have hlt := h.total_lt (i := i)
  have hc : f.csumOffset = 6 := by simp [csumOffset, ht]
  have hlen : num 2 (f.transportFields i) 4 = f.total i - f.cs := by
    simp only [transportFields, ht, Bool.false_eq_true, if_false]
    rw [num_writeAt (by rw [length_body h]; omega)]
    exact mod_eq_of_lt (by omega)
  rw [← hlen]
  refine num_congr (by rw [length_transportPart h]; omega)
    (by rw [length_transportFields h]; omega) fun k _ hk => ?_
  exact get_transportPart h (by omega)

theorem checksum_transportPart :
    onesSum (pseudoSum f.protocol (slice f.input f.addressOffset f.addressLen)
      (slice f.input (f.addressOffset + f.addressLen) f.addressLen) (f.total i - f.cs) +
        wordSum (f.transportPart e i)) = 65535 := by
  have hlt := h.total_lt (i := i)
  refine onesSum_fillChecksum (fun d => checksum_pseudo_eq e _ _ _ d (by omega)) ?_ ?_
  · unfold csumOffset
    split_ifs <;> decide
  · have := h.csumOffset_le
    rw [length_transportFields h]
    omega

theorem drop_transportPart : (f.transportPart e i).drop f.transportHeaderLen = f.data i := by
  have hc := h.csumOffset_le
  have hb : (f.body i).drop f.transportHeaderLen = f.data i := by
    rw [body, drop_append_of_le_length (length_slice h.headers).ge,
      drop_eq_nil_of_le (length_slice h.headers).le, nil_append]
  have hlen : ((f.transportPart e i).drop f.transportHeaderLen).length =
      ((f.body i).drop f.transportHeaderLen).length := by
    rw [length_drop, length_drop, length_transportPart h, length_body h]
  rw [← hb]
  refine Bytes.ext_get hlen fun k _ => ?_
  have hdrop : ∀ d : List Byte, get (d.drop f.transportHeaderLen) k =
      get d (f.transportHeaderLen + k) := by
    intro d
    simp [Bytes.get]
  rw [hdrop, hdrop, get_transportPart h (.inr (by omega)), get_transportFields h]
  have h8 := h.le_transportHeaderLen
  split_ifs with ht
  · have := h.tcp ht
    simp only [mem_cons, not_mem_nil, or_false, not_or]
    omega
  · simp only [mem_cons, not_mem_nil, or_false, not_or]
    omega

theorem get_segment_of_lt (hk : k < f.cs) : get (f.segment e i) k = get (f.ipPart e i) k := by
  rw [segment, get_append, length_ipPart h, if_pos hk]

theorem get_segment_of_le (k : ℕ) :
    get (f.segment e i) (f.cs + k) = get (f.transportPart e i) k := by
  rw [segment, get_append, length_ipPart h, if_neg (by omega), Nat.add_sub_cancel_left]

theorem num_segment_of_lt {n : ℕ} (ho : o + n ≤ f.cs) :
    num n (f.segment e i) o = num n (f.ipPart e i) o :=
  num_append_left (by rwa [length_ipPart h])

theorem num_segment_of_le (n o : ℕ) :
    num n (f.segment e i) (f.cs + o) = num n (f.transportPart e i) o := by
  rw [segment, num_append_right (by rw [length_ipPart h]; omega), length_ipPart h,
    Nat.add_sub_cancel_left]

/-- A segment's header differs from the frame's in the rewritten fields only. -/
theorem header_segment (hk : k < f.headerLen) (hne : k ∉ f.rewritten) :
    get (f.segment e i) k = get f.input k := by
  simp only [rewritten, mem_append, not_or] at hne
  rcases lt_or_ge k f.cs with hlt | hge
  · rw [get_segment_of_lt h hlt, get_ipPart h hlt hne.1]
  · obtain ⟨k, rfl⟩ := Nat.exists_eq_add_of_le hge
    have hk' : k < f.transportHeaderLen := lt_of_add_lt_add_left hk
    have hne' : k ∉ if f.tcp then [4, 5, 6, 7, 13, 16, 17] else [4, 5, 6, 7] :=
      fun hmem => hne.2 (mem_map.mpr ⟨k, hmem, rfl⟩)
    rw [get_segment_of_le h, ← get_body h hk']
    cases ht : f.tcp with
    | false =>
      simp only [ht, Bool.false_eq_true, if_false, mem_cons, not_mem_nil, or_false, not_or] at hne'
      rw [get_transportPart h (by simp only [csumOffset, ht]; simp; omega),
        get_transportFields h (by simp [ht]; omega)]
    | true =>
      simp only [ht, if_true, mem_cons, not_mem_nil, or_false, not_or] at hne'
      rw [get_transportPart h (by simp only [csumOffset, ht]; simp; omega),
        get_transportFields h (by simp [ht]; omega)]

theorem slice_segment (ho : f.addressOffset ≤ o)
    (ho' : o + f.addressLen ≤ f.addressOffset + 2 * f.addressLen) :
    slice (f.segment e i) o f.addressLen = slice f.input o f.addressLen := by
  have hend := h.addresses
  have hcs := h.cs_le
  have hle : f.cs ≤ f.total i := (le_add_right _ _).trans (le_add_right _ _)
  refine slice_congr (by rw [length_segment h]; omega) (by omega) fun k hk hk' => ?_
  rw [get_segment_of_lt h (by omega)]
  refine get_ipPart h (by omega) ?_
  split_ifs with hv
  · simp only [addressOffset, hv, if_true] at ho
    simp only [mem_cons, not_mem_nil, or_false, not_or]
    omega
  · simp only [addressOffset, hv, Bool.false_eq_true, if_false] at ho
    simp only [mem_cons, not_mem_nil, or_false, not_or]
    omega

/-- Each segment is what segmentation asks for. -/
theorem segment_spec : f.SegmentOf i (f.segment e i) := by
  have h20 := h.le_cs
  have hle : f.headerLen ≤ f.total i := le_add_right _ _
  have hcs : f.cs ≤ f.headerLen := le_add_right _ _
  have hlen := length_segment h (e := e) (i := i)
  exact {
    length := by rwa [hlen]
    payload := by
      rw [segment, drop_append, length_ipPart h, drop_eq_nil_of_le
        (by rw [length_ipPart h]; exact hcs), nil_append, headerLen, Nat.add_sub_cancel_left,
        drop_transportPart h]
      rfl
    header := fun k => header_segment h
    totalLen := fun hv => by
      rw [num_segment_of_lt h (by omega), totalLen_ipPart h hv, hlen]
    payloadLen := fun hv => by
      have := h.v6 hv
      rw [num_segment_of_lt h (by omega), num_ipPart_of_v6 h hv, hlen]
      omega
    ident := fun hv => by rw [num_segment_of_lt h (by omega), ident_ipPart h hv]
    sequence := fun ht => by rw [num_segment_of_le h, sequence_transportPart h ht]
    flags := fun ht => by rw [get_segment_of_le h, flags_transportPart h ht]
    udpLen := fun ht => by
      rw [num_segment_of_le h, udpLen_transportPart h ht, hlen]
      omega
    ipChecksum := fun hv => by
      rw [segment, ← (h.v4 hv).2, ← length_ipPart h, take_left', ipChecksum_ipPart h hv]
      rfl
    checksum := by
      rw [slice_segment h le_rfl (by omega), slice_segment h (by omega) (by omega), hlen, segment,
        drop_append, length_ipPart h, drop_eq_nil_of_le (by rw [length_ipPart h]),
        Nat.sub_self, nil_append, drop_zero]
      exact checksum_transportPart h }

end

end

end Frame

end Rustscale.Tun
