import Rustscale.Tun.Segments

/-! The loop of the splitter makes the segments of its frame. -/
namespace Rustscale.Tun
open Octets Bytes Checks List TunPacketBatch Nat Gso

section
variable {a b : List Byte} {n o v : ℕ}

theorem add_eq (h : n + o < 2 ^ 64) : add n o = .ok (n + o) := if_pos h

theorem add_eq_ok {c : ℕ} : add n o = .ok c ↔ n + o < 2 ^ 64 ∧ n + o = c := by
  unfold add
  split_ifs with h
  · simp only [Except.ok.injEq, h, true_and]
  · simp only [h, false_and]

theorem getRange_eq (h : n ≤ o) (h' : o ≤ a.length) :
    getRange a n o = some (slice a n (o - n)) := if_pos ⟨h, h'⟩

theorem getRange_eq_some : getRange a n o = some b ↔
    (n ≤ o ∧ o ≤ a.length) ∧ slice a n (o - n) = b := by
  unfold getRange
  split_ifs with h <;> simp [h]

theorem range_eq (h : o + n ≤ a.length) (hlt : o + n < 2 ^ 64) :
    range a o n = .ok (slice a o n) := by
  simp only [range, add_eq hlt, ok_bind, getRange_eq (Nat.le_add_right _ _) h,
    Nat.add_sub_cancel_left, okOr_some]

theorem range_append_left (hlt : a.length < 2 ^ 64) : range (a ++ b) 0 a.length = .ok a := by
  rw [range_eq (by simp) (by omega), slice_append_left (by omega), slice, drop_zero,
    take_length]

theorem range_append_right (hlt : a.length + b.length < 2 ^ 64) :
    range (a ++ b) a.length b.length = .ok b := by
  rw [range_eq (by simp) hlt, slice_append_right le_rfl, Nat.sub_self, slice, drop_zero,
    take_length]

theorem be_eq (h : o + n ≤ a.length) (hlt : o + n < 2 ^ 64) : be n a o = .ok (num n a o) := by
  simp only [be, range_eq h hlt, ok_bind]
  rfl

theorem put_append_left (h : o + n ≤ a.length) (hlt : o + n < 2 ^ 64) :
    put n (a ++ b) o v = .ok (writeAt a o (toBytes .big n v) ++ b) := by
  have hle : o + n ≤ (a ++ b).length := h.trans (by simp)
  simp only [put, add_eq hlt, ok_bind, hle, decide_true, ensure_true]
  rw [writeAt_append_left (by rwa [toBytes_length])]
  rfl

theorem put_append_right (h : o + n ≤ b.length) (hlt : a.length + o + n < 2 ^ 64) :
    put n (a ++ b) (a.length + o) v = .ok (a ++ writeAt b o (toBytes .big n v)) := by
  have hle : a.length + o + n ≤ (a ++ b).length := by
    rw [length_append]
    omega
  simp only [put, add_eq hlt, ok_bind, hle, decide_true, ensure_true]
  rw [writeAt_append_right (Nat.le_add_right _ _), Nat.add_sub_cancel_left]
  rfl

end

section
variable {i : ℕ} {batch : TunPacketBatch}

theorem lt_length_grow (i : ℕ) (batch : TunPacketBatch) : i < (batch.grow i).storage.length := by
  rw [grow, length_append, length_replicate]
  omega

theorem run_packetMut (hi : i < maxPackets) (batch : TunPacketBatch) :
    (packetMut i).run batch = .ok () (batch.grow i) := by
  simp only [packetMut, hi, decide_true, ensure_true]
  rfl

theorem run_fill (hi : i < batch.storage.length) (out : List Byte) :
    (fill i out).run batch =
      .ok () { batch with storage := batch.storage.set i out } := by
  have hget : (get : EStateM SplitError TunPacketBatch _).run batch = .ok batch batch := rfl
  rw [fill, run_bind_of_ok hget, if_pos hi]
  rfl

end

namespace Frame

/-- What the loop over the segments is given. -/
def gso (f : Frame) : Gso where
  input := f.input
  v4 := !f.v6
  tcp := f.tcp
  ipHeaderLen := f.ipLen
  addressOffset := f.addressOffset
  addressLen := f.addressLen
  cs := f.cs
  csumAt := f.cs + f.csumOffset
  headerLen := f.headerLen
  gsoSize := f.gsoSize
  count := f.count
  sequence := if f.tcp then num 4 f.input (f.cs + 4) else 0
  baseId := if f.v6 then 0 else num 2 f.input 4

section
variable {e : Endian} {f : Frame} {i : ℕ}

theorem Fits.cs_lt (h : f.Fits) : f.cs < 2 ^ 16 := by
  have := h.small
  rw [headerLen] at this
  omega

theorem putIp_eq_of_v6 (h : f.Fits) (hv : f.v6 = true) (rest : List Byte) :
    f.gso.putIp e i (f.total i) (f.input.take f.cs ++ rest) = .ok (f.ipPart e i ++ rest) := by
  have h40 := h.v6 hv
  have hlt := h.total_lt (i := i)
  have hle : 40 ≤ f.total i := h40.trans ((le_add_right _ _).trans (le_add_right _ _))
  have hput := put_append_left (b := rest) (v := f.total i - 40)
    (show 4 + 2 ≤ (f.input.take f.cs).length by rw [length_take_cs h]; omega) (by decide)
  have hsmall : f.total i - 40 < 2 ^ 16 := by omega
  simp only [putIp, gso, hv, ipLen, ipPart, ipFields, hle, hsmall, Bool.not_true,
    Bool.false_eq_true, if_false, if_true, okOr_some, ok_bind, decide_true, ensure_true, put16,
    hput]

/-- The loop's IPv4 writes give the segment's IP header. -/
theorem putIp_eq_of_v4 (h : f.Fits) (hv : f.v6 = false) (rest : List Byte) :
    f.gso.putIp e i (f.total i) (f.input.take f.cs ++ rest) = .ok (f.ipPart e i ++ rest) := by
  have h20 := h.le_cs
  have hcs := h.cs_lt
  have hlen : f.ipLen = f.cs := (h.v4 hv).2.symm
  have hf := length_ipFields h (i := i)
  have hfields : f.ipFields i = writeAt (writeAt (f.input.take f.cs) 2 (toBytes .big 2 (f.total i)))
      4 (toBytes .big 2 ((num 2 f.input 4 + i) % 2 ^ 16)) := by
    simp only [ipFields, hv, Bool.false_eq_true, if_false]
  have h2 := put_append_left (b := rest) (v := f.total i)
    (show 2 + 2 ≤ (f.input.take f.cs).length by rw [length_take_cs h]; omega) (by decide)
  have h4 := put_append_left (b := rest) (v := (num 2 f.input 4 + i) % 2 ^ 16)
    (show 4 + 2 ≤ (writeAt (f.input.take f.cs) 2 (toBytes .big 2 (f.total i))).length by
      rw [length_write_ip h (by decide)]; omega) (by decide)
  rw [← hfields] at h4
  have hzero : (writeAt (f.ipFields i) 10 (toBytes .big 2 0)).length = f.cs := by
    rw [length_writeAt (by rw [toBytes_length, hf]; omega), hf]
  have h10 := fun v => put_append_left (b := rest) (v := v)
    (show 10 + 2 ≤ (f.ipFields i).length by rw [hf]; omega) (by decide)
  have h10' := fun v => put_append_left (b := rest) (v := v)
    (show 10 + 2 ≤ (writeAt (f.ipFields i) 10 (toBytes .big 2 0)).length by rw [hzero]; omega)
    (by decide)
  have hrange := range_append_left (b := rest) (hzero.symm ▸ (by omega : f.cs < 2 ^ 64))
  rw [hzero] at hrange
  simp only [putIp, gso, hv, hlen, ipPart, Bool.not_false, if_true, Bool.false_eq_true,
    if_false, put16, h2, ok_bind, h4, h10, hrange, h10', fillChecksum]

theorem putIp_eq (h : f.Fits) (rest : List Byte) :
    f.gso.putIp e i (f.total i) (f.input.take f.cs ++ rest) = .ok (f.ipPart e i ++ rest) := by
  cases hv : f.v6 with
  | true => exact putIp_eq_of_v6 h hv rest
  | false => exact putIp_eq_of_v4 h hv rest

/-- The loop's transport writes give the segment's transport fields. -/
theorem putTransport_eq (h : f.Fits) {ip : List Byte} (hip : ip.length = f.cs) :
    f.gso.putTransport i (f.total i - f.cs) (ip ++ f.body i) =
      .ok (ip ++ f.transportFields i) := by
  have h8 := h.le_transportHeaderLen
  have hcs := h.cs_lt
  have hb := length_body h (i := i)
  have hadd : ∀ k, k < 20 → add f.cs k = .ok (f.cs + k) := fun k _ => add_eq (by omega)
  cases ht : f.tcp with
  | false =>
    have h4 := put_append_right (a := ip) (v := f.total i - f.cs)
      (show 4 + 2 ≤ (f.body i).length by omega) (by omega)
    rw [hip] at h4
    simp only [Gso.putTransport, gso, ht, transportFields, Bool.false_eq_true, if_false,
      hadd 4 (by decide), ok_bind, put16, h4]
  | true =>
    have h20 := h.tcp ht
    have h4 := put_append_right (a := ip)
      (v := (num 4 f.input (f.cs + 4) + f.gsoSize * i) % 2 ^ 32)
      (show 4 + 4 ≤ (f.body i).length by omega) (by omega)
    rw [hip, ← sequenced] at h4
    have hs := length_sequenced h (i := i)
    have hflags : (ip ++ f.sequenced i)[f.cs + 13]? = some (get f.input (f.cs + 13)) := by
      rw [getElem?_append_right (by omega), hip, Nat.add_sub_cancel_left,
        ← get_body (i := i) h (by omega), ← get_sequenced h (by omega),
        getElem?_eq_getElem (by omega)]
      simp [Bytes.get, getElem?_eq_getElem (show 13 < (f.sequenced i).length by omega)]
    have hw : writeAt (ip ++ f.sequenced i) (f.cs + 13) [get f.input (f.cs + 13) &&& ~~~0x09] =
        ip ++ writeAt (f.sequenced i) 13 [get f.input (f.cs + 13) &&& ~~~0x09] := by
      rw [writeAt_append_right (by omega), hip, Nat.add_sub_cancel_left]
    simp only [Gso.putTransport, gso, ht, transportFields, if_true, hadd 4 (by decide),
      hadd 13 (by decide), ok_bind, put32, h4]
    split_ifs
    · simp only [hflags, okOr_some, ok_bind, hw]
      rfl
    · rfl

/-- The loop's checksum write completes the transport header. -/
theorem putChecksum_eq (h : f.Fits) {ip : List Byte} (hip : ip.length = f.cs) :
    f.gso.putChecksum e (f.total i - f.cs) (ip ++ f.transportFields i) =
      .ok (ip ++ f.transportPart e i) := by
  have hc := h.csumOffset_le
  have hcs := h.cs_lt
  have hlt := h.total_lt (i := i)
  have hle := h.addresses
  have hin := h.cs_le
  have ht := length_transportFields h (i := i)
  have htotal : f.total i - f.cs = f.transportHeaderLen + (f.data i).length := by
    rw [total, headerLen]
    omega
  have hzero : (writeAt (f.transportFields i) f.csumOffset (toBytes .big 2 0)).length =
      f.total i - f.cs := by
    rw [length_writeAt (by rw [toBytes_length, ht]; omega), ht, htotal]
  have hput := fun v => put_append_right (a := ip) (v := v)
    (show f.csumOffset + 2 ≤ (f.transportFields i).length by omega) (by omega)
  have hput' := fun v => put_append_right (a := ip) (v := v)
    (show f.csumOffset + 2 ≤ (writeAt (f.transportFields i) f.csumOffset
      (toBytes .big 2 0)).length by omega) (by omega)
  have hrange := range_append_right (a := ip)
    (b := writeAt (f.transportFields i) f.csumOffset (toBytes .big 2 0)) (by omega)
  rw [hip] at hput hput' hrange
  rw [hzero] at hrange
  have hsrc := range_eq (a := f.input) (o := f.addressOffset) (n := f.addressLen) (by omega)
    (by omega)
  have hdst := range_eq (a := f.input) (o := f.addressOffset + f.addressLen) (n := f.addressLen)
    (by omega) (by omega)
  have hadd := add_eq (n := f.addressOffset) (o := f.addressLen) (by omega)
  simp only [putChecksum, gso, put16, hput, ok_bind, hsrc, hdst, hadd, hrange, hput',
    transportPart, fillChecksum, protocol, protocol]
  rfl

theorem lt_count (h : f.Fits) : i < f.count ↔ i * f.gsoSize < f.payload.length := by
  have hpos := h.gsoSize
  rw [count, lt_iff_add_one_le, le_div_iff_mul_le hpos, add_mul, one_mul]
  omega

theorem length_payload : f.payload.length = f.input.length - f.headerLen := length_drop

theorem data_eq (h : f.Fits) (hi : i < f.count) :
    slice f.input (f.headerLen + i * f.gsoSize)
      (min (f.headerLen + i * f.gsoSize + f.gsoSize) f.input.length -
        (f.headerLen + i * f.gsoSize)) = f.data i := by
  have hlt := (lt_count h).mp hi
  rw [length_payload] at hlt
  rw [data, slice, slice, payload, drop_drop, take_eq_take_iff, length_drop]
  omega

/-- The bounds the loop computes are those of the segment. -/
theorem bounds_eq (h : f.Fits) (hi : i < f.count) (hc : f.count ≤ maxPackets) :
    f.gso.bounds i = .ok (f.data i, f.total i, f.total i - f.cs) := by
  have hlt := (lt_count h).mp hi
  have hsmall := h.small
  have htotal := h.total_lt (i := i)
  have hmul : i * f.gsoSize ≤ 128 * 65535 := Nat.mul_le_mul (hi.le.trans hc) (by omega)
  have hcs : f.cs ≤ f.total i := (le_add_right _ _).trans (le_add_right _ _)
  rw [length_payload] at hlt
  have hdata := data_eq h hi
  have hmul' : i * f.gsoSize < 2 ^ 64 := by omega
  have htl : f.total i - f.cs < 2 ^ 16 := by omega
  have hstart := add_eq (n := f.headerLen) (o := i * f.gsoSize) (by omega)
  have hend := add_eq (n := f.headerLen + i * f.gsoSize) (o := f.gsoSize) (by omega)
  have hrange := getRange_eq (n := f.headerLen + i * f.gsoSize)
    (o := min (f.headerLen + i * f.gsoSize + f.gsoSize) f.input.length) (by omega)
    (min_le_right _ _)
  have hadd : add f.headerLen (f.data i).length = .ok (f.total i) :=
    add_eq (by rw [← total]; omega)
  rw [hdata] at hrange
  simp only [bounds, gso, hmul', decide_true, ensure_true, ok_bind, hstart, hend, hrange,
    okOr_some, hadd, hcs, if_true, htotal, htl]
  rfl

theorem build_eq (h : f.Fits) :
    f.gso.build e i (f.data i) (f.total i) (f.total i - f.cs) = .ok (f.segment e i) := by
  have hsmall := h.small
  have hrange := range_eq (a := f.input) (o := 0) (n := f.headerLen) (by simpa using h.headers)
    (by omega)
  have hsplit : slice f.input 0 f.headerLen ++ f.data i = f.input.take f.cs ++ f.body i := by
    rw [body, ← append_assoc]
    congr 1
    rw [slice, slice, drop_zero, headerLen, take_add]
  simp only [build, gso] at *
  rw [hrange, ok_bind, hsplit]
  have hip := putIp_eq h (e := e) (i := i) (f.body i)
  have htr := putTransport_eq h (i := i) (length_ipPart h (e := e) (i := i))
  have hck := putChecksum_eq h (e := e) (i := i) (length_ipPart h (e := e) (i := i))
  simp only [gso] at hip htr hck
  rw [hip, ok_bind, htr, ok_bind, hck, segment]

theorem segment_run (h : f.Fits) (hi : i < f.count) (hc : f.count ≤ maxPackets)
    (batch : TunPacketBatch) : (f.gso.segment e i).run batch =
      .ok () { batch with storage := (batch.grow i).storage.set i (f.segment e i) } := by
  simp only [Gso.segment, bounds_eq h hi hc, lift_ok_bind]
  rw [run_bind_of_ok (run_packetMut (hi.trans_le hc) batch)]
  simp only [build_eq h, lift_ok_bind]
  exact run_fill (lt_length_grow i batch) _

/-- Run lemma: the loop stores the segments in order. -/
theorem segmentsFrom_run (h : f.Fits) (hc : f.count ≤ maxPackets) (n : ℕ) :
    ∀ (i : ℕ) (batch : TunPacketBatch), i + n ≤ f.count →
      batch.storage.take i = (List.range i).map (f.segment e) →
      ∃ batch', (f.gso.segmentsFrom e i n).run batch = .ok () batch' ∧
        batch'.storage.take (i + n) = (List.range (i + n)).map (f.segment e) := by
  induction n with
  | zero => exact fun i batch _ hb => ⟨batch, rfl, hb⟩
  | succ n ih =>
    intro i batch hle hb
    have hstored : i ≤ batch.storage.length := by
      have := congrArg length hb
      rw [length_take, length_map, length_range] at this
      omega
    have hnext : ((batch.grow i).storage.set i (f.segment e i)).take (i + 1) =
        (List.range (i + 1)).map (f.segment e) := by
      rw [take_add_one, take_set_of_le le_rfl,
        getElem?_set_self (lt_length_grow i batch), grow,
        take_append_of_le_length hstored, hb, range_succ, map_append]
      rfl
    obtain ⟨batch', hrun, hb'⟩ := ih (i + 1) { batch with
      storage := (batch.grow i).storage.set i (f.segment e i) } (by omega) hnext
    refine ⟨batch', ?_, by rwa [add_assoc, add_comm 1] at hb'⟩
    rw [segmentsFrom, run_bind_of_ok (segment_run h (by omega) hc batch), hrun]

end

end Frame

end Rustscale.Tun
