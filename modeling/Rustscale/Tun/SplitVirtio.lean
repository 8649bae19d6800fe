import Rustscale.Tun.Accepted

/-! Splitting loses and invents nothing, verifies, and never goes out of range. -/
namespace Rustscale.Tun
open Octets Bytes Checks EStateM.Result TunPacketBatch Tun.Frame List Except Nat

namespace Frame

/-- The packets are the segments of a frame, in order. -/
structure Segments (f : Frame) (segs : List (List Byte)) : Prop where
  count : segs.length = f.count
  payload : (segs.map (·.drop f.headerLen)).flatten = f.payload
  full : ∀ i, i + 1 < segs.length → ((segs.getD i []).drop f.headerLen).length = f.gsoSize
  nonempty : ∀ seg ∈ segs, seg.drop f.headerLen ≠ []
  each : ∀ i < segs.length, f.SegmentOf i (segs.getD i [])

section
variable {e : Endian} {f : Frame}

theorem flatten_slices (payload : List Byte) (n : ℕ) : ∀ k,
    ((List.range k).map fun i => slice payload (i * n) n).flatten = payload.take (k * n) := by
  intro k
  induction k with
  | zero => simp
  | succ k ih =>
    rw [List.range_succ, List.map_append, List.flatten_append, ih, Nat.add_mul, Nat.one_mul,
      List.take_add]
    simp [slice]

theorem Fits.le_count_mul (h : f.Fits) : f.payload.length ≤ f.count * f.gsoSize := by
  have := mt (lt_count h).mpr (lt_irrefl _)
  omega

theorem length_data (i : ℕ) :
    (f.data i).length = min f.gsoSize (f.payload.length - i * f.gsoSize) := by
  rw [data, slice, length_take, length_drop]

/-- The segments together are a segmentation of the frame. -/
theorem segments_spec (h : f.Fits) : f.Segments ((List.range f.count).map (f.segment e)) := by
  have hdrop : ∀ i, (f.segment e i).drop f.headerLen = f.data i := fun i => (segment_spec h).payload
  have hget : ∀ i < f.count, ((List.range f.count).map (f.segment e)).getD i [] = f.segment e i := by
    intro i hi
    simp [List.getD_eq_getElem?_getD, hi]
  have hlen : ((List.range f.count).map (f.segment e)).length = f.count := by simp
  refine ⟨hlen, ?_, ?_, ?_, ?_⟩
  · rw [List.map_map, show (fun x => List.drop f.headerLen x) ∘ f.segment e = f.data from
      funext hdrop]
    exact (flatten_slices _ _ _).trans (List.take_of_length_le h.le_count_mul)
  · intro i hi
    rw [hlen] at hi
    have hlt := (lt_count h).mp hi
    rw [Nat.add_mul, Nat.one_mul] at hlt
    rw [hget i (by omega), hdrop, length_data]
    omega
  · intro seg hseg
    obtain ⟨i, hi, rfl⟩ := List.mem_map.mp hseg
    have hlt := (lt_count h).mp (List.mem_range.mp hi)
    have hpos := h.gsoSize
    rw [hdrop, ← List.length_pos_iff_ne_nil, length_data]
    omega
  · intro i hi
    rw [hlen] at hi
    rw [hget i hi]
    exact segment_spec h

theorem splitSegments_run (h : f.Fits) (hc : f.count ≤ maxPackets)
    (batch : TunPacketBatch) : ∃ batch', (f.splitSegments e).run batch = .ok () batch' ∧
      batch'.packets = (List.range f.count).map (f.segment e) := by
  obtain ⟨batch', hrun, hb⟩ := segmentsFrom_run h hc f.count 0 batch (by omega) (by simp)
  rw [zero_add] at hb
  refine ⟨{ batch' with len := f.count }, ?_, hb⟩
  simp only [splitSegments, hc, decide_true, ensure_true, lift_ok_bind]
  rw [run_bind_of_ok hrun]
  rfl

/-- A run that succeeds has segments that fit a packet and a batch that holds them. -/
theorem small_of_run {batch batch' : TunPacketBatch} (hpos : 0 < f.gsoSize)
    (hh : f.headerLen ≤ f.input.length) (hfull : f.gsoSize ≤ f.payload.length)
    (h : (f.splitSegments e).run batch = .ok () batch') :
    f.headerLen + f.gsoSize < 2 ^ 16 ∧ f.count ≤ maxPackets := by
  have hcount : ∃ n, f.count = n + 1 := by
    refine exists_eq_succ_of_ne_zero ?_
    rw [count, Nat.div_ne_zero_iff]
    omega
  obtain ⟨n, hn⟩ := hcount
  rw [length_payload] at hfull
  rw [splitSegments, run_lift_bind_eq_ok] at h
  obtain ⟨_, hc, h⟩ := h
  rw [hn, run_bind_eq_ok] at h
  obtain ⟨_, _, h, -⟩ := h
  rw [Gso.segmentsFrom, run_bind_eq_ok] at h
  obtain ⟨_, _, h, -⟩ := h
  rw [Gso.segment, run_lift_bind_eq_ok] at h
  obtain ⟨⟨data, total, tl⟩, hb, -⟩ := h
  refine ⟨?_, of_decide_eq_true (ensure_eq_ok.mp hc)⟩
  simp only [Gso.bounds, gso, zero_mul, bind_eq_ok, ensure_eq_ok, exists_unit,
    decide_eq_true_eq, okOr_eq_ok] at hb
  obtain ⟨-, start, hs, stop, he, d, hd, t, ht, _, -, hlt, -⟩ := hb
  obtain ⟨-, rfl⟩ := add_eq_ok.mp hs
  obtain ⟨-, rfl⟩ := add_eq_ok.mp he
  obtain ⟨-, rfl⟩ := getRange_eq_some.mp hd
  obtain ⟨-, rfl⟩ := add_eq_ok.mp ht
  rw [length_slice (by omega)] at hlt
  omega

theorem Accepted.fits {raw : List Byte} (ha : Accepted e raw)
    (hfull : (ofRaw e raw).gsoSize ≤ (ofRaw e raw).payload.length)
    (hsmall : (ofRaw e raw).headerLen + (ofRaw e raw).gsoSize < 2 ^ 16) : (ofRaw e raw).Fits where
  v4 hv := (ha.v4 hv).2.2
  v6 hv := (ha.v6 hv).2
  headers := ha.headers
  tcp := ha.tcp
  gsoSize := ha.gsoSize
  small := hsmall
  full := hfull

/-- The packet with its checksum filled in, and otherwise as it was. -/
structure Single (f : Frame) (out : List Byte) : Prop where
  length : out.length = f.input.length
  bytes : ∀ k, k ≠ f.cs + f.csumOffset → k ≠ f.cs + f.csumOffset + 1 → get out k = get f.input k

end

end Frame

section
variable {e : Endian} {input out : List Byte} {flags : Byte} {cs csumAt n o v : ℕ}
  {batch batch' : TunPacketBatch}

theorem put_eq_ok : put n input o v = .ok out ↔
    (o + n < 2 ^ 64 ∧ o + n ≤ input.length) ∧ writeAt input o (toBytes .big n v) = out := by
  simp only [put, bind_eq_ok, add_eq_ok, ensure_eq_ok, exists_unit, decide_eq_true_eq, pure,
    Except.pure, Except.ok.injEq]
  constructor
  · rintro ⟨_, ⟨h, rfl⟩, hle, rfl⟩
    exact ⟨⟨h, hle⟩, rfl⟩
  · rintro ⟨⟨h, hle⟩, rfl⟩
    exact ⟨_, ⟨h, rfl⟩, hle, rfl⟩

theorem range_eq_ok : range input o n = .ok out ↔
    (o + n < 2 ^ 64 ∧ o + n ≤ input.length) ∧ slice input o n = out := by
  simp only [range, bind_eq_ok, add_eq_ok, okOr_eq_ok, getRange_eq_some]
  constructor
  · rintro ⟨_, ⟨h, rfl⟩, ⟨-, hle⟩, rfl⟩
    exact ⟨⟨h, hle⟩, by rw [Nat.add_sub_cancel_left]⟩
  · rintro ⟨⟨h, hle⟩, rfl⟩
    exact ⟨_, ⟨h, rfl⟩, ⟨le_add_right _ _, hle⟩, by rw [Nat.add_sub_cancel_left]⟩

/-- A single packet is copied as it is, or with its checksum completed. -/
theorem singleBytes_cases (h : singleBytes e input flags cs csumAt = .ok out) :
    flags &&& virtioNetHdrFNeedsCsum = 0 ∧ out = input ∨
      flags &&& virtioNetHdrFNeedsCsum ≠ 0 ∧ csumAt + 2 ≤ input.length ∧
        out = writeAt input csumAt (toBytes .big 2 (65535 - checksum e
          ((writeAt input csumAt (toBytes .big 2 0)).drop cs) (num 2 input csumAt))) := by
  unfold singleBytes at h
  split_ifs at h with hflag
  · simp only [bind_eq_ok, be16, be, put16, put_eq_ok, range_eq_ok] at h
    obtain ⟨_, ⟨_, ⟨-, rfl⟩, hinit⟩, _, ⟨⟨-, hle⟩, rfl⟩, len, hsub, _, ⟨-, rfl⟩, -, rfl⟩ := h
    obtain rfl : len = (writeAt input csumAt (toBytes .big 2 0)).length - cs := by
      unfold sub at hsub
      split_ifs at hsub
      exact (ok.inj hsub).symm
    refine .inr ⟨hflag, hle, ?_⟩
    rw [writeAt_writeAt (by rwa [toBytes_length]) (by simp only [toBytes_length]), slice,
      take_of_length_le (by rw [length_drop]), ← ok.inj hinit, num]
  · exact .inl ⟨not_not.mp hflag, (ok.inj h).symm⟩

theorem singleBytes_spec (h : singleBytes e input flags cs csumAt = .ok out) :
    out.length = input.length ∧
      ∀ k, k ≠ csumAt → k ≠ csumAt + 1 → get out k = get input k := by
  rcases singleBytes_cases h with ⟨-, rfl⟩ | ⟨-, hle, rfl⟩
  · exact ⟨rfl, fun _ _ _ => rfl⟩
  · have hw : ∀ v, csumAt + (toBytes .big 2 v).length ≤ input.length := fun v => by
      rwa [toBytes_length]
    refine ⟨length_writeAt (hw _), fun k h1 h2 => get_writeAt_of_ne (hw _) ?_⟩
    rw [toBytes_length]
    omega

theorem packets_of_copySingle (h : (copySingle e input flags cs csumAt).run batch = .ok () batch') :
    ∃ out, singleBytes e input flags cs csumAt = .ok out ∧ batch'.packets = [out] := by
  rw [copySingle, run_bind_of_ok (run_packetMut (by decide) batch), run_lift_bind_eq_ok] at h
  obtain ⟨out, hout, h⟩ := h
  refine ⟨out, hout, ?_⟩
  rw [run_bind_of_ok (run_fill (lt_length_grow 0 batch) out)] at h
  obtain rfl : _ = batch' := (ok.inj h).2
  rw [packets, take_one, head?_eq_getElem?]
  exact congrArg Option.toList (getElem?_set_self (lt_length_grow 0 batch))

end

def NoPanic {α : Type} (x : Except SplitError α) : Prop := x ≠ .error .panic

section
variable {α β : Type}

@[simp] theorem noPanic_ok (a : α) : NoPanic (ok a : Except SplitError α) := by simp [NoPanic]

@[simp] theorem noPanic_pure (a : α) : NoPanic (pure a : Except SplitError α) := noPanic_ok a

@[simp] theorem noPanic_bind {x : Except SplitError α} {f : α → Except SplitError β}
    (hx : NoPanic x) : NoPanic (x >>= f) ↔ ∀ a, x = .ok a → NoPanic (f a) := by
  cases x with
  | ok a => exact ⟨fun h _ ha => ok.inj ha ▸ h, fun h => h a rfl⟩
  | error err =>
    refine ⟨fun _ _ h => (nomatch h), fun _ h => ?_⟩
    exact hx (congrArg Except.error (Except.error.inj h))

@[simp] theorem noPanic_map {x : Except SplitError α} (f : α → β) (hx : NoPanic x) :
    NoPanic (f <$> x) := by
  rw [map_eq_pure_bind, noPanic_bind hx]
  exact fun a _ => noPanic_pure _

@[simp] theorem noPanic_ensure (c : Bool) (m : String) : NoPanic (ensure c (.invalid m)) := by
  cases c <;> simp [NoPanic, ensure]

@[simp] theorem noPanic_okOr (o : Option α) (m : String) : NoPanic (okOr o (.invalid m)) := by
  cases o <;> simp [NoPanic, okOr]

@[simp] theorem noPanic_add (a b : ℕ) : NoPanic (add a b) := by
  unfold add
  split_ifs <;> simp [NoPanic]

@[simp] theorem noPanic_range (data : List Byte) (o n : ℕ) : NoPanic (range data o n) := by
  simp [range]

@[simp] theorem noPanic_put (n : ℕ) (data : List Byte) (o v : ℕ) : NoPanic (put n data o v) := by
  simp [put]

@[simp] theorem noPanic_be (n : ℕ) (data : List Byte) (o : ℕ) : NoPanic (be n data o) := by simp [be]

variable (e : Endian)

theorem noPanic_virtioHeader (raw : List Byte) : NoPanic (virtioHeader e raw) := by
  by_cases h : virtioNetHdrLen ≤ raw.length
  · rw [virtioHeader_eq h]
    exact noPanic_ok _
  · simp only [virtioHeader, h, decide_false, ensure]
    simp [NoPanic, bind, Except.bind]

variable (g : Gso) (index : ℕ)

theorem Gso.noPanic_putIp (total : ℕ) (out : List Byte) : NoPanic (g.putIp e index total out) := by
  unfold putIp
  split <;> simp [put16]

theorem Gso.noPanic_putTransport (tl : ℕ) (out : List Byte) :
    NoPanic (g.putTransport index tl out) := by
  unfold putTransport
  split_ifs <;> simp [put16, put32]

theorem Gso.noPanic_putChecksum (tl : ℕ) (out : List Byte) : NoPanic (g.putChecksum e tl out) := by
  simp [putChecksum, put16]

theorem Gso.noPanic_build (data : List Byte) (total tl : ℕ) :
    NoPanic (g.build e index data total tl) := by
  simp [build, g.noPanic_putIp, g.noPanic_putTransport, g.noPanic_putChecksum]

theorem Gso.noPanic_bounds : NoPanic (g.bounds index) := by simp [bounds]

theorem noPanic_ipHeader (input : List Byte) (gsoType : Byte) (cs : ℕ) (first : Byte) :
    NoPanic (ipHeader input gsoType cs first) := by
  unfold ipHeader
  split_ifs
  · simp
  · simp
  · simp [NoPanic]

theorem noPanic_checkOffsets (version : Byte) (ipLen cs csumAt expected thl : ℕ) :
    NoPanic (checkOffsets version ipLen cs csumAt expected thl) := by
  simp [checkOffsets]

theorem noPanic_transportHeader (input : List Byte) (gsoType : Byte) (cs : ℕ) :
    NoPanic (transportHeader input gsoType cs) := by
  unfold transportHeader
  split_ifs <;> simp

theorem noPanic_singleBytes {input : List Byte} (flags : Byte) {cs csumAt : ℕ}
    (hcs : cs ≤ input.length) : NoPanic (singleBytes e input flags cs csumAt) := by
  unfold singleBytes
  split_ifs
  · simp only [be16, put16, noPanic_bind, noPanic_be, noPanic_put]
    intro _ _ out hout
    obtain ⟨⟨-, hle⟩, rfl⟩ := put_eq_ok.mp hout
    have hlen : (writeAt input csumAt (toBytes .big 2 0)).length = input.length :=
      length_writeAt (by rwa [toBytes_length])
    simp [sub, hlen, hcs]
  · exact noPanic_ok _

end

def Safe {α : Type} (x : EStateM SplitError TunPacketBatch α) : Prop :=
  ∀ batch batch', x.run batch ≠ .error .panic batch'

section
variable {α β : Type}

theorem safe_lift_bind {x : Except SplitError α} {f : α → EStateM SplitError TunPacketBatch β}
    (hx : NoPanic x) (hf : ∀ a, x = .ok a → Safe (f a)) : Safe (lift x >>= f) := by
  intro batch batch' h
  rw [run_bind_eq_error] at h
  rcases h with h | ⟨a, s, h, hrun⟩
  · exact hx (run_lift_eq_error.mp h).1
  · exact hf a (run_lift_eq_ok.mp h).1 _ _ hrun

variable (e : Endian)

theorem safe_copySingle {input : List Byte} (flags : Byte) {cs csumAt : ℕ} (hcs : cs ≤ input.length) :
    Safe (copySingle e input flags cs csumAt) := by
  intro batch batch' h
  rw [copySingle, run_bind_of_ok (run_packetMut (by decide) batch), run_bind_eq_error] at h
  rcases h with h | ⟨out, s, h, hrun⟩
  · exact noPanic_singleBytes e flags hcs (run_lift_eq_error.mp h).1
  · obtain ⟨-, rfl⟩ := run_lift_eq_ok.mp h
    rw [run_bind_of_ok (run_fill (lt_length_grow 0 batch) out)] at hrun
    cases hrun

theorem Gso.safe_segment (g : Gso) (index : ℕ) : Safe (g.segment e index) := by
  refine safe_lift_bind (g.noPanic_bounds index) fun ⟨data, total, tl⟩ _ batch batch' h => ?_
  dsimp only at h
  by_cases hmax : index < maxPackets
  · rw [run_bind_of_ok (run_packetMut hmax batch), run_bind_eq_error] at h
    rcases h with h | ⟨out, s, h, hrun⟩
    · exact g.noPanic_build _ _ _ _ _ (run_lift_eq_error.mp h).1
    · obtain ⟨-, rfl⟩ := run_lift_eq_ok.mp h
      rw [run_fill (lt_length_grow index batch) out] at hrun
      cases hrun
  · simp [packetMut, hmax, ensure, EStateM.run, bind, EStateM.bind, lift] at h

theorem Gso.safe_segmentsFrom (g : Gso) (n : ℕ) : ∀ index, Safe (g.segmentsFrom e index n) := by
  induction n with
  | zero =>
    intro index batch batch' h
    simp [segmentsFrom, EStateM.run, pure, EStateM.pure] at h
  | succ n ih =>
    intro index batch batch' h
    rw [segmentsFrom, run_bind_eq_error] at h
    rcases h with h | ⟨_, s, -, h⟩
    · exact g.safe_segment e index _ _ h
    · exact ih (index + 1) _ _ h

theorem noPanic_sub {a b : ℕ} (h : b ≤ a) : NoPanic (sub a b) := by
  rw [sub, if_pos h]
  exact noPanic_ok _

/-- No read or write of the split is out of bounds. -/
theorem safe_splitGso {input : List Byte} {hdr : VirtioHdr} {cs csumAt headerLen thl : ℕ}
    (hcs : cs ≤ input.length) (hh : headerLen ≤ input.length) (hsize : hdr.gsoSize.toNat ≠ 0) :
    Safe (splitGso e input hdr cs csumAt headerLen thl) := by
  refine safe_lift_bind (noPanic_okOr _ _) fun first _ => ?_
  refine safe_lift_bind (noPanic_ipHeader _ _ _ _) fun ⟨ipLen, off, len⟩ _ => ?_
  refine safe_lift_bind (noPanic_add _ _) fun _ _ => ?_
  refine safe_lift_bind (noPanic_checkOffsets _ _ _ _ _ _) fun _ _ => ?_
  refine safe_lift_bind (noPanic_ensure _ _) fun _ _ => ?_
  refine safe_lift_bind (noPanic_sub hh) fun payloadLen _ => ?_
  dsimp only
  split
  · exact safe_copySingle e _ hcs
  · refine safe_lift_bind ?_ fun count _ => ?_
    · rw [divCeil, if_neg hsize]
      exact noPanic_ok _
    refine safe_lift_bind (noPanic_ensure _ _) fun _ _ => ?_
    refine safe_lift_bind (noPanic_ensure _ _) fun _ _ => ?_
    refine safe_lift_bind ?_ fun _ _ => ?_
    · split
      · simp [be32]
      · simp
    refine safe_lift_bind ?_ fun _ _ => ?_
    · split <;> simp [be16]
    intro batch batch' h
    rw [run_bind_eq_error] at h
    rcases h with h | ⟨_, s, -, h⟩
    · exact Gso.safe_segmentsFrom e _ _ _ _ _ h
    · cases h

/-- The splitter never goes out of range. -/
theorem safe_splitVirtioInner (raw : List Byte) : Safe (splitVirtioInner e raw) := by
  refine safe_lift_bind (noPanic_virtioHeader e raw) fun hdr _ => ?_
  refine safe_lift_bind (noPanic_okOr _ _) fun input _ => ?_
  refine safe_lift_bind (noPanic_ensure _ _) fun _ _ => ?_
  refine safe_lift_bind (noPanic_ensure _ _) fun _ hsize => ?_
  refine safe_lift_bind (noPanic_add _ _) fun csumAt hadd => ?_
  refine safe_lift_bind (by simp) fun _ hle => ?_
  obtain ⟨-, rfl⟩ := add_eq_ok.mp hadd
  simp only [bind_eq_ok, add_eq_ok, ensure_eq_ok, decide_eq_true_eq] at hle hsize
  obtain ⟨_, ⟨-, rfl⟩, hle⟩ := hle
  split
  case isTrue =>
    refine safe_lift_bind (noPanic_ensure _ _) fun _ _ => ?_
    exact safe_copySingle e _ (by omega)
  case isFalse hnone =>
    refine safe_lift_bind (noPanic_transportHeader _ _ _) fun _ _ => ?_
    refine safe_lift_bind (noPanic_add _ _) fun _ _ => ?_
    refine safe_lift_bind (noPanic_ensure _ _) fun _ hh => ?_
    have hh := of_decide_eq_true (ensure_eq_ok.mp hh)
    refine safe_splitGso e (by omega) hh fun h0 => ?_
    exact hsize hnone (BitVec.eq_of_toNat_eq h0)

end

def isGso (raw : List Byte) : Bool := decide (get raw 1 ≠ gsoNone)

/-- What a split gives for any bytes. -/
structure SplitSpec (e : Endian) (raw : List Byte)
    (r : EStateM.Result SplitError TunPacketBatch Unit) : Prop where
  inRange : ∀ batch, r ≠ .error .panic batch
  failed : ∀ err batch, r = .error err batch → batch.packets = []
  segments : ∀ batch, r = .ok () batch → isGso raw = true →
    (ofRaw e raw).gsoSize ≤ (ofRaw e raw).payload.length →
    (ofRaw e raw).Segments batch.packets
  single : ∀ batch, r = .ok () batch → isGso raw = true →
    0 < (ofRaw e raw).payload.length → (ofRaw e raw).payload.length < (ofRaw e raw).gsoSize →
    ∃ out, batch.packets = [out] ∧ (ofRaw e raw).Single out

theorem splitVirtio_eq_ok {e : Endian} {raw : List Byte} {batch batch' : TunPacketBatch} :
    splitVirtio e raw batch = .ok () batch' ↔
      (splitVirtioInner e raw).run batch.clear = .ok () batch' := by
  unfold splitVirtio
  cases (splitVirtioInner e raw).run batch.clear <;> simp

section
variable {e : Endian} {raw : List Byte} {batch batch' : TunPacketBatch}
  (h : splitVirtio e raw batch = .ok () batch') (hgso : isGso raw = true)
include h hgso

theorem packets_of_full (hfull : (ofRaw e raw).gsoSize ≤ (ofRaw e raw).payload.length) :
    (ofRaw e raw).Fits ∧
      batch'.packets = (List.range (ofRaw e raw).count).map ((ofRaw e raw).segment e) := by
  rw [splitVirtio_eq_ok] at h
  have ha := accepted_of_ok (of_decide_eq_true hgso) h
  rw [ha.run_eq, if_neg (not_lt.mpr hfull)] at h
  obtain ⟨hsmall, hc⟩ := small_of_run ha.gsoSize ha.headers hfull h
  have hfits := ha.fits hfull hsmall
  obtain ⟨s, hrun, hpackets⟩ := splitSegments_run hfits hc batch.clear
  obtain rfl : s = batch' := (ok.inj (hrun.symm.trans h)).2
  exact ⟨hfits, hpackets⟩

theorem packets_of_short (hlt : (ofRaw e raw).payload.length < (ofRaw e raw).gsoSize) :
    Accepted e raw ∧ ∃ out, batch'.packets = [out] ∧
      singleBytes e (ofRaw e raw).input (get raw 0) (ofRaw e raw).cs
        ((ofRaw e raw).cs + (ofRaw e raw).csumOffset) = .ok out := by
  rw [splitVirtio_eq_ok] at h
  have ha := accepted_of_ok (of_decide_eq_true hgso) h
  rw [ha.run_eq, if_pos hlt] at h
  obtain ⟨out, hout, hpackets⟩ := packets_of_copySingle h
  exact ⟨ha, out, hpackets, hout⟩

end

/-- What `split_virtio` makes of every header and frame: segments of the payload, one packet where
the payload is shorter than a segment, or an error and nothing at all. -/
theorem splitVirtio_spec (e : Endian) (raw : List Byte) (batch : TunPacketBatch) :
    SplitSpec e raw (splitVirtio e raw batch) where
  inRange batch' h := by
    unfold splitVirtio at h
    have hsafe := safe_splitVirtioInner e raw batch.clear
    cases hrun : (splitVirtioInner e raw).run batch.clear with
    | ok _ _ => simp [hrun] at h
    | error err s =>
      rw [hrun] at h
      exact hsafe s (hrun.trans (congrArg (error · s) (error.inj h).1))
  failed err batch' h := by
    unfold splitVirtio at h
    cases hrun : (splitVirtioInner e raw).run batch.clear with
    | ok _ _ => simp [hrun] at h
    | error err' s =>
      rw [hrun] at h
      obtain ⟨-, rfl⟩ := error.inj h
      exact take_zero
  segments batch' h hgso hfull := by
    obtain ⟨hfits, hpackets⟩ := packets_of_full h hgso hfull
    rw [hpackets]
    exact segments_spec hfits
  single batch' h hgso _ hlt := by
    obtain ⟨-, out, hpackets, hout⟩ := packets_of_short h hgso hlt
    obtain ⟨hlen, hbytes⟩ := singleBytes_spec hout
    exact ⟨out, hpackets, hlen, hbytes⟩

/-- A TCP frame of segments of four bytes, with three bytes of payload and without checksums. -/
def shortGso : List Byte :=
  [0, 1, 0, 0, 4, 0, 20, 0, 16, 0] ++
  [0x45, 0, 0, 43, 0, 1, 0, 0, 64, 6, 0, 0, 10, 0, 0, 1, 10, 0, 0, 2] ++
  [0, 80, 0, 81, 0, 0, 0, 1, 0, 0, 0, 1, 0x50, 0x10, 1, 0, 0, 0, 0, 0, 1, 2, 3]

/-- It is accepted, as a packet whose header checksum does not verify. -/
theorem splitVirtio_shortGso : ∃ batch seg, splitVirtio .little shortGso ⟨[], 0⟩ = .ok () batch ∧
    isGso shortGso = true ∧ batch.packets = [seg] ∧
    seg.drop (ofRaw .little shortGso).headerLen = [1, 2, 3] ∧
    onesSum (wordSum (seg.take 20)) ≠ 65535 := by
  refine ⟨⟨[shortGso.drop 10], 1⟩, shortGso.drop 10, rfl, rfl, rfl, ?_, ?_⟩ <;> decide

namespace Frame
variable (f : Frame)

def pseudoOf (packet : List Byte) : ℕ :=
  pseudoSum f.protocol (slice packet f.addressOffset f.addressLen)
    (slice packet (f.addressOffset + f.addressLen) f.addressLen) (packet.length - f.cs)

/-- The checksum is there, and verifies. -/
def Checked (packet : List Byte) : Prop :=
  num 2 packet (f.cs + f.csumOffset) ≠ 0 ∧
    onesSum (f.pseudoOf packet + wordSum (packet.drop f.cs)) = 65535

/-- The sum over a segment without its checksum. -/
def sumOf (i : ℕ) : ℕ :=
  onesSum (pseudoSum f.protocol (slice f.input f.addressOffset f.addressLen)
    (slice f.input (f.addressOffset + f.addressLen) f.addressLen) (f.total i - f.cs) +
      wordSum (writeAt (f.transportFields i) f.csumOffset (toBytes .big 2 0)))

/-- No segment sums up to all ones. A packet that is not cut has its checksum already, or has the
sum of its pseudo-header in that place and does not sum up to all ones. -/
def Checkable (flags : Byte) : Prop :=
  if f.gsoSize ≤ f.payload.length then ∀ i < f.count, f.sumOf i ≠ 65535
  else if flags &&& virtioNetHdrFNeedsCsum ≠ 0 then
    num 2 f.input (f.cs + f.csumOffset) ≡ f.pseudoOf f.input [MOD 65535] ∧
      onesSum (num 2 f.input (f.cs + f.csumOffset) +
        wordSum (writeAt (f.input.drop f.cs) f.csumOffset (toBytes .big 2 0))) ≠ 65535
  else f.Checked f.input

variable {e : Endian} {f}

theorem pseudoOf_ne_zero (packet : List Byte) : f.pseudoOf packet ≠ 0 := by
  have : 0 < f.protocol.toNat := by
    unfold protocol
    split_ifs <;> decide
  unfold pseudoOf pseudoSum
  omega

theorem pseudoOf_writeAt {packet bs : List Byte} {o : ℕ}
    (ho : f.addressOffset + 2 * f.addressLen ≤ o) (h : o + bs.length ≤ packet.length) :
    f.pseudoOf (writeAt packet o bs) = f.pseudoOf packet := by
  rw [pseudoOf, length_writeAt h, slice_writeAt_of_disjoint h (by omega) (.inl (by omega)),
    slice_writeAt_of_disjoint h (by omega) (.inl (by omega)), pseudoOf]

theorem checked_segment_iff (h : f.Fits) {i : ℕ} :
    f.Checked (f.segment e i) ↔ f.sumOf i ≠ 65535 := by
  have hc := h.csumOffset_le
  have hlt := h.total_lt (i := i)
  have hle : f.sumOf i ≤ 65535 := onesSum_le _
  have hnum : num 2 (f.segment e i) (f.cs + f.csumOffset) = 65535 - f.sumOf i := by
    rw [num_segment_of_le h, transportPart,
      num_fillChecksum (by rw [length_transportFields h]; omega),
      checksum_pseudo_eq e _ _ _ _ (by omega), sumOf]
  refine (and_iff_left (segment_spec h).checksum).trans ?_
  rw [hnum]
  omega

/-- A completed checksum verifies when the field held the pseudo-header sum and the total is not
65535. -/
theorem checked_completed_iff (hle : f.cs + f.csumOffset + 2 ≤ f.input.length)
    (haddr : f.addressOffset + 2 * f.addressLen ≤ f.cs) :
    f.Checked (writeAt f.input (f.cs + f.csumOffset) (toBytes .big 2 (65535 - checksum e
        ((writeAt f.input (f.cs + f.csumOffset) (toBytes .big 2 0)).drop f.cs)
          (num 2 f.input (f.cs + f.csumOffset))))) ↔
      num 2 f.input (f.cs + f.csumOffset) ≡ f.pseudoOf f.input [MOD 65535] ∧
        onesSum (num 2 f.input (f.cs + f.csumOffset) +
          wordSum (writeAt (f.input.drop f.cs) f.csumOffset (toBytes .big 2 0))) ≠ 65535 := by
  have hlen : f.csumOffset + 2 ≤ (f.input.drop f.cs).length := by
    rw [length_drop]
    omega
  have heven : 2 ∣ f.csumOffset := by
    unfold csumOffset
    split_ifs <;> decide
  have hinit := num_lt 2 f.input (f.cs + f.csumOffset)
  rw [Checked, num_writeAt hle, pseudoOf_writeAt (by omega) (by rwa [toBytes_length]),
    drop_writeAt_add (by omega), drop_writeAt_add (by omega), checksum_eq e _ hinit,
    wordSum_writeAt heven hlen (v := 65535 - _) (by omega), and_comm]
  generalize wordSum (writeAt (f.input.drop f.cs) f.csumOffset (toBytes .big 2 0)) = sum
  have hle := onesSum_le (num 2 f.input (f.cs + f.csumOffset) + sum)
  refine and_congr (OnesComplement.canon_add_compl_iff (by decide) (pseudoOf_ne_zero _) _) ?_
  omega

end Frame

section
variable {e : Endian} {raw : List Byte} {batch batch' : TunPacketBatch}

/-- All packets of a UDP frame have a checksum that verifies exactly if the frame is checkable: a
sum of all ones would be left as a zero, which means that there is no checksum. -/
theorem splitVirtio_checked_iff (h : splitVirtio e raw batch = .ok () batch')
    (hudp : get raw 1 = gsoUdpL4) :
    (∀ packet ∈ batch'.packets, (ofRaw e raw).Checked packet) ↔
      (ofRaw e raw).Checkable (get raw 0) := by
  have hgso : isGso raw = true := by
    rw [isGso, hudp]
    decide
  unfold Checkable
  split_ifs with hfull hflag
  · obtain ⟨hfits, hpackets⟩ := packets_of_full h hgso hfull
    simp [hpackets, checked_segment_iff hfits]
  all_goals
    obtain ⟨ha, out, hpackets, hout⟩ := packets_of_short h hgso (not_le.mp hfull)
    rw [hpackets, forall_mem_singleton]
  · obtain ⟨hzero, -⟩ | ⟨-, hle, rfl⟩ := singleBytes_cases hout
    · exact absurd hzero hflag
    · have haddr := addresses_le (fun hv => (ha.v4 hv).2.2) fun hv => (ha.v6 hv).2
      exact checked_completed_iff hle haddr
  · obtain ⟨-, rfl⟩ | ⟨hne, -⟩ := singleBytes_cases hout
    · rfl
    · exact absurd hne hflag

end

/-- A UDP frame of one segment, which sums up to all ones. -/
def onesUdp : List Byte :=
  [0, 3, 0, 0, 2, 0, 20, 0, 6, 0] ++
  [0x45, 0, 0, 30, 0, 1, 0, 0, 64, 17, 0x66, 0xcc, 10, 0, 0, 1, 10, 0, 0, 2] ++
  [0, 0, 0, 0, 0, 10, 0, 0, 0xeb, 0xd7]

set_option maxRecDepth 2000 in
theorem run_onesUdp : splitVirtio .little onesUdp ⟨[], 0⟩ = .ok () ⟨[onesUdp.drop 10], 1⟩ := by
  rfl

/-- It is accepted as it is, with a checksum of zero. -/
theorem splitVirtio_onesUdp :
    splitVirtio .little onesUdp ⟨[], 0⟩ = .ok () ⟨[onesUdp.drop 10], 1⟩ ∧
      num 2 (onesUdp.drop 10) 26 = 0 ∧ ¬(ofRaw .little onesUdp).Checked (onesUdp.drop 10) :=
  ⟨run_onesUdp, rfl, fun h => h.1 rfl⟩

/-- A datagram whose checksum comes to zero. -/
theorem splitVirtio_checked_iff_onesUdp :
    splitVirtio .little onesUdp ⟨[], 0⟩ = .ok () ⟨[onesUdp.drop 10], 1⟩ ∧
      ((∀ packet ∈ [onesUdp.drop 10], (ofRaw .little onesUdp).Checked packet) ↔
        (ofRaw .little onesUdp).Checkable (get onesUdp 0)) :=
  ⟨run_onesUdp, splitVirtio_checked_iff run_onesUdp rfl⟩

end Rustscale.Tun
